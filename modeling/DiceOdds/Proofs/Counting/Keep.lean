import DiceOdds.Proofs.Counting.Counts
import DiceOdds.Distribution.Keep

/-!
# Keeping counts every choice of values

What is kept of several values is said with all of them in order: the first or the last ones.  The
computation never sees more than the values kept so far.

## Why forgetting is safe

`keepValue` puts a value into what is kept and drops the worst one.  The invariant is that the
values kept are the best ones of those seen (`keepValue_best`): a value that was forgotten has
enough better ones before it, and still has them when another value comes in.
-/

namespace DiceOdds

open Outcome (exactSum exactSum_nil exactSum_cons)

/-! ## 1. The best of several values -/

namespace Outcome

instance : Std.Total (α := Outcome) (· ≤ ·) := ⟨fun a b => Int.le_total a.hundredths b.hundredths⟩

instance : IsTrans Outcome (· ≤ ·) := ⟨fun _ _ _ => Int.le_trans⟩

instance : Std.Antisymm (α := Outcome) (· ≤ ·) := ⟨fun _ _ h h' => ext (Int.le_antisymm h h')⟩

theorem exactSum_perm {us vs : List Outcome} (h : us.Perm vs) : exactSum us = exactSum vs :=
  (h.map hundredths).sum_eq

/-- The values in ascending order. -/
def ascending (vs : List Outcome) : List Outcome := vs.insertionSort (· ≤ ·)

theorem ascending_eq_of_perm {us vs : List Outcome} (h : us.Perm vs) : ascending us = ascending vs :=
  List.Perm.eq_of_pairwise' (List.pairwise_insertionSort _ us) (List.pairwise_insertionSort _ vs)
    (((List.perm_insertionSort _ us).trans h).trans (List.perm_insertionSort _ vs).symm)

@[simp] theorem length_ascending (vs : List Outcome) : (ascending vs).length = vs.length :=
  List.length_insertionSort _ vs

end Outcome

/-- The `count` highest or lowest values, ascending; all of them if there are no more. -/
def KeepKind.best (kind : KeepKind) (count : ℕ) (vs : List Outcome) : List Outcome :=
  match kind with
  | highest => (Outcome.ascending vs).rtake count
  | lowest => (Outcome.ascending vs).take count

/-- The sum of the values that are kept, if it lies on the grid. -/
def KeepKind.sum? (kind : KeepKind) (count : ℕ) (vs : List Outcome) : Option Outcome :=
  Outcome.sum? (kind.best count vs)

theorem KeepKind.best_of_length_le (kind : KeepKind) {count : ℕ} {vs : List Outcome}
    (h : vs.length ≤ count) : kind.best count vs = Outcome.ascending vs := by
  cases kind with
  | highest =>
    rw [best, List.rtake, Outcome.length_ascending, Nat.sub_eq_zero_of_le h, List.drop_zero]
  | lowest => exact List.take_of_length_le (by simpa using h)

namespace Distribution

/-! ## 2. Taking in one value -/

theorem insertAscending_eq (v : Outcome) (vs : List Outcome) :
    insertAscending v vs = vs.orderedInsert (· ≤ ·) v := by
  induction vs with
  | nil => rfl
  | cons first rest ih =>
    have hle : ¬ first < v ↔ v ≤ first := Int.not_lt
    rw [insertAscending, List.orderedInsert_cons, ih]
    by_cases h : v ≤ first
    · rw [if_pos h, if_neg (hle.2 h)]
    · rw [if_neg h, if_pos (not_not.1 fun h' => h (hle.1 h'))]

/-- The first values of a list decide about the first values after an insertion. -/
theorem take_orderedInsert_take (v : Outcome) (vs : List Outcome) (n : ℕ) :
    ((vs.take n).orderedInsert (· ≤ ·) v).take n = (vs.orderedInsert (· ≤ ·) v).take n := by
  induction vs generalizing n with
  | nil => simp
  | cons first rest ih =>
    cases n with
    | zero => rfl
    | succ n =>
      rw [List.take_succ_cons, List.orderedInsert_cons, List.orderedInsert_cons]
      split
      · cases n with
        | zero => rfl
        | succ n => simp [List.take_take]
      · rw [List.take_succ_cons, List.take_succ_cons, ih n]

theorem rtake_of_length_eq (us : List Outcome) {vs : List Outcome} {n : ℕ} (h : vs.length = n) :
    (us ++ vs).rtake n = vs := by
  rw [List.rtake, List.length_append, h, Nat.add_sub_cancel, List.drop_left]

/-- The same for the last values, if the values are in order. -/
theorem rtake_orderedInsert_rtake (v : Outcome) {vs : List Outcome}
    (hs : vs.Pairwise (· ≤ ·)) (n : ℕ) :
    ((vs.rtake n).orderedInsert (· ≤ ·) v).rtake n = (vs.orderedInsert (· ≤ ·) v).rtake n := by
  rcases le_or_gt vs.length n with hn | hn
  · rw [show vs.rtake n = vs by rw [List.rtake, Nat.sub_eq_zero_of_le hn, List.drop_zero]]
  obtain ⟨low, high, hsplit, hlen⟩ : ∃ low high, vs = low ++ high ∧ high.length = n :=
    ⟨vs.take (vs.length - n), vs.drop (vs.length - n), (List.take_append_drop ..).symm, by
      rw [List.length_drop]; omega⟩
  subst hsplit
  rw [rtake_of_length_eq low hlen]
  clear hn
  -- the induction is on the values in front of the last ones
  induction low with
  | nil => rfl
  | cons first low ih =>
    rw [List.cons_append, List.pairwise_cons] at hs
    rw [ih hs.2, List.cons_append, List.orderedInsert_cons]
    split
    · next hv =>
      -- `v` comes before all of them, and is dropped again
      have hle : ∀ b ∈ low ++ high, v ≤ b := fun b hb => trans_of (· ≤ ·) hv (hs.1 b hb)
      have hfront : (low ++ high).orderedInsert (· ≤ ·) v = v :: (low ++ high) := by
        cases hrest : low ++ high with
        | nil => rfl
        | cons b rest =>
          exact List.orderedInsert_cons_of_le _ rest (hle b (hrest ▸ List.mem_cons_self ..))
      rw [hfront]
      exact (rtake_of_length_eq (v :: low) hlen).trans
        (rtake_of_length_eq (v :: first :: low) hlen).symm
    · have hlong : n ≤ ((low ++ high).orderedInsert (· ≤ ·) v).length := by
        rw [List.orderedInsert_length, List.length_append]
        omega
      rw [List.rtake, List.rtake, List.length_cons, Nat.succ_sub hlong, List.drop_succ_cons]

theorem rtake_length_sub_one (vs : List Outcome) : vs.rtake (vs.length - 1) = vs.tail := by
  cases vs with
  | nil => rfl
  | cons v vs => simp [List.rtake]

/-- What `keepValue` keeps, said with the list that it grows. -/
theorem keepValue_eq (kind : KeepKind) {count : ℕ} {kept : List Outcome} (v : Outcome)
    (h : kept.length ≤ count) :
    keepValue kind count kept v = match kind with
      | .highest => (kept.orderedInsert (· ≤ ·) v).rtake count
      | .lowest => (kept.orderedInsert (· ≤ ·) v).take count := by
  unfold keepValue
  rw [insertAscending_eq]
  have hlen := List.orderedInsert_length (· ≤ ·) kept v
  dsimp only
  by_cases hfew : (kept.orderedInsert (· ≤ ·) v).length ≤ count
  · rw [if_pos hfew]
    cases kind with
    | highest => simp [List.rtake, Nat.sub_eq_zero_of_le hfew]
    | lowest => simp [List.take_of_length_le hfew]
  · rw [if_neg hfew]
    have hcount : count = (kept.orderedInsert (· ≤ ·) v).length - 1 := by omega
    cases kind with
    | highest => exact hcount ▸ (rtake_length_sub_one _).symm
    | lowest => exact hcount ▸ List.dropLast_eq_take

theorem length_best_le (kind : KeepKind) (count : ℕ) (vs : List Outcome) :
    (kind.best count vs).length ≤ count := by
  cases kind with
  | highest => simp only [KeepKind.best, List.rtake, List.length_drop]; omega
  | lowest => exact List.length_take_le ..

/-- **What is kept are the best values seen**, and one more value keeps it so. -/
theorem keepValue_best (kind : KeepKind) (count : ℕ) (vs : List Outcome) (v : Outcome) :
    keepValue kind count (kind.best count vs) v = kind.best count (v :: vs) := by
  rw [keepValue_eq kind v (length_best_le kind count vs)]
  cases kind with
  | highest => exact rtake_orderedInsert_rtake v (List.pairwise_insertionSort _ vs) count
  | lowest => exact take_orderedInsert_take v _ count

/-- Taking in all values, one after the other. -/
theorem foldl_keepValue (kind : KeepKind) (count : ℕ) (vs : List Outcome) :
    vs.foldl (keepValue kind count) [] = kind.best count vs := by
  have hrun : ∀ seen, vs.foldl (keepValue kind count) (kind.best count seen)
      = kind.best count (vs.reverse ++ seen) := by
    induction vs with
    | nil => exact fun _ => rfl
    | cons v vs ih =>
      intro seen
      rw [List.foldl_cons, keepValue_best, ih (v :: seen), List.reverse_cons, List.append_assoc,
        List.singleton_append]
  have hnil : kind.best count [] = [] := List.eq_nil_of_length_eq_zero
    (Nat.le_zero.1 (by cases kind <;> simp [KeepKind.best, List.rtake, Outcome.ascending]))
  have hall := hrun []
  rw [hnil, List.append_nil] at hall
  rw [hall]
  have hsame := Outcome.ascending_eq_of_perm (List.reverse_perm vs)
  cases kind with
  | highest => exact congrArg (List.rtake · count) hsame
  | lowest => exact congrArg (List.take count) hsame

/-! ## 3. Partial results -/

theorem tableSum_keepEach (kind : KeepKind) (count : ℕ) (item : List (Outcome × ℚ))
    (states : KeepStates ℚ) (kept : List Outcome) (weight : ℚ) (f : List Outcome → ℚ) :
    tableSum (keepEach kind count item states kept weight) f = tableSum states f
      + weight * (item.map fun p => p.2 * f (keepValue kind count kept p.1)).sum := by
  have h := foldl_measure (fun (states : KeepStates ℚ) (p : Outcome × ℚ) =>
      states.alter (keepValue kind count kept p.1) fun old => some (old.getD 0 + weight * p.2))
    (fun states => tableSum states f)
    (fun p => weight * (p.2 * f (keepValue kind count kept p.1))) item states fun states p _ => by
      rw [tableSum_alter, mul_assoc]
  rwa [List.sum_map_mul_left] at h

theorem nonneg_keepEach {kind : KeepKind} {count : ℕ} {item : List (Outcome × ℚ)}
    {states : KeepStates ℚ} {kept : List Outcome} {weight : ℚ} (hs : NonnegTable states)
    (hw : 0 ≤ weight) (hi : ∀ p ∈ item, 0 ≤ p.2) :
    NonnegTable (keepEach kind count item states kept weight) :=
  foldl_invariant _ NonnegTable item hs fun _ p hp h => h.alter _ (mul_nonneg hw (hi p hp))

/-- A step of `keepItem` that succeeds has not run into the bound on partial results. -/
theorem keepItem_step {next next' : KeepStates ℚ}
    (h : (if greatestKeepStates < next.size then .error .keepStates else .ok next :
      Except Exceeded (KeepStates ℚ)) = .ok next') : next = next' := by
  split at h
  · cases h
  · cases h; rfl

/-- One item after all partial results. -/
theorem tableSum_keepItem {kind : KeepKind} {count : ℕ} {states next : KeepStates ℚ}
    {item : Distribution ℚ} (h : keepItem kind count states item = .ok next)
    (f : List Outcome → ℚ) :
    tableSum next f
      = tableSum states fun kept => item.sumOver fun v => f (keepValue kind count kept v) := by
  have hs := foldlM_measure _ (fun states => tableSum states f)
    (fun p : List Outcome × ℚ =>
      p.2 * (item.toList.map fun q => q.2 * f (keepValue kind count p.1 q.1)).sum)
    states.toList h ?_
  · rwa [tableSum_empty, zero_add] at hs
  · rintro next next' p - hstep
    rw [← keepItem_step hstep, tableSum_keepEach]

theorem nonneg_keepItem {kind : KeepKind} {count : ℕ} {states next : KeepStates ℚ}
    {item : Distribution ℚ} (hs : NonnegTable states) (hi : item.Nonneg)
    (h : keepItem kind count states item = .ok next) : NonnegTable next := by
  refine foldlM_invariant _ NonnegTable states.toList h nonnegTable_empty ?_
  intro next next' p hp hn hstep
  rw [← keepItem_step hstep]
  exact nonneg_keepEach hn (hs.mem hp) hi

/-- All items: the partial results come from all choices of one value of each item. -/
theorem tableSum_keepItems {kind : KeepKind} {count : ℕ} {items : List (Distribution ℚ)}
    {states final : KeepStates ℚ} (hs : NonnegTable states) (hi : ∀ d ∈ items, d.Nonneg)
    (h : items.foldlM (keepItem kind count) states = .ok final) :
    NonnegTable final ∧ ∀ f : List Outcome → ℚ, tableSum final f
      = tableSum states fun kept => sumOverAll items fun vs =>
          f (vs.foldl (keepValue kind count) kept) := by
  induction items generalizing states with
  | nil =>
    obtain rfl := pure_eq_ok.1 h
    exact ⟨hs, fun _ => rfl⟩
  | cons item items ih =>
    rw [List.foldlM_cons, bind_eq_ok] at h
    obtain ⟨next, hnext, h⟩ := h
    obtain ⟨hfinal, hsum⟩ := ih (nonneg_keepItem hs (hi item (List.mem_cons_self ..)) hnext)
      (fun d hd => hi d (List.mem_cons_of_mem _ hd)) h
    refine ⟨hfinal, fun f => ?_⟩
    rw [hsum f, tableSum_keepItem hnext]
    rfl

/-! ## 4. The sums that are kept -/

theorem sumKept?_eq_some {kept : List Outcome} {sum : Outcome} (h : sumKept? kept = some sum) :
    sum.hundredths = exactSum kept := by
  have hfrom : ∀ start, kept.foldlM Outcome.add? start = some sum →
      sum.hundredths = start.hundredths + exactSum kept := by
    clear h
    induction kept with
    | nil =>
      intro start h
      obtain rfl : start = sum := by simpa using h
      simp
    | cons v kept ih =>
      intro start h
      rw [List.foldlM_cons, Option.bind_eq_bind, Option.bind_eq_some_iff] at h
      obtain ⟨next, hnext, h⟩ := h
      rw [ih next h, Outcome.add?_eq_some.1 hnext, exactSum_cons, add_assoc]
  rw [hfrom 0 h, Outcome.hundredths_zero, zero_add]

theorem ofKeepStates_step {out next : Distribution ℚ} {kept : List Outcome} {weight : ℚ}
    (h : (match sumKept? kept with
      | some sum => .ok (out.add sum weight)
      | none => .error .value : Except Exceeded (Distribution ℚ)) = .ok next) :
    ∃ sum : Outcome, sum.hundredths = exactSum kept ∧ next = out.add sum weight := by
  cases hsum : sumKept? kept with
  | none =>
    rw [hsum] at h
    cases h
  | some sum =>
    rw [hsum] at h
    cases h
    exact ⟨sum, sumKept?_eq_some hsum, rfl⟩

theorem sumOver_ofKeepStates {states : KeepStates ℚ} {d : Distribution ℚ}
    (hs : NonnegTable states) (h : ofKeepStates states = .ok d) (F : ℤ → ℚ) :
    d.sumOver (fun v => F v.hundredths) = tableSum states fun kept => F (exactSum kept) := by
  have hm := foldlM_measure _ (fun d => d.sumOver fun v => F v.hundredths)
    (fun p : List Outcome × ℚ => p.2 * F (exactSum p.1)) states.toList h ?_
  · rwa [sumOver_empty, zero_add] at hm
  · intro out next p hp hstep
    obtain ⟨sum, hsum, rfl⟩ := ofKeepStates_step hstep
    rw [sumOver_add (hs.mem hp), hsum]

theorem nonneg_ofKeepStates {states : KeepStates ℚ} {d : Distribution ℚ}
    (h : ofKeepStates states = .ok d) : d.Nonneg := by
  refine foldlM_invariant _ Nonneg states.toList h nonneg_empty fun out next p _ hout hstep => ?_
  obtain ⟨sum, -, rfl⟩ := ofKeepStates_step hstep
  exact hout.add sum _

/-- Adding up all items, where nothing has to be forgotten. -/
theorem sumOver_convolveAll {items : List (Distribution ℚ)} {start r : Distribution ℚ}
    (hs : start.Nonneg) (hi : ∀ d ∈ items, d.Nonneg)
    (h : items.foldlM convolve start = .ok r) :
    r.Nonneg ∧ ∀ F : ℤ → ℚ, r.sumOver (fun v => F v.hundredths)
      = start.sumOver fun a => sumOverAll items fun vs => F (a.hundredths + exactSum vs) := by
  induction items generalizing start with
  | nil =>
    obtain rfl := pure_eq_ok.1 h
    exact ⟨hs, fun F => by simp [sumOverAll]⟩
  | cons item items ih =>
    rw [List.foldlM_cons, bind_eq_ok] at h
    obtain ⟨next, hnext, h⟩ := h
    obtain ⟨hr, hsum⟩ := ih (nonneg_convolve hnext) (fun d hd => hi d (List.mem_cons_of_mem _ hd)) h
    refine ⟨hr, fun F => ?_⟩
    rw [hsum F, sumOver_convolve hs (hi item (List.mem_cons_self ..)) hnext fun m =>
      sumOverAll items fun vs => F (m + exactSum vs)]
    simp only [sumOverAll, exactSum_cons, add_assoc]

/-- **Keeping counts every choice of one value of each item.** -/
theorem sumOver_keep {items : List (Distribution ℚ)} {count : ℕ} {kind : KeepKind}
    {r : Distribution ℚ} (hi : ∀ d ∈ items, d.Nonneg) (h : keep items count kind = .ok r)
    (F : ℤ → ℚ) :
    r.sumOver (fun v => F v.hundredths)
      = sumOverAll items fun vs => F (exactSum (kind.best count vs)) := by
  unfold keep at h
  split at h
  · next hfew =>
    obtain ⟨-, hsum⟩ := sumOver_convolveAll (nonneg_point 0) hi h
    rw [hsum F, sumOver_point]
    refine sumOverAll_congr fun vs hvs => ?_
    rw [kind.best_of_length_le (hvs.length_eq ▸ hfew), Outcome.ascending,
      Outcome.exactSum_perm (List.perm_insertionSort _ vs), Outcome.hundredths_zero, zero_add]
  · obtain ⟨states, hstates, h⟩ := bind_eq_ok.1 h
    obtain ⟨d, hd, h⟩ := bind_eq_ok.1 h
    obtain rfl : d = r := by simpa using h
    obtain ⟨hn, hsum⟩ := tableSum_keepItems (nonnegTable_empty.insert [] zero_le_one) hi hstates
    rw [sumOver_ofKeepStates hn hd, hsum, tableSum_insert_empty, one_mul]
    simp only [foldl_keepValue]

theorem nonneg_keep {items : List (Distribution ℚ)} {count : ℕ} {kind : KeepKind}
    {r : Distribution ℚ} (hi : ∀ d ∈ items, d.Nonneg) (h : keep items count kind = .ok r) :
    r.Nonneg := by
  unfold keep at h
  split at h
  · exact (sumOver_convolveAll (nonneg_point 0) hi h).1
  · obtain ⟨states, -, h⟩ := bind_eq_ok.1 h
    obtain ⟨d, hd, h⟩ := bind_eq_ok.1 h
    obtain rfl : d = r := by simpa using h
    exact nonneg_ofKeepStates hd

/-- The same, for items that count the values of lists of rolls. -/
theorem counts_keep {α : Type} {value : α → Option Outcome} {items : List (Distribution ℚ)}
    {rolls : List (List α)} {count : ℕ} {kind : KeepKind} {r : Distribution ℚ}
    (hi : List.Forall₂ (fun d l => d.Counts (l.map value)) items rolls)
    (h : keep items count kind = .ok r) :
    r.Counts (rolls.sections.map fun s => (s.mapM value).bind (kind.sum? count)) := by
  have hn : ∀ d ∈ items, d.Nonneg := by
    intro d hd
    obtain ⟨i, hlt, rfl⟩ := List.mem_iff_getElem.1 hd
    exact ((List.forall₂_iff_get.1 hi).2 i hlt ((List.Forall₂.length_eq hi) ▸ hlt)).nonneg
  intro g
  have hsum := sumOver_keep hn h fun m => g (Outcome.ofHundredths? m)
  simp only [Outcome.ofHundredths?_hundredths] at hsum
  rw [hsum, List.map_map]
  exact sumOverAll_counts hi fun vs => g (vs.bind (kind.sum? count))

end Distribution

end DiceOdds
