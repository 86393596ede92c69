import DiceOdds.Proofs.Choices.Basic
import DiceOdds.Proofs.Counting.Succeeds

/-!
# Keeping enumerates all choices

The best values of several items, added up, weigh as much as the choices that they are the best
values of.  That is so for items of any kind and number, and the order of the items plays no part.

## Why the bound is no matter of order

The computation gives up in the middle of an item, as soon as there are too many partial results.
Partial results are only ever added, so it gives up exactly when there are too many of them at the
end of an item.  How many these are depends on the items alone: they are the lists that are kept of
all choices so far (`keptLists`).  So no order in which partial results are gone through makes a
difference, neither to whether the computation succeeds nor to its result (`toList_keepIn`).
-/

namespace DiceOdds

open Outcome (exactSum)

theorem KeepKind.best_perm (kind : KeepKind) (count : ℕ) {us vs : List Outcome}
    (h : us.Perm vs) : kind.best count us = kind.best count vs := by
  have hsame := Outcome.ascending_eq_of_perm h
  cases kind with
  | highest => exact congrArg (List.rtake · count) hsame
  | lowest => exact congrArg (List.take count) hsame

namespace Distribution

variable {kind : KeepKind} {count : ℕ} {items : List (Distribution ℚ)} {item : Distribution ℚ}

/-! ## 1. Weights -/

theorem weightOf_keep {r : Distribution ℚ} (hi : ∀ d ∈ items, d.Nonneg)
    (h : keep items count kind = .ok r) (v : Outcome) :
    r.weightOf v = choiceWeight items fun vs => exactSum (kind.best count vs) = v.hundredths := by
  rw [weightOf_eq_sumOver_hundredths, sumOver_keep hi h fun n => if n = v.hundredths then 1 else 0,
    choiceWeight_eq]

theorem choiceWeight_best_perm {items' : List (Distribution ℚ)} (h : items.Perm items') (n : ℤ) :
    choiceWeight items (fun vs => exactSum (kind.best count vs) = n)
      = choiceWeight items' fun vs => exactSum (kind.best count vs) = n := by
  rw [choiceWeight_eq, choiceWeight_eq]
  exact sumOverAll_perm h fun us vs hperm => by rw [kind.best_perm count hperm]

/-! ## 2. Kept lists -/

/-- The lists that are kept of all choices of one outcome of each item. -/
def keptLists (kind : KeepKind) (count : ℕ) (items : List (Distribution ℚ)) :
    Finset (List Outcome) :=
  ((choices items).map fun choice => kind.best count choice.values).toFinset

theorem mem_keptLists {kept : List Outcome} : kept ∈ keptLists kind count items
    ↔ ∃ choice ∈ choices items, kind.best count choice.values = kept := by
  simp [keptLists]

theorem keptLists_nil (kind : KeepKind) (count : ℕ) : keptLists kind count [] = {[]} := by
  have hbest : kind.best count [] = [] := by
    rw [kind.best_of_length_le (Nat.zero_le _)]
    rfl
  simp [keptLists, choices, Choice.values, hbest]

/-- One more item: its outcomes go into what has been kept so far. -/
theorem mem_keptLists_append {kept : List Outcome} :
    kept ∈ keptLists kind count (items ++ [item]) ↔ ∃ before ∈ keptLists kind count items,
      ∃ v ∈ item.weights, keepValue kind count before v = kept := by
  have hchoices : ∀ choice : Choice, choice ∈ choices (items ++ [item])
      ↔ ∃ front ∈ choices items, ∃ p ∈ item.toList, choice = front ++ [p] := by
    intro choice
    rw [choices, List.map_append, mem_sections_append]
    simp [choices]
  have hlast : ∀ (front : Choice) (p : Outcome × ℚ),
      kind.best count (Choice.values (front ++ [p]))
        = keepValue kind count (kind.best count front.values) p.1 := by
    intro front p
    rw [keepValue_best, Choice.values, List.map_append]
    exact kind.best_perm count List.perm_append_comm
  simp only [mem_keptLists, hchoices]
  constructor
  · rintro ⟨_, ⟨front, hfront, p, hp, rfl⟩, rfl⟩
    exact ⟨_, ⟨front, hfront, rfl⟩, p.1, mem_of_mem_toList hp, (hlast front p).symm⟩
  · rintro ⟨_, ⟨front, hfront, rfl⟩, v, hv, rfl⟩
    obtain ⟨p, hp, rfl⟩ := exists_of_mem hv
    exact ⟨_, ⟨front, hfront, p, hp, rfl⟩, hlast front p⟩

/-- The partial results are the lists kept of the items seen. -/
def Holds (states : KeepStates ℚ) (lists : Finset (List Outcome)) : Prop :=
  ∀ kept, kept ∈ states ↔ kept ∈ lists

theorem Holds.size_eq {states : KeepStates ℚ} {lists : Finset (List Outcome)}
    (h : Holds states lists) : states.size = lists.card := by
  have hkeys : states.keys.toFinset = lists := by
    ext kept
    rw [List.mem_toFinset, Std.TreeMap.mem_keys, h kept]
  rw [← hkeys, List.toFinset_card_of_nodup Std.TreeMap.nodup_keys, Std.TreeMap.length_keys]

theorem holds_start (kind : KeepKind) (count : ℕ) :
    Holds (Std.TreeMap.empty.insert [] 1) (keptLists kind count []) := by
  intro kept
  rw [keptLists_nil, Finset.mem_singleton, Std.TreeMap.mem_insert, Std.compare_eq_iff_eq]
  simp [eq_comm]

/-! ## 3. The bound -/

variable {states : KeepStates ℚ}

theorem holds_keepItem {next : KeepStates ℚ} (hs : Holds states (keptLists kind count items))
    (h : keepItem kind count states item = .ok next) :
    Holds next (keptLists kind count (items ++ [item])) := by
  intro kept
  rw [(mem_keepItem h).2, mem_keptLists_append]
  simp only [hs _]

/-- All partial results after an item, however many there are. -/
def keepUnbounded (kind : KeepKind) (count : ℕ) (item : List (Outcome × ℚ))
    (l : List (List Outcome × ℚ)) (start : KeepStates ℚ) : KeepStates ℚ :=
  l.foldl (fun next p => keepEach kind count item next p.1 p.2) start

theorem mem_keepUnbounded {item : List (Outcome × ℚ)} {l : List (List Outcome × ℚ)}
    {start : KeepStates ℚ} {result : List Outcome} :
    result ∈ keepUnbounded kind count item l start
      ↔ result ∈ start ∨ ∃ p ∈ l, ∃ q ∈ item, keepValue kind count p.1 q.1 = result := by
  induction l generalizing start with
  | nil => simp [keepUnbounded]
  | cons p l ih =>
    have hstep : keepUnbounded kind count item (p :: l) start
        = keepUnbounded kind count item l (keepEach kind count item start p.1 p.2) := rfl
    rw [hstep, ih, mem_keepEach, List.exists_mem_cons_iff, or_assoc]

/-- An item can be taken in as long as there are not too many partial results in the end. -/
theorem succeeds_keepItem (hs : Holds states (keptLists kind count items))
    (hfew : (keptLists kind count (items ++ [item])).card ≤ greatestKeepStates) :
    Succeeds (keepItem kind count states item) := by
  have hall : Holds (keepUnbounded kind count item.toList states.toList ∅)
      (keptLists kind count (items ++ [item])) := by
    intro kept
    rw [mem_keepUnbounded, mem_keptLists_append]
    constructor
    · rintro (hempty | ⟨p, hp, q, hq, rfl⟩)
      · exact absurd hempty Std.TreeMap.not_mem_emptyc
      · exact ⟨p.1, (hs _).1 (mem_of_mem_toList hp), q.1, mem_of_mem_toList hq, rfl⟩
    · rintro ⟨before, hbefore, v, hv, rfl⟩
      obtain ⟨p, hp, rfl⟩ := exists_of_mem ((hs _).2 hbefore)
      obtain ⟨q, hq, rfl⟩ := exists_of_mem hv
      exact .inr ⟨p, hp, q, hq, rfl⟩
  rw [keepItem_eq_keepStep]
  refine succeeds_keepSteps (hall.size_eq.trans_le hfew)
    (fun kept hkept => absurd hkept Std.TreeMap.not_mem_emptyc) fun p hp q hq => ?_
  exact mem_keepUnbounded.2 (.inr ⟨p, hp, q, hq, rfl⟩)

/-- Nothing but the bound on partial results can stop the computation before the sums. -/
theorem error_keepSteps {item : List (Outcome × ℚ)} {l : List (List Outcome × ℚ)}
    {start : KeepStates ℚ} {e : Exceeded}
    (h : l.foldlM (keepStep kind count item) start = .error e) : e = .keepStates := by
  obtain ⟨p, -, next, hstep⟩ := exists_error_of_foldlM h
  dsimp only [keepStep] at hstep
  split at hstep
  · cases hstep
    rfl
  · cases hstep

/-- **Taking in items fails exactly when some of them, from the first one on, have too many kept
lists.** -/
theorem error_keepItems_iff {seen : List (Distribution ℚ)}
    (hs : Holds states (keptLists kind count seen))
    (hseen : (keptLists kind count seen).card ≤ greatestKeepStates) {e : Exceeded} :
    items.foldlM (keepItem kind count) states = .error e
      ↔ e = .keepStates
        ∧ ∃ n, greatestKeepStates < (keptLists kind count (seen ++ items.take n)).card := by
  induction items generalizing seen states with
  | nil =>
    constructor
    · intro h
      cases h
    · rintro ⟨-, n, hmany⟩
      rw [List.take_nil, List.append_nil] at hmany
      exact absurd hmany (not_lt.2 hseen)
  | cons item items ih =>
    rw [List.foldlM_cons]
    cases hitem : keepItem kind count states item with
    | error e' =>
      have hmany : greatestKeepStates < (keptLists kind count (seen ++ [item])).card := by
        by_contra hfew
        obtain ⟨next, hnext⟩ := succeeds_keepItem hs (not_lt.1 hfew)
        rw [hitem] at hnext
        cases hnext
      obtain rfl := error_keepSteps (keepItem_eq_keepStep .. ▸ hitem)
      constructor
      · intro h
        cases h
        exact ⟨rfl, 1, by simpa using hmany⟩
      · rintro ⟨rfl, -⟩
        rfl
    | ok next =>
      have hnext := holds_keepItem hs hitem
      have hfew := hnext.size_eq ▸ (mem_keepItem hitem).1
      refine (ih hnext hfew).trans (and_congr_right fun _ => ?_)
      constructor
      · rintro ⟨n, hmany⟩
        exact ⟨n + 1, by simpa using hmany⟩
      · rintro ⟨n, hmany⟩
        cases n with
        | zero => exact absurd hmany (not_lt.2 (by simpa using hseen))
        | succ n => exact ⟨n, by simpa using hmany⟩

/-! ## 4. Any order -/

/-- In which order partial results are gone through: for each item, and at last for the sums. -/
abbrev KeepOrder := ℕ → KeepStates ℚ → List (List Outcome × ℚ)

/-- Every partial result is gone through once. -/
def KeepOrder.Complete (order : KeepOrder) : Prop := ∀ n states, (order n states).Perm states.toList

/-- Takes in items, the `n`-th one first, in some order of partial results. -/
def keepItemsIn (order : KeepOrder) (kind : KeepKind) (count : ℕ) :
    ℕ → List (Distribution ℚ) → KeepStates ℚ → Except Exceeded (KeepStates ℚ)
  | _, [], states => .ok states
  | n, item :: items, states => do
    let next ← (order n states).foldlM (keepStep kind count item.toList) ∅
    keepItemsIn order kind count (n + 1) items next

/-- Adds the sum of one partial result. -/
def addKept (out : Distribution ℚ) (p : List Outcome × ℚ) : Except Exceeded (Distribution ℚ) :=
  (sumKept? p.1).elim (.error .value) fun sum => .ok (out.add sum p.2)

/-- `keep`, with partial results gone through in some order. -/
def keepIn (order : KeepOrder) (items : List (Distribution ℚ)) (count : ℕ) (kind : KeepKind) :
    Except Exceeded (Distribution ℚ) :=
  if items.length ≤ count then items.foldlM convolve (point 0 1)
  else do
    let states ← keepItemsIn order kind count 0 items (Std.TreeMap.empty.insert [] 1)
    (order items.length states).foldlM addKept empty

theorem ofKeepStates_eq (states : KeepStates ℚ) :
    ofKeepStates states = states.toList.foldlM addKept empty := by
  refine congrArg (fun step => states.toList.foldlM step empty) (funext₂ fun out p => ?_)
  obtain ⟨kept, weight⟩ := p
  dsimp only [addKept]
  cases sumKept? kept <;> rfl

theorem toList_eq_of_tableSum {t t' : KeepStates ℚ} (hmem : ∀ kept, kept ∈ t ↔ kept ∈ t')
    (hsum : ∀ f, tableSum t f = tableSum t' f) : t.toList = t'.toList := by
  refine Std.TreeMap.Equiv.toList_eq (Std.TreeMap.Equiv.of_forall_constGet?_eq fun kept => ?_)
  have hweight : t.getD kept 0 = t'.getD kept 0 := by
    rw [← tableSum_indicator, ← tableSum_indicator, hsum]
  rw [Std.TreeMap.getD_eq_getD_getElem?, Std.TreeMap.getD_eq_getD_getElem?] at hweight
  have hstored := hmem kept
  rw [← Std.TreeMap.isSome_getElem?_iff_mem, ← Std.TreeMap.isSome_getElem?_iff_mem] at hstored
  cases ht : t[kept]? <;> cases ht' : t'[kept]? <;> simp_all

section Steps

variable {l l' : List (List Outcome × ℚ)} {next next' : KeepStates ℚ}

theorem tableSum_keepSteps (h : l.foldlM (keepStep kind count item.toList) ∅ = .ok next)
    (f : List Outcome → ℚ) : tableSum next f
      = (l.map fun p => p.2 * item.sumOver fun v => f (keepValue kind count p.1 v)).sum := by
  have hs := foldlM_measure _ (fun states => tableSum states f)
    (fun p : List Outcome × ℚ =>
      p.2 * (item.toList.map fun q => q.2 * f (keepValue kind count p.1 q.1)).sum) l h ?_
  · rwa [tableSum_empty, zero_add] at hs
  · rintro next next' p - hstep
    rw [← keepItem_step hstep, tableSum_keepEach]

/-- One item after the same partial results in another order. -/
theorem keepSteps_perm (hl : l.Perm l')
    (h : l.foldlM (keepStep kind count item.toList) ∅ = .ok next) :
    ∃ next', l'.foldlM (keepStep kind count item.toList) ∅ = .ok next'
      ∧ next'.toList = next.toList := by
  obtain ⟨hsize, hmem⟩ := mem_keepSteps h (Nat.zero_le _)
  obtain ⟨next', h'⟩ : Succeeds (l'.foldlM (keepStep kind count item.toList) ∅) :=
    succeeds_keepSteps hsize (fun kept hkept => absurd hkept Std.TreeMap.not_mem_emptyc)
      fun p hp q hq => (hmem _).2 (.inr ⟨p, hl.mem_iff.2 hp, q, hq, rfl⟩)
  refine ⟨next', h', toList_eq_of_tableSum (fun kept => ?_) fun f => ?_⟩
  · rw [hmem, (mem_keepSteps h' (Nat.zero_le _)).2]
    simp only [hl.mem_iff]
  · rw [tableSum_keepSteps h, tableSum_keepSteps h', (hl.map _).sum_eq]

theorem map_keepSteps_perm (hl : l.Perm l') :
    (l.foldlM (keepStep kind count item.toList) ∅).map Std.TreeMap.toList
      = (l'.foldlM (keepStep kind count item.toList) ∅).map Std.TreeMap.toList := by
  cases h : l.foldlM (keepStep kind count item.toList) ∅ with
  | ok next =>
    obtain ⟨next', h', hsame⟩ := keepSteps_perm hl h
    rw [h']
    exact congrArg Except.ok hsame.symm
  | error e =>
    cases h' : l'.foldlM (keepStep kind count item.toList) ∅ with
    | ok next' =>
      obtain ⟨next, hnext, -⟩ := keepSteps_perm hl.symm h'
      rw [h] at hnext
      cases hnext
    | error e' => rw [error_keepSteps h, error_keepSteps h']

theorem succeeds_addKept {out : Distribution ℚ} :
    Succeeds (l.foldlM addKept out) ↔ ∀ p ∈ l, (sumKept? p.1).isSome :=
  succeeds_foldlM _ _ l out fun out p _ => by
    unfold addKept
    cases sumKept? p.1 <;> simp [Succeeds]

theorem error_addKept {out : Distribution ℚ} {e : Exceeded}
    (h : l.foldlM addKept out = .error e) : e = .value := by
  obtain ⟨p, -, next, hstep⟩ := exists_error_of_foldlM h
  rw [addKept] at hstep
  cases hsum : sumKept? p.1 with
  | none =>
    rw [hsum] at hstep
    cases hstep
    rfl
  | some sum =>
    rw [hsum] at hstep
    cases hstep

theorem sumOver_addKept {d : Distribution ℚ} (hl : ∀ p ∈ l, 0 ≤ p.2)
    (h : l.foldlM addKept empty = .ok d) : d.Positive ∧ ∀ f : Outcome → ℚ, d.sumOver f
      = (l.map fun p => p.2 * (sumKept? p.1).elim 0 f).sum := by
  have hstep : ∀ {out next : Distribution ℚ} {p : List Outcome × ℚ}, addKept out p = .ok next →
      ∃ sum, sumKept? p.1 = some sum ∧ next = out.add sum p.2 := by
    intro out next p h
    unfold addKept at h
    cases hsum : sumKept? p.1 with
    | none =>
      rw [hsum] at h
      cases h
    | some sum =>
      rw [hsum] at h
      cases h
      exact ⟨sum, rfl, rfl⟩
  refine ⟨foldlM_invariant _ Positive l h positive_empty fun out next p _ hout hnext => ?_,
    fun f => ?_⟩
  · obtain ⟨sum, -, rfl⟩ := hstep hnext
    exact hout.add sum _
  · have hs := foldlM_measure _ (fun d => d.sumOver f)
      (fun p : List Outcome × ℚ => p.2 * (sumKept? p.1).elim 0 f) l h fun out next p hp hnext => by
        obtain ⟨sum, hsum, rfl⟩ := hstep hnext
        rw [sumOver_add (hl p hp), hsum]
        rfl
    rwa [sumOver_empty, zero_add] at hs

theorem map_addKept_perm (hl : l.Perm l') (hnonneg : ∀ p ∈ l, 0 ≤ p.2) :
    (l.foldlM addKept empty).map toList = (l'.foldlM addKept empty).map toList := by
  have hsucceeds : Succeeds (l.foldlM addKept empty) ↔ Succeeds (l'.foldlM addKept empty) := by
    simp only [succeeds_addKept, hl.mem_iff]
  cases h : l.foldlM addKept empty with
  | ok d =>
    obtain ⟨d', h'⟩ := hsucceeds.1 ⟨d, h⟩
    obtain ⟨hd, hsum⟩ := sumOver_addKept hnonneg h
    obtain ⟨hd', hsum'⟩ := sumOver_addKept (fun p hp => hnonneg p (hl.mem_iff.2 hp)) h'
    rw [h']
    refine congrArg Except.ok (toList_eq_of_weightOf hd hd' fun v => ?_)
    rw [weightOf_eq_sumOver, weightOf_eq_sumOver, hsum, hsum', (hl.map _).sum_eq]
  | error e =>
    cases h' : l'.foldlM addKept empty with
    | ok d' =>
      obtain ⟨d, hd⟩ := hsucceeds.2 ⟨d', h'⟩
      rw [h] at hd
      cases hd
    | error e' => rw [error_addKept h, error_addKept h']

end Steps

theorem map_keepItemsIn {order : KeepOrder} (horder : order.Complete) (n : ℕ)
    {states states' : KeepStates ℚ} (hs : states.toList = states'.toList) :
    (keepItemsIn order kind count n items states).map Std.TreeMap.toList
      = (items.foldlM (keepItem kind count) states').map Std.TreeMap.toList := by
  induction items generalizing n states states' with
  | nil => exact congrArg Except.ok hs
  | cons item items ih =>
    rw [keepItemsIn, List.foldlM_cons]
    refine map_bind_congr ?_ fun next next' _ _ hnext => ih (n + 1) hnext
    rw [keepItem_eq_keepStep]
    exact map_keepSteps_perm ((horder n states).trans (List.Perm.of_eq hs))

/-- **No order of partial results makes a difference**, to the result or to an error. -/
theorem toList_keepIn {order : KeepOrder} (horder : order.Complete) (hi : ∀ d ∈ items, d.Nonneg) :
    (keepIn order items count kind).map toList = (keep items count kind).map toList := by
  unfold keepIn keep
  split
  · rfl
  refine map_bind_congr (map_keepItemsIn horder 0 rfl) fun states states' _ h' hsame => ?_
  have hnonneg := (tableSum_keepItems (nonnegTable_empty.insert [] zero_le_one) hi h').1
  have hperm := (horder items.length states).trans (List.Perm.of_eq hsame)
  have hsums := map_addKept_perm hperm.symm fun p hp => hnonneg.mem hp
  rw [hsums.symm, ← ofKeepStates_eq]
  cases ofKeepStates states' <;> rfl

/-! ## 5. Keeping -/

/-- Where not everything is kept, too many kept lists are the only way to have too many partial
results. -/
theorem error_keep_iff (hlt : count < items.length) :
    keep items count kind = .error .keepStates
      ↔ ∃ n, greatestKeepStates < (keptLists kind count (items.take n)).card := by
  have hstart : (keptLists kind count []).card ≤ greatestKeepStates := by
    rw [keptLists_nil]
    decide
  have herror : items.foldlM (keepItem kind count) (Std.TreeMap.empty.insert [] 1)
        = .error .keepStates ↔ _ :=
    error_keepItems_iff (holds_start kind count) hstart
  simp only [true_and, List.nil_append] at herror
  rw [← herror, keep, if_neg (not_le.2 hlt)]
  cases hstates : items.foldlM (keepItem kind count) (Std.TreeMap.empty.insert [] 1) with
  | error e => exact ⟨fun h => by cases h; rfl, fun h => by cases h; rfl⟩
  | ok states =>
    -- adding up the kept lists fails in another way
    refine iff_of_false (fun h => ?_) fun h => by cases h
    have hsums : (ofKeepStates states >>= checkWeights) = .error .keepStates := h
    cases hd : ofKeepStates states with
    | ok d =>
      rw [hd] at hsums
      cases hsums
    | error e =>
      obtain rfl := error_addKept (ofKeepStates_eq states ▸ hd)
      rw [hd] at hsums
      cases hsums

/-- **Keeping agrees with full enumeration.**  A result gives each value the weight of the choices
whose highest or lowest outcomes add up to it, in whatever order the items come.  Where not
everything is kept, there are too many partial results exactly when some items, from the first one
on, have too many kept lists.  The order in which partial results are gone through changes
nothing. -/
theorem keep_enumerates (hi : ∀ d ∈ items, d.Positive) (count : ℕ) (kind : KeepKind) :
    (∀ r, keep items count kind = .ok r → ∀ v, r.weightOf v
        = choiceWeight items fun vs => exactSum (kind.best count vs) = v.hundredths)
      ∧ (∀ items' r r', items.Perm items' → keep items count kind = .ok r →
        keep items' count kind = .ok r' → r.toList = r'.toList)
      ∧ (count < items.length → (keep items count kind = .error .keepStates
        ↔ ∃ n, greatestKeepStates < (keptLists kind count (items.take n)).card))
      ∧ ∀ order : KeepOrder, order.Complete →
        (keepIn order items count kind).map toList = (keep items count kind).map toList := by
  have hnonneg : ∀ d ∈ items, d.Nonneg := fun d hd => (hi d hd).nonneg
  refine ⟨fun r hr => weightOf_keep hnonneg hr, fun items' r r' hperm hr hr' => ?_, error_keep_iff,
    fun order horder => toList_keepIn horder hnonneg⟩
  refine toList_eq_of_weightOf (positive_keep hr) (positive_keep hr') fun v => ?_
  rw [weightOf_keep hnonneg hr, weightOf_keep (fun d hd => hnonneg d (hperm.mem_iff.2 hd)) hr',
    choiceWeight_best_perm hperm]

/-- A die, a bonus of `3` in one of three cases, and another die. -/
def diceAndBonus : List (Distribution ℚ) :=
  [uniform 2, ofList [(0, 2), (Outcome.ofInt 3, 1)], uniform 3]

theorem keep_enumerates_diceAndBonus :
    (∀ d ∈ diceAndBonus, d.Positive) ∧ 2 < diceAndBonus.length
      ∧ KeepOrder.Complete (fun _ states => states.toList.reverse)
      ∧ ∃ r, keep diceAndBonus 2 .highest = .ok r ∧ r.weightOf (Outcome.ofInt 5) = 5
        ∧ (∀ r', keep diceAndBonus.reverse 2 .highest = .ok r' → r.toList = r'.toList)
        ∧ (∀ n, (keptLists .highest 2 (diceAndBonus.take n)).card ≤ greatestKeepStates)
        ∧ (keepIn (fun _ states => states.toList.reverse) diceAndBonus 2 .highest).map toList
          = .ok r.toList := by
  have hpos : ∀ d ∈ diceAndBonus, d.Positive := by
    intro d hd
    simp only [diceAndBonus, List.mem_cons, List.not_mem_nil, or_false] at hd
    rcases hd with rfl | rfl | rfl <;> exact positive_ofList _
  have hcomplete : KeepOrder.Complete fun _ states => states.toList.reverse :=
    fun _ states => List.reverse_perm _
  obtain ⟨hweight, hperm, hfew, horder⟩ := keep_enumerates hpos 2 .highest
  have hok : (keep diceAndBonus 2 .highest).isOk = true := by decide +kernel
  cases hr : keep diceAndBonus 2 .highest with
  | error e => rw [hr] at hok; cases hok
  | ok r =>
    refine ⟨hpos, by decide, hcomplete, r, rfl, ?_, ?_, ?_, ?_⟩
    · rw [hweight r hr]
      decide +kernel
    · exact fun r' hr' => hperm _ r r' (List.reverse_perm _).symm hr hr'
    · intro n
      by_contra hmany
      have herror := (hfew (by decide)).2 ⟨n, not_le.1 hmany⟩
      rw [hr] at herror
      cases herror
    · rw [horder _ hcomplete, hr]
      rfl

end Distribution

end DiceOdds
