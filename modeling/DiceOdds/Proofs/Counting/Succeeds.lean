import DiceOdds.Proofs.Counting.Results

/-!
# Fewer outcomes, fewer errors

What can go wrong with a distribution goes wrong with one of its outcomes: a sum or a quotient
leaves the grid, or too many partial results are kept.  So a computation that succeeds with many
outcomes succeeds with some of them.

## Why the results are compared as well

Most computations take several steps, and the second one starts from the results of the first.  So
each lemma says two things: the computation with fewer outcomes succeeds, and its result has fewer
outcomes than the other one.  `Below` says the latter in terms of weights, which determine the
stored outcomes as long as these have positive weights.
-/

namespace DiceOdds

/-! ## 1. Fewer outcomes -/

namespace Distribution

/-- The outcomes of `x` are among those of `y`, with at most the same weights. -/
structure Fewer (x y : Distribution ℚ) : Prop where
  below : x.Below y
  positive : x.Positive

variable {x x' y y' : Distribution ℚ}

theorem Positive.fewer_refl (h : x.Positive) : x.Fewer x := ⟨.refl h.nonneg, h⟩

theorem Fewer.mem (h : x.Fewer y) {v : Outcome} (hv : v ∈ x.weights) : v ∈ y.weights := by
  obtain ⟨p, hp, rfl⟩ := exists_of_mem hv
  have hle := h.below.weightOf_le p.1
  have hweight : x.weightOf p.1 = p.2 := by
    rw [weightOf, Std.TreeMap.getD_eq_getD_getElem?,
      Std.TreeMap.mem_toList_iff_getElem?_eq_some.1 hp, Option.getD_some]
  by_contra hnone
  rw [hweight, weightOf, Std.TreeMap.getD_eq_fallback hnone] at hle
  exact absurd hle (not_le.2 (h.positive p hp))

/-! ## 2. Values and sums -/

/-- Combining succeeds as the operation does on all pairs of outcomes. -/
theorem succeeds_combine_toList {W ε : Type} [Weight W] {x y : Distribution W}
    {op : Outcome → Outcome → Except ε Outcome} :
    Succeeds (x.combine y op) ↔ ∀ p ∈ x.toList, ∀ q ∈ y.toList, Succeeds (op p.1 q.1) := by
  have hrow : ∀ (out : Distribution W) (p : Outcome × W), Succeeds (y.toList.foldlM (fun out q => do
      return out.add (← op p.1 q.1) (p.2 * q.2)) out) ↔ ∀ q ∈ y.toList, Succeeds (op p.1 q.1) :=
    fun out p => succeeds_foldlM _ _ _ out fun out q _ => by
      rw [succeeds_bind]
      exact exists_congr fun c => and_iff_left (succeeds_pure _)
  exact succeeds_foldlM _ _ x.toList (empty : Distribution W) fun out p _ => hrow out p

theorem succeeds_combine {ε : Type} {op : Outcome → Outcome → Except ε Outcome} :
    Succeeds (x.combine y op) ↔ ∀ a ∈ x.weights, ∀ b ∈ y.weights, Succeeds (op a b) := by
  rw [succeeds_combine_toList]
  refine ⟨fun h a ha b hb => ?_, fun h p hp q hq =>
    h p.1 (mem_of_mem_toList hp) q.1 (mem_of_mem_toList hq)⟩
  obtain ⟨p, hp, rfl⟩ := exists_of_mem ha
  obtain ⟨q, hq, rfl⟩ := exists_of_mem hb
  exact h p hp q hq

/-- Combining fewer values, by operations that fail for the same values. -/
theorem Fewer.combine {ε : Type} {op op' : Outcome → Outcome → Except ε Outcome}
    {value? : Outcome → Outcome → Option Outcome} {z' : Distribution ℚ} (hx : x.Fewer x')
    (hy : y.Fewer y') (hop : ∀ a b c, op a b = .ok c → value? a b = some c)
    (hop' : ∀ a b c, op' a b = .ok c → value? a b = some c)
    (hvalue : ∀ a b c, value? a b = some c → Succeeds (op a b)) (h : x'.combine y' op' = .ok z') :
    ∃ z, x.combine y op = .ok z ∧ z.Fewer z' := by
  have hsucceeds : Succeeds (x.combine y op) := succeeds_combine.2 fun a ha b hb => by
    obtain ⟨c, hc⟩ := succeeds_combine.1 ⟨z', h⟩ a (hx.mem ha) b (hy.mem hb)
    exact hvalue a b c (hop' a b c hc)
  obtain ⟨z, hz⟩ := hsucceeds
  exact ⟨z, hz, hx.below.combine hy.below hop hop' hz h, positive_combine hz⟩

theorem Fewer.convolve {z' : Distribution ℚ} (hx : x.Fewer x') (hy : y.Fewer y')
    (h : x'.convolve y' = .ok z') : ∃ z, x.convolve y = .ok z ∧ z.Fewer z' := by
  rw [convolve_eq] at h ⊢
  exact hx.combine hy (fun _ _ _ => add?_eq_ok.1) (fun _ _ _ => add?_eq_ok.1)
    (fun _ _ c hc => ⟨c, add?_eq_ok.2 hc⟩) h

theorem Fewer.addCopies (n : ℕ) {r' : Distribution ℚ} (hx : x.Fewer x') (hy : y.Fewer y')
    (h : addCopies x' y' n = .ok r') : ∃ r, addCopies x y n = .ok r ∧ r.Fewer r' := by
  induction n using Nat.strong_induction_on generalizing x x' y y' with
  | _ n ih =>
  rcases eq_or_ne n 0 with rfl | hn
  · rw [Distribution.addCopies, dif_pos rfl] at h ⊢
    obtain rfl := pure_eq_ok.1 h
    exact ⟨x, rfl, hx⟩
  rw [addCopies_digit _ _ hn] at h ⊢
  obtain ⟨odd', hodd', h⟩ := bind_eq_ok.1 h
  obtain ⟨odd, hodd, hfewer⟩ : ∃ odd, (if n % 2 = 1 then x.convolve y else .ok x) = .ok odd
      ∧ odd.Fewer odd' := by
    split at hodd'
    · next hdigit => simpa [hdigit] using hx.convolve hy hodd'
    · next hdigit =>
      cases hodd'
      exact ⟨x, if_neg hdigit, hx⟩
  rw [hodd]
  split at h
  · next hlast =>
    obtain rfl := pure_eq_ok.1 h
    exact ⟨odd, if_pos hlast, hfewer⟩
  · next hmore =>
    obtain ⟨twice', htwice', h⟩ := bind_eq_ok.1 h
    obtain ⟨twice, htwice, htwo⟩ := hy.convolve hy htwice'
    obtain ⟨r, hr, hle⟩ := ih (n / 2) (by omega) hfewer htwo h
    exact ⟨r, by simpa [hmore, htwice] using hr, hle⟩

theorem Fewer.sumOfCopies {n : ℕ} {r' : Distribution ℚ} (h : x.Fewer y)
    (hr : y.sumOfCopies n = .ok r') : ∃ r, x.sumOfCopies n = .ok r ∧ r.Fewer r' :=
  Fewer.addCopies n (positive_point 0).fewer_refl h hr

theorem Fewer.map (h : x.Fewer y) (m : Outcome → Outcome) : (x.map m).Fewer (y.map m) :=
  ⟨h.below.map m, positive_map x m⟩

/-! ## 3. Keeping -/

theorem size_le_of_mem {t t' : KeepStates ℚ} (h : ∀ kept ∈ t, kept ∈ t') : t.size ≤ t'.size := by
  rw [← Std.TreeMap.length_keys, ← Std.TreeMap.length_keys]
  refine (List.subperm_of_subset Std.TreeMap.nodup_keys fun kept hkept => ?_).length_le
  exact Std.TreeMap.mem_keys.2 (h kept (Std.TreeMap.mem_keys.1 hkept))

/-- The partial results after one item and one partial result before it. -/
theorem mem_keepEach {kind : KeepKind} {count : ℕ} {item : List (Outcome × ℚ)}
    {states : KeepStates ℚ} {kept result : List Outcome} {weight : ℚ} :
    result ∈ keepEach kind count item states kept weight
      ↔ result ∈ states ∨ ∃ q ∈ item, keepValue kind count kept q.1 = result := by
  induction item generalizing states with
  | nil => simp [keepEach]
  | cons q item ih =>
    have hstep : keepEach kind count (q :: item) states kept weight
        = keepEach kind count item (states.alter (keepValue kind count kept q.1)
            fun old => some (old.getD 0 + weight * q.2)) kept weight := rfl
    rw [hstep, ih, Std.TreeMap.mem_alter, List.exists_mem_cons_iff]
    by_cases heq : keepValue kind count kept q.1 = result
    · simp [heq]
    · simp [heq]

/-- One partial result after which an item is taken in. -/
def keepStep (kind : KeepKind) (count : ℕ) (item : List (Outcome × ℚ)) (next : KeepStates ℚ)
    (p : List Outcome × ℚ) : Except Exceeded (KeepStates ℚ) :=
  let next := keepEach kind count item next p.1 p.2
  if greatestKeepStates < next.size then .error .keepStates else .ok next

theorem keepItem_eq_keepStep (kind : KeepKind) (count : ℕ) (states : KeepStates ℚ)
    (item : Distribution ℚ) : keepItem kind count states item
      = states.toList.foldlM (keepStep kind count item.toList) ∅ := rfl

section KeepItem

variable {kind : KeepKind} {count : ℕ} {item item' : Distribution ℚ}

theorem mem_keepSteps {l : List (List Outcome × ℚ)} {start next : KeepStates ℚ}
    (h : l.foldlM (keepStep kind count item.toList) start = .ok next)
    (hstart : start.size ≤ greatestKeepStates) :
    next.size ≤ greatestKeepStates ∧ ∀ result, result ∈ next ↔ result ∈ start
      ∨ ∃ p ∈ l, ∃ q ∈ item.toList, keepValue kind count p.1 q.1 = result := by
  induction l generalizing start with
  | nil =>
    obtain rfl : start = next := pure_eq_ok.1 h
    exact ⟨hstart, by simp⟩
  | cons p l ih =>
    rw [List.foldlM_cons, bind_eq_ok] at h
    obtain ⟨grown, hgrown, h⟩ := h
    dsimp only [keepStep] at hgrown
    split at hgrown
    · cases hgrown
    · next hsize =>
      obtain rfl := Except.ok.inj hgrown
      obtain ⟨hle, hmem⟩ := ih h (not_lt.1 hsize)
      refine ⟨hle, fun result => ?_⟩
      rw [hmem, mem_keepEach, List.exists_mem_cons_iff, or_assoc]

/-- What comes out of all partial results and one item. -/
theorem mem_keepItem {states next : KeepStates ℚ} (h : keepItem kind count states item = .ok next) :
    next.size ≤ greatestKeepStates ∧ ∀ result, result ∈ next
      ↔ ∃ kept ∈ states, ∃ v ∈ item.weights, keepValue kind count kept v = result := by
  obtain ⟨hle, hmem⟩ := mem_keepSteps (keepItem_eq_keepStep .. ▸ h) (Nat.zero_le _)
  refine ⟨hle, fun result => (hmem result).trans ?_⟩
  constructor
  · rintro (hempty | ⟨p, hp, q, hq, rfl⟩)
    · exact absurd hempty Std.TreeMap.not_mem_emptyc
    · exact ⟨p.1, mem_of_mem_toList hp, q.1, mem_of_mem_toList hq, rfl⟩
  · rintro ⟨kept, hkept, v, hv, rfl⟩
    obtain ⟨p, hp, rfl⟩ := exists_of_mem hkept
    obtain ⟨q, hq, rfl⟩ := exists_of_mem hv
    exact .inr ⟨p, hp, q, hq, rfl⟩

theorem succeeds_keepSteps {bound : KeepStates ℚ} (hbound : bound.size ≤ greatestKeepStates)
    {l : List (List Outcome × ℚ)} {start : KeepStates ℚ} (hstart : ∀ kept ∈ start, kept ∈ bound)
    (h : ∀ p ∈ l, ∀ q ∈ item.toList, keepValue kind count p.1 q.1 ∈ bound) :
    Succeeds (l.foldlM (keepStep kind count item.toList) start) := by
  induction l generalizing start with
  | nil => exact ⟨start, rfl⟩
  | cons p l ih =>
    obtain ⟨hp, hl⟩ := List.forall_mem_cons.1 h
    have hgrown : ∀ kept ∈ keepEach kind count item.toList start p.1 p.2, kept ∈ bound := by
      intro kept hkept
      rcases mem_keepEach.1 hkept with hkept | ⟨q, hq, rfl⟩
      · exact hstart kept hkept
      · exact hp q hq
    rw [List.foldlM_cons, succeeds_bind]
    exact ⟨_, if_neg (not_lt.2 ((size_le_of_mem hgrown).trans hbound)), ih hgrown hl⟩

/-- Fewer partial results and a value with fewer outcomes. -/
theorem Fewer.keepItem {states states' next' : KeepStates ℚ}
    (hstates : ∀ kept ∈ states, kept ∈ states') (hitem : item.Fewer item')
    (h : Distribution.keepItem kind count states' item' = .ok next') :
    ∃ next, Distribution.keepItem kind count states item = .ok next
      ∧ ∀ kept ∈ next, kept ∈ next' := by
  obtain ⟨hle, hmem'⟩ := mem_keepItem h
  obtain ⟨next, hnext⟩ : Succeeds (Distribution.keepItem kind count states item) :=
    succeeds_keepSteps hle (fun kept hkept => absurd hkept Std.TreeMap.not_mem_emptyc)
      fun p hp q hq => (hmem' _).2 ⟨p.1, hstates p.1 (mem_of_mem_toList hp), q.1,
        hitem.mem (mem_of_mem_toList hq), rfl⟩
  refine ⟨next, hnext, fun result hresult => ?_⟩
  obtain ⟨kept, hkept, v, hv, rfl⟩ := ((mem_keepItem hnext).2 result).1 hresult
  exact (hmem' _).2 ⟨kept, hstates kept hkept, v, hitem.mem hv, rfl⟩

end KeepItem

/-- The same for one item after the other. -/
theorem Fewer.keepItems {kind : KeepKind} {count : ℕ} {ds es : List (Distribution ℚ)}
    {states states' final' : KeepStates ℚ} (h : List.Forall₂ Fewer ds es)
    (hstates : ∀ kept ∈ states, kept ∈ states')
    (hfinal : es.foldlM (Distribution.keepItem kind count) states' = .ok final') :
    ∃ final, ds.foldlM (Distribution.keepItem kind count) states = .ok final
      ∧ ∀ kept ∈ final, kept ∈ final' := by
  induction h generalizing states states' with
  | nil =>
    obtain rfl := pure_eq_ok.1 hfinal
    exact ⟨states, rfl, hstates⟩
  | cons hitem _ ih =>
    rw [List.foldlM_cons, bind_eq_ok] at hfinal
    obtain ⟨next', hnext', hfinal⟩ := hfinal
    obtain ⟨next, hnext, hmem⟩ := Fewer.keepItem hstates hitem hnext'
    obtain ⟨final, hlast, hmem⟩ := ih hmem hfinal
    exact ⟨final, by rw [List.foldlM_cons, hnext]; exact hlast, hmem⟩

theorem Fewer.convolveAll {ds es : List (Distribution ℚ)} (h : List.Forall₂ Fewer ds es)
    {r' : Distribution ℚ} (hx : x.Fewer x') (hr : es.foldlM Distribution.convolve x' = .ok r') :
    Succeeds (ds.foldlM Distribution.convolve x) := by
  induction h generalizing x x' with
  | nil => exact ⟨x, rfl⟩
  | cons hitem _ ih =>
    rw [List.foldlM_cons, bind_eq_ok] at hr
    obtain ⟨sum', hsum', hr⟩ := hr
    obtain ⟨sum, hsum, hfewer⟩ := hx.convolve hitem hsum'
    rw [List.foldlM_cons, hsum]
    exact ih hfewer hr

theorem succeeds_ofKeepStates {states : KeepStates ℚ} :
    Succeeds (ofKeepStates states) ↔ ∀ kept ∈ states, (sumKept? kept).isSome := by
  unfold ofKeepStates
  rw [succeeds_foldlM _ (fun p : List Outcome × ℚ => (sumKept? p.1).isSome) states.toList
    (empty : Distribution ℚ) fun out p _ => ?_]
  · refine ⟨fun h kept hkept => ?_, fun h p hp => h p.1 (mem_of_mem_toList hp)⟩
    obtain ⟨p, hp, rfl⟩ := exists_of_mem hkept
    exact h p hp
  · dsimp only
    cases sumKept? p.1 <;> simp [Succeeds]

/-- Keeping from values with fewer outcomes. -/
theorem Fewer.keep {ds es : List (Distribution ℚ)} {count : ℕ} {kind : KeepKind}
    {r' : Distribution ℚ} (h : List.Forall₂ Fewer ds es)
    (hr : Distribution.keep es count kind = .ok r') :
    ∃ r, Distribution.keep ds count kind = .ok r ∧ r.Fewer r' := by
  have hsucceeds : Succeeds (Distribution.keep ds count kind) := by
    unfold Distribution.keep at hr ⊢
    rw [h.length_eq]
    split at hr
    · next hall =>
      rw [if_pos hall]
      exact Fewer.convolveAll h (positive_point 0).fewer_refl hr
    · next hsome =>
      rw [if_neg hsome]
      obtain ⟨states', hstates', hr⟩ := bind_eq_ok.1 hr
      obtain ⟨d', hd', -⟩ := bind_eq_ok.1 hr
      obtain ⟨states, hstates, hmem⟩ := Fewer.keepItems h (fun _ hkept => hkept) hstates'
      obtain ⟨d, hd⟩ := succeeds_ofKeepStates.2 fun kept hkept =>
        succeeds_ofKeepStates.1 ⟨d', hd'⟩ kept (hmem kept hkept)
      exact succeeds_bind.2 ⟨states, hstates, succeeds_bind.2 ⟨d, hd, d, rfl⟩⟩
  obtain ⟨r, hr'⟩ := hsucceeds
  exact ⟨r, hr', .keep (h.imp fun _ _ hd => hd.below) hr' hr, positive_keep hr'⟩

/-! ## 4. Dice with fewer faces -/

namespace Chain

variable {c : Chain} {accept : ℕ → Bool}

/-- What follows a face can be added if the face can be added to the level below. -/
theorem succeeds_addFace {level out : Distribution ℚ} {below : ℚ} {face : ℕ} :
    Succeeds (c.addFace level below out face)
      ↔ (c.again face = true → c.keepsFace = true → Succeeds (level.shift (c.value face))) := by
  unfold addFace
  split
  · split
    · next hagain hkeeps =>
      rw [succeeds_bind]
      exact ⟨fun ⟨a, ha, _⟩ _ _ => ⟨a, ha⟩, fun h => (h hagain hkeeps).imp fun a ha => ⟨ha, _, rfl⟩⟩
    · next hkeeps => simp [hkeeps]
  · next hagain => simp [hagain]

theorem succeeds_grow {level : Distribution ℚ} (h : Succeeds (c.grow (fun _ => true) level)) :
    Succeeds (c.grow accept level) := by
  have hall := fun faces : List ℕ => succeeds_foldlM (c.addFace level level.total) _ faces empty
    fun _ _ _ => succeeds_addFace
  obtain ⟨next, hnext, -⟩ := succeeds_bind.1 h
  have hfaces := (hall _).1 ⟨next, hnext⟩
  obtain ⟨next, hnext⟩ := (hall ((faces c.sides).filter accept)).2 fun face hface =>
    hfaces face (by simpa using List.mem_of_mem_filter hface)
  exact succeeds_bind.2 ⟨next, hnext, next, rfl⟩

/-- A chain whose first roll has fewer faces. -/
theorem succeeds_run {limit : ℕ} (h : Succeeds (c.run limit (fun _ => true) :
    Except Exceeded (Distribution ℚ))) :
    Succeeds (c.run limit accept : Except Exceeded (Distribution ℚ)) := by
  unfold run at h ⊢
  split at h
  · next hsides =>
    rw [if_pos hsides]
    unfold single at h ⊢
    rw [if_pos rfl] at h
    split
    · exact h
    · exact succeeds_ok _
  · next hsides =>
    rw [if_neg hsides]
    cases limit with
    | zero => exact succeeds_ok _
    | succ n =>
      obtain ⟨level, hlevel, h⟩ := succeeds_bind.1 h
      exact succeeds_bind.2 ⟨level, hlevel, succeeds_grow h⟩

end Chain

end Distribution

end DiceOdds
