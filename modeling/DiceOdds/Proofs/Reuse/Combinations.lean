import DiceOdds.Proofs.Mixing.Blend
import DiceOdds.Proofs.Reuse.Pinned
import DiceOdds.Proofs.Routes

/-!
# Adding up combinations

All combinations of values of the groups are gone through, and what the formula makes of each is
added up.  A combination stands for the rolls in which every group has its value in it.

## Why no roll is lost or counted twice

The distribution of a group counts its rolls by their value, so the rolls of the group fall into
one part for each value, and a value weighs as much as its part has rolls (`sum_rollsWith`).  The
rolls of all groups fall into one part for each combination (`sum_rollsWithAll`).
-/

namespace DiceOdds

/-! ## 1. Going through all combinations -/

/-- Values with ids from `k` on, put before the fixed values so far. -/
def pinsFrom : ℕ → List Outcome → Pins → Pins
  | _, [], pins => pins
  | k, v :: vs, pins => pinsFrom (k + 1) vs ((k, v) :: pins)

theorem lookup_cons_of_ne {id k : ℕ} (h : id ≠ k) (v : Outcome) (pins : Pins) :
    List.lookup id ((k, v) :: pins) = pins.lookup id := by
  rw [List.lookup_cons, beq_eq_false_iff_ne.2 h]

theorem lookup_pinsFrom {k : ℕ} {vs : List Outcome} {pins : Pins}
    (h : ∀ id, k ≤ id → pins.lookup id = none) (id : ℕ) :
    (pinsFrom k vs pins).lookup id = if id < k then pins.lookup id else vs[id - k]? := by
  induction vs generalizing k pins with
  | nil =>
    rw [pinsFrom]
    split
    · rfl
    · next hid => rw [h id (not_lt.1 hid), List.getElem?_nil]
  | cons v vs ih =>
    have hnext : ∀ id, k + 1 ≤ id → List.lookup id ((k, v) :: pins) = none := by
      intro id hid
      rw [lookup_cons_of_ne (by omega), h id (by omega)]
    rw [pinsFrom, ih hnext]
    rcases lt_trichotomy id k with hlt | rfl | hgt
    · rw [if_pos (by omega), if_pos hlt, lookup_cons_of_ne hlt.ne]
    · rw [if_pos (by omega), if_neg (lt_irrefl _)]
      simp
    · rw [if_neg (by omega), if_neg (by omega), show id - k = id - (k + 1) + 1 by omega,
        List.getElem?_cons_succ]

/-- A step that adds `F` for each combination adds the sum of `F`. -/
theorem forCombinations_measure {σ : Type} (visit : σ → Pins → ℚ → Except EvalError σ)
    (S : σ → ℚ) (F : List (Outcome × ℚ) → ℚ) {ds : List (Distribution ℚ)} {k : ℕ} {pins : Pins}
    {weight : ℚ} {state final : σ}
    (h : forCombinations visit ((List.range' k ds.length).zip ds) pins weight state = .ok final)
    (hvisit : ∀ choice ∈ (ds.map Distribution.toList).sections, ∀ state next,
      visit state (pinsFrom k (choice.map Prod.fst) pins) (weight * (choice.map Prod.snd).prod)
        = .ok next → S next = S state + F choice) :
    S final = S state + ((ds.map Distribution.toList).sections.map F).sum := by
  induction ds generalizing k pins weight state final F with
  | nil =>
    have hstep := hvisit [] (by simp) state final (by
      rw [List.map_nil, List.map_nil, List.prod_nil, mul_one]
      exact h)
    simpa using hstep
  | cons d ds ih =>
    rw [List.map_cons, sum_sections_cons]
    refine foldlM_measure _ S _ d.toList h fun state next p hp hstep => ?_
    refine ih (fun choice => F (p :: choice)) hstep fun choice hchoice state next hnext => ?_
    refine hvisit (p :: choice) ?_ state next ?_
    · rw [List.mem_sections] at hchoice ⊢
      exact .cons hp hchoice
    · rwa [List.map_cons, List.map_cons, List.prod_cons, ← mul_assoc, pinsFrom]

/-- All combinations with their weights, in the order in which they are gone through. -/
def combinations : List (DiceGroup ℚ) → Pins → ℚ → List (Pins × ℚ)
  | [], pins, weight => [(pins, weight)]
  | (id, values) :: rest, pins, weight =>
    values.toList.flatMap fun p => combinations rest ((id, p.1) :: pins) (weight * p.2)

/-- Going through all combinations is one loop over the list of them. -/
theorem forCombinations_eq {σ : Type} (visit : σ → Pins → ℚ → Except EvalError σ)
    (groups : List (DiceGroup ℚ)) (pins : Pins) (weight : ℚ) (state : σ) :
    forCombinations visit groups pins weight state
      = (combinations groups pins weight).foldlM (fun state c => visit state c.1 c.2) state := by
  induction groups generalizing pins weight state with
  | nil => exact (bind_pure _).symm
  | cons group rest ih => simp only [forCombinations, combinations, foldlM_flatMap, ih]

theorem nonneg_of_mem_combinations {groups : List (DiceGroup ℚ)}
    (hgroups : ∀ group ∈ groups, group.2.Nonneg) {pins : Pins} {weight : ℚ} (hweight : 0 ≤ weight)
    {c : Pins × ℚ} (hc : c ∈ combinations groups pins weight) : 0 ≤ c.2 := by
  induction groups generalizing pins weight with
  | nil =>
    obtain rfl := List.mem_singleton.1 hc
    exact hweight
  | cons group rest ih =>
    obtain ⟨hgroup, hrest⟩ := List.forall_mem_cons.1 hgroups
    obtain ⟨p, hp, hc⟩ := List.mem_flatMap.1 hc
    exact ih hrest (mul_nonneg hweight (hgroup p hp)) hc

/-- A combination has a value of each group, and weighs as much as the product of their weights. -/
theorem exists_of_mem_combinations {ds : List (Distribution ℚ)} {k : ℕ} {pins : Pins} {weight : ℚ}
    {c : Pins × ℚ} (hc : c ∈ combinations ((List.range' k ds.length).zip ds) pins weight) :
    ∃ choice ∈ (ds.map Distribution.toList).sections,
      c = (pinsFrom k (choice.map Prod.fst) pins, weight * (choice.map Prod.snd).prod) := by
  induction ds generalizing k pins weight with
  | nil =>
    obtain rfl := List.mem_singleton.1 hc
    exact ⟨[], by simp, by simp [pinsFrom]⟩
  | cons d ds ih =>
    obtain ⟨p, hp, hc⟩ := List.mem_flatMap.1 hc
    obtain ⟨choice, hchoice, rfl⟩ := ih hc
    refine ⟨p :: choice, ?_, ?_⟩
    · rw [List.map_cons, List.mem_sections]
      exact .cons hp (List.mem_sections.1 hchoice)
    · rw [List.map_cons, List.map_cons, List.prod_cons, ← mul_assoc, pinsFrom]

/-- **All combinations together weigh as much as the product of the totals.** -/
theorem sum_combinations (groups : List (DiceGroup ℚ)) (pins : Pins) (weight : ℚ) :
    ((combinations groups pins weight).map Prod.snd).sum
      = weight * (groups.map fun group => group.2.total).prod := by
  induction groups generalizing pins weight with
  | nil => simp [combinations]
  | cons group rest ih =>
    rw [combinations, sum_flatMap]
    simp only [ih]
    rw [List.map_cons, List.prod_cons, ← mul_assoc, List.sum_map_mul_right,
      List.sum_map_mul_left, Distribution.total_eq_sumOver, Distribution.sumOver, tableSum]
    simp only [mul_one]
    rfl

/-! ## 2. Groups and conditionals -/

section Visits

variable {s : Settings ℚ} {root : Node} {groups : List (DiceGroup ℚ)}

/-- The groups of a formula have values with positive weights. -/
theorem nonneg_diceGroups (h : diceGroups s root = .ok groups) :
    ∀ group ∈ groups, group.2.Nonneg := by
  refine forall_mem_diceGroups h (fun _ node values _ hvalues => ?_) fun d _ pool hpool =>
    (Distribution.positive_sumOfCopies hpool).nonneg
  obtain ⟨e, he, rfl⟩ := Node.values_eq_ok hvalues
  exact (Node.positive_walk _ he).nonneg

theorem isCriticalCombination_of_isEmpty {ids : List ℕ} (h : ids.isEmpty = true) (pins : Pins) :
    isCriticalCombination s ids pins = false := by
  unfold isCriticalCombination
  split
  · rfl
  · rw [h, Bool.not_true, Bool.false_and]

namespace BranchTally

variable (t : BranchTally ℚ) (ids : List ℕ) (condition : Node)

/-- With and without dice that decide, the whole is the sum of the rounded branches. -/
theorem distribution_evaluation : (t.evaluation ids condition).distribution
    = (t.normalHit.rounded.addScaled t.criticalHit.rounded 1).addScaled t.miss.rounded 1 := by
  unfold evaluation
  dsimp only
  split <;> rfl

theorem nested_evaluation : (t.evaluation ids condition).nested
    = .root condition.text (t.hits.check ids)
      :: nestedConditions t.nested (t.hits.check ids).total := by
  unfold evaluation
  dsimp only
  split <;> rfl

theorem evaluation_ne_check (c : Check ℚ) : t.evaluation ids condition ≠ .check c := by
  intro h
  unfold evaluation at h
  dsimp only at h
  split at h <;> cases h

end BranchTally

/-- What one combination does to the tally of a conditional. -/
inductive BranchTally.Visit (s : Settings ℚ) (ids : List ℕ) (relation : Relation)
    (left right ifTrue ifFalse : Node) (c : Pins × ℚ) (t : BranchTally ℚ) : BranchTally ℚ → Prop
  | hit {branch : Evaluation ℚ} (hholds : holdsPinned s relation left right c.1 = .ok true)
      (hbranch : ifTrue.evaluate s
        { pinned := some c.1, criticalBranch := isCriticalCombination s ids c.1 } = .ok branch) :
      Visit s ids relation left right ifTrue ifFalse c t
        (t.addHit ids (isCriticalCombination s ids c.1) branch c.2)
  | miss {branch : Evaluation ℚ} (hholds : holdsPinned s relation left right c.1 = .ok false)
      (hbranch : ifFalse.evaluate s { pinned := some c.1 } = .ok branch) :
      Visit s ids relation left right ifTrue ifFalse c t (t.addMiss ids branch c.2)

/-- A conditional with references is one loop over all combinations. -/
theorem reuseConditional_eq_ok {condition ifTrue ifFalse left right : Node} {relation : Relation}
    {e : Evaluation ℚ}
    (h : reuseConditional s groups condition ifTrue ifFalse relation left right = .ok e) :
    ∃ (visit : BranchTally ℚ → Pins × ℚ → Except EvalError (BranchTally ℚ))
      (tally : BranchTally ℚ), (combinations groups [] 1).foldlM visit .start = .ok tally
      ∧ e = tally.evaluation (decidingIds s condition) condition
      ∧ ∀ t c next, visit t c = .ok next → BranchTally.Visit s (decidingIds s condition) relation
          left right ifTrue ifFalse c t next := by
  obtain ⟨tally, htally, h⟩ := bind_eq_ok.1 h
  rw [forCombinations_eq] at htally
  refine ⟨_, tally, htally, (pure_eq_ok.1 h).symm, fun t c next hnext => ?_⟩
  obtain ⟨holds, hholds, hnext⟩ := bind_eq_ok.1 hnext
  cases holds with
  | true =>
    obtain ⟨branch, hbranch, hnext⟩ := bind_eq_ok.1 hnext
    rw [← pure_eq_ok.1 hnext]
    exact .hit hholds hbranch
  | false =>
    obtain ⟨branch, hbranch, hnext⟩ := bind_eq_ok.1 hnext
    rw [← pure_eq_ok.1 hnext]
    exact .miss hholds hbranch

end Visits

/-! ## 3. The rolls of a combination -/

/-- The rolls of some groups in which each of them has its value. -/
def rollsWithAll (gs : List Group) (vs : List Outcome) : List Roll :=
  (List.zipWith (fun g v => g.rollsWith (some v)) gs vs).sections

/-- The distributions count the rolls of the groups by their values. -/
def CountsGroups (ds : List (Distribution ℚ)) (gs : List Group) : Prop :=
  List.Forall₂ (fun (d : Distribution ℚ) g => d.Counts (g.pool.rolls.map g.value?)) ds gs

/-- A combination weighs as much as there are rolls with its values. -/
theorem CountsGroups.weight_eq {ds : List (Distribution ℚ)} {gs : List Group}
    (h : CountsGroups ds gs) {choice : List (Outcome × ℚ)}
    (hchoice : choice ∈ (ds.map Distribution.toList).sections) :
    (choice.map Prod.snd).prod = (rollsWithAll gs (choice.map Prod.fst)).length := by
  induction h generalizing choice with
  | nil =>
    obtain rfl : choice = [] := by simpa using hchoice
    simp [rollsWithAll]
  | @cons d g ds gs hd _ ih =>
    rw [List.map_cons, List.mem_sections] at hchoice
    obtain ⟨p, rest, hp, hrest, rfl⟩ := List.forall₂_cons_right_iff.1 hchoice
    rw [List.map_cons, List.map_cons, List.prod_cons, ih (List.mem_sections.2 hrest),
      hd.weight_eq hp, ← Nat.cast_mul, rollsWithAll, rollsWithAll, List.zipWith_cons_cons,
      length_sections_cons]
    rfl

/-- **The rolls fall into one part for each combination.** -/
theorem CountsGroups.sum_rollsWithAll {ds : List (Distribution ℚ)} {gs : List Group}
    (h : CountsGroups ds gs) (F : Roll → ℚ) :
    ((ds.map Distribution.toList).sections.map fun choice =>
        ((rollsWithAll gs (choice.map Prod.fst)).map F).sum).sum
      = ((gs.map fun g => g.pool.rolls).sections.map F).sum := by
  induction h generalizing F with
  | nil => simp [rollsWithAll]
  | @cons d g ds gs hd _ ih =>
    rw [List.map_cons, List.map_cons, sum_sections_cons, sum_sections_cons, ← hd.sum_filter_eq]
    refine congrArg List.sum (List.map_congr_left fun p _ => ?_)
    simp only [List.map_cons, rollsWithAll, List.zipWith_cons_cons, sum_sections_cons]
    rw [sum_map_sum_comm]
    exact congrArg List.sum (List.map_congr_left fun cell _ => ih fun roll => F (cell :: roll))

/-! ## 4. Adding up -/

namespace Distribution

theorem addWeighted_zero (sum d : Distribution ℚ) : sum.addWeighted d 0 = sum := by
  unfold addWeighted
  dsimp only
  split
  · rw [zero_div, addScaled_zero]
  · rfl

/-- Rounding leaves numbers of rolls as they are. -/
theorem Counts.rounded {d : Distribution ℚ} {l : List (Option Outcome)} (h : d.Counts l) :
    d.rounded.Counts l :=
  fun g => (h.whole.sumOver_rounded _).trans (h g)

end Distribution

/-- What is counted in some unit, scaled to the number of rolls, adds each roll once. -/
theorem Reading.Counted.sumOver_addWeighted {r : Reading} {node : Node} {d : Distribution ℚ}
    (h : r.Counted node d) (hunits : ∀ c ∈ r.units, 0 < c) (sum : Distribution ℚ)
    (f : Option Outcome → ℚ) :
    (sum.addWeighted d (r.rolls node).length).sumOver (fun v => f (some v))
      = sum.sumOver (fun v => f (some v))
        + ((r.rolls node).map fun roll => f (node.valueOn r.given roll)).sum := by
  obtain ⟨c, hc, hsum⟩ := h.exists_unit
  have hlength : ((r.rolls node).length : ℚ) = c * d.total := by
    have hone := hsum fun _ => 1
    rw [← Distribution.total_eq_sumOver] at hone
    simpa using hone
  unfold Distribution.addWeighted
  by_cases htotal : 0 < d.total
  · rw [if_pos htotal, hlength, mul_div_cancel_right₀ c htotal.ne',
      Distribution.sumOver_addScaled h.nonneg (hunits c hc).le, hsum]
  · have hzero : d.total = 0 := le_antisymm (not_lt.1 htotal) h.nonneg.total_nonneg
    rw [hzero, mul_zero, Nat.cast_eq_zero] at hlength
    rw [if_neg htotal, List.eq_nil_of_length_eq_zero hlength]
    simp

end DiceOdds
