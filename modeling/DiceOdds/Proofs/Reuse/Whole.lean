import DiceOdds.Proofs.Rate.Shares
import DiceOdds.Proofs.Reuse.Exact
import DiceOdds.Evaluation.OfFormula

/-!
# Every weight is a positive whole number

Whatever the kind of a formula, its values have weights `1`, `2`, `3` and so on.

## Why the ways to evaluate a formula are gone through once more

Inside a tree all weights are whole because rolls are counted and mixtures are rounded.  What is
done with trees is not all of this kind: critical hits outside of a check are the difference of two
readings, and a check by combinations adds up products of weights.  Differences of whole numbers
are whole, and what is not positive is not stored; products are whole because the groups are not
evaluated with fixed values, where limits on single dice would leave fractions.
-/

namespace DiceOdds

variable {s : Settings ℚ} {root : Node} {e : Evaluation ℚ}

/-! ## 1. Operations on whole distributions -/

namespace Distribution

/-- Only positive whole weights are stored. -/
structure PositiveWhole (d : Distribution ℚ) : Prop where
  whole : d.Whole
  positive : d.Positive

variable {d other : Distribution ℚ}

theorem PositiveWhole.of_rounded (d : Distribution ℚ) : d.rounded.PositiveWhole :=
  ⟨whole_rounded d, positive_rounded d⟩

theorem PositiveWhole.exists_natCast (h : d.PositiveWhole) {p : Outcome × ℚ}
    (hp : p ∈ d.toList) : ∃ n : ℕ, 0 < n ∧ p.2 = n := by
  obtain ⟨n, hn⟩ := h.whole.mem hp
  exact ⟨n, Nat.cast_pos.1 (hn ▸ h.positive p hp), hn⟩

theorem Whole.exists_total (h : d.Whole) : ∃ n : ℕ, d.total = n := by
  rw [total_eq_sumOver]
  exact h.sumOver fun _ => ⟨1, Nat.cast_one.symm⟩

theorem Whole.addScaled_one (h : d.Whole) (hother : other.Whole) : (d.addScaled other 1).Whole :=
  foldl_invariant _ Whole other.toList h fun out p hp hout => by
    obtain ⟨n, hn⟩ := hother.mem hp
    have hadd := hout.add p.1 n
    rwa [← hn, ← mul_one p.2] at hadd

theorem PositiveWhole.addScaled_one (h : d.PositiveWhole) (hother : other.PositiveWhole) :
    (d.addScaled other 1).PositiveWhole :=
  ⟨h.whole.addScaled_one hother.whole, h.positive.addScaled 1⟩

/-- A difference of whole weights is whole, and only positive differences are stored. -/
theorem PositiveWhole.subtract (h : d.Whole) (hother : other.Whole) :
    (d.subtract other).PositiveWhole := by
  refine foldl_invariant _ PositiveWhole d.toList ⟨whole_empty, positive_empty⟩
    fun out p hp hout => ?_
  dsimp only
  split
  · refine ⟨?_, hout.positive.add _ _⟩
    obtain ⟨n, hn⟩ := h.mem hp
    obtain ⟨m, hm⟩ := hother p.1
    have hrest : p.2 - other.weightOf p.1 = ((n - m : ℤ) : ℚ) := by
      rw [hn, hm, Int.cast_sub, Int.cast_natCast, Int.cast_natCast]
    rw [hrest]
    exact hout.whole.add_int p.1 _
  · exact hout

theorem PositiveWhole.bernoulli (n m : ℕ) : (bernoulli (n : ℚ) m).PositiveWhole :=
  ⟨(whole_empty.add 1 n).add 0 m, positive_bernoulli _ _⟩

end Distribution

open DiceOdds.Distribution (PositiveWhole)

/-! ## 2. Without references -/

theorem Node.positiveWhole_evaluate {node : Node} {ctx : Context} (hctx : ctx.pinned = none)
    (he : node.evaluate s ctx = .ok e) : e.distribution.PositiveWhole :=
  ⟨node.whole_walk hctx he, node.positive_walk he⟩

theorem Node.positiveWhole_values {node : Node} {ctx : Context} {d : Distribution ℚ}
    (hctx : ctx.pinned = none) (hd : node.values s ctx = .ok d) : d.PositiveWhole := by
  obtain ⟨e, he, rfl⟩ := Node.values_eq_ok hd
  exact Node.positiveWhole_evaluate hctx he

theorem positiveWhole_criticalMixture (he : criticalMixture s root = .ok e) :
    e.distribution.PositiveWhole := by
  cases mixtureRoute_of_ok he with
  | decided _ hnormal hall hlow =>
    exact (Node.positiveWhole_values rfl hnormal).addScaled_one
      (.subtract (Node.positiveWhole_values rfl hall).whole
        (Node.positiveWhole_values rfl hlow).whole)
  | byRate => exact .of_rounded _

/-! ## 3. Combinations -/

section Combinations

variable {groups : List (DiceGroup ℚ)}

/-- Groups are rolled, so their weights are whole. -/
theorem positiveWhole_diceGroups (h : diceGroups s root = .ok groups) :
    ∀ group ∈ groups, group.2.PositiveWhole := by
  refine forall_mem_diceGroups h (fun _ _ _ _ hvalues => Node.positiveWhole_values rfl hvalues)
    fun d _ pool hpool => ?_
  exact ⟨Distribution.whole_sumOfCopies (Distribution.counts_ofFaces d fun _ => true).whole hpool,
    Distribution.positive_sumOfCopies hpool⟩

/-- A combination weighs a whole number. -/
theorem exists_natCast_of_mem_combinations (hgroups : ∀ group ∈ groups, group.2.PositiveWhole)
    {pins : Pins} {weight : ℚ} {n : ℕ} (hweight : weight = n) {c : Pins × ℚ}
    (hc : c ∈ combinations groups pins weight) : ∃ n : ℕ, c.2 = n := by
  induction groups generalizing pins weight n with
  | nil =>
    obtain rfl := List.mem_singleton.1 hc
    exact ⟨n, hweight⟩
  | cons group rest ih =>
    obtain ⟨hgroup, hrest⟩ := List.forall_mem_cons.1 hgroups
    obtain ⟨p, hp, hc⟩ := List.mem_flatMap.1 hc
    obtain ⟨m, hm⟩ := hgroup.whole.mem hp
    exact ih hrest (n := n * m) (by rw [hweight, hm, Nat.cast_mul]) hc

/-- The combinations in which a comparison holds, and those in which it fails, weigh a whole number
together. -/
theorem positiveWhole_reuseCheck (hgroups : ∀ group ∈ groups, group.2.PositiveWhole)
    {relation : Relation} {left right : Node}
    (he : reuseCheck s groups root relation left right = .ok e) :
    e.distribution.PositiveWhole := by
  obtain ⟨tally, htally, he⟩ := bind_eq_ok.1 he
  obtain rfl := pure_eq_ok.1 he
  rw [forCombinations_eq] at htally
  obtain ⟨⟨n, hn⟩, m, hm⟩ : (∃ n : ℕ, tally.success = n) ∧ ∃ m : ℕ, tally.failure = m := by
    refine foldlM_invariant _ (fun t : HitTally ℚ => (∃ n : ℕ, t.success = n)
      ∧ ∃ m : ℕ, t.failure = m) _ htally ⟨⟨0, Nat.cast_zero.symm⟩, 0, Nat.cast_zero.symm⟩
      fun t next c hc ht hnext => ?_
    obtain ⟨k, hk⟩ := exists_natCast_of_mem_combinations hgroups (n := 1) Nat.cast_one.symm hc
    obtain ⟨holds, -, hnext⟩ := bind_eq_ok.1 hnext
    obtain rfl := pure_eq_ok.1 hnext
    obtain ⟨⟨n, hn⟩, m, hm⟩ := ht
    cases holds with
    | true => exact ⟨⟨n + k, by rw [Nat.cast_add, ← hn, ← hk]; rfl⟩, m, hm⟩
    | false => exact ⟨⟨n, hn⟩, m + k, by rw [Nat.cast_add, ← hm, ← hk]; rfl⟩
  have hcheck : (Evaluation.check (tally.check (decidingIds s root))).distribution
      = .bernoulli n m := congrArg₂ Distribution.bernoulli hn hm
  exact hcheck ▸ PositiveWhole.bernoulli n m

theorem positiveWhole_reuseConditional {condition ifTrue ifFalse left right : Node}
    {relation : Relation}
    (he : reuseConditional s groups condition ifTrue ifFalse relation left right = .ok e) :
    e.distribution.PositiveWhole := by
  obtain ⟨_, tally, -, rfl, -⟩ := reuseConditional_eq_ok he
  rw [BranchTally.distribution_evaluation]
  exact ((PositiveWhole.of_rounded _).addScaled_one (.of_rounded _)).addScaled_one (.of_rounded _)

theorem positiveWhole_reusePlain (he : reusePlain s groups root = .ok e) :
    e.distribution.PositiveWhole := by
  obtain ⟨sum, -, he⟩ := bind_eq_ok.1 he
  obtain rfl := pure_eq_ok.1 he
  exact .of_rounded _

/-- Every way to go through combinations rounds what it adds up, or adds up whole weights. -/
theorem positiveWhole_reuseByGroups (hgroups : ∀ group ∈ groups, group.2.PositiveWhole)
    (he : reuseByGroups s groups root = .ok e) : e.distribution.PositiveWhole := by
  cases reuseRoute_of_ok he with
  | conditional _ _ he => exact positiveWhole_reuseConditional he
  | check _ he => exact positiveWhole_reuseCheck hgroups he
  | unguarded _ _ he | plain _ _ _ he => exact positiveWhole_reusePlain he
  | byRate => exact .of_rounded _
  | decided _ _ _ _ he =>
    obtain ⟨sums, -, he⟩ := bind_eq_ok.1 he
    rw [← pure_eq_ok.1 he]
    exact (PositiveWhole.of_rounded _).addScaled_one (.of_rounded _)

end Combinations

/-! ## 4. All formulas -/

theorem Node.positiveWhole_evaluateFormula (he : root.evaluateFormula s = .ok e) :
    e.distribution.PositiveWhole := by
  cases route_of_ok he with
  | reuse _ hgroups he => exact positiveWhole_reuseByGroups (positiveWhole_diceGroups hgroups) he
  | mixture _ _ he => exact positiveWhole_criticalMixture he
  | plain _ _ he => exact Node.positiveWhole_evaluate rfl he

/-- **Weights are positive whole numbers**, and so is their total: for every formula, with or
without references, at any rate and however mixtures are rounded. -/
theorem weights_evaluateFormula_whole (he : root.evaluateFormula s = .ok e) :
    (∀ p ∈ e.distribution.toList, ∃ n : ℕ, 0 < n ∧ p.2 = n) ∧ ∃ n : ℕ, e.distribution.total = n :=
  ⟨fun _ hp => (Node.positiveWhole_evaluateFormula he).exists_natCast hp,
    (Node.positiveWhole_evaluateFormula he).whole.exists_total⟩

/-- `max_each(2d5,3)+d_1`: a sum of two dice, with each die counted as at least `3` and as it is. -/
def limitedAndPlain : Node :=
  .binary .add (.function .maxEach [.dice ⟨2, 5, false⟩ (some 1) none, .number 3.0])
    (.reference 1 false)

set_option maxRecDepth 4000 in
/-- The five rolls with a sum of `6` come to `6`, `7` or `8` once each die is limited, and each of
these values weighs as many of the rolls as lead to it. -/
theorem weights_evaluateFormula_limitedAndPlain :
    ∃ e : Evaluation ℚ, limitedAndPlain.evaluateFormula { registry := [⟨2, 5, false⟩] } = .ok e
      ∧ (∀ p ∈ e.distribution.toList, ∃ n : ℕ, 0 < n ∧ p.2 = n)
      ∧ ∃ n : ℕ, e.distribution.total = n := by
  have hok : (limitedAndPlain.evaluateFormula
      ({ registry := [⟨2, 5, false⟩] } : Settings ℚ)).isOk = true := by decide +kernel
  cases he : limitedAndPlain.evaluateFormula ({ registry := [⟨2, 5, false⟩] } : Settings ℚ) with
  | error _ => rw [he] at hok; cases hok
  | ok e => exact ⟨e, rfl, weights_evaluateFormula_whole he⟩

end DiceOdds
