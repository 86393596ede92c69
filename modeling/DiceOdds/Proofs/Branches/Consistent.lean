import DiceOdds.Proofs.Branches.Tally
import DiceOdds.Proofs.Reuse.Check

/-!
# Nested conditions are consistent

The list of nested conditions of a whole formula is a tree of probabilities, whichever way the
formula has been evaluated: by a walk over the tree, or over all combinations of the values of its
dice.

## Why only the walk needs conditions that can happen

The walk mixes a branch for a failure with the probability that is left over, while an entry says
how likely a failure is by itself.  For a condition without any weight the two differ.  Over
combinations both are made from the same weights.
-/

namespace DiceOdds

variable {s : Settings ℚ} {root : Node}

/-! ## 1. Steps from the root -/

/-- The branch behind a step from a conditional with references. -/
def branchBehind? (ids : List ℕ) (ifTrue ifFalse : Node) : BranchStep → Option Node
  | .true => if ids.isEmpty then some ifTrue else none
  | .false => if ids.isEmpty then some ifFalse else none
  | .normalHit | .criticalHit => if ids.isEmpty then none else some ifTrue
  | .miss => if ids.isEmpty then none else some ifFalse

/-- The weight with which a step from the root has been taken. -/
def HitTally.taken (t : HitTally ℚ) (ids : List ℕ) : BranchStep → ℚ
  | .true => if ids.isEmpty then t.success else 0
  | .false => if ids.isEmpty then t.failure else 0
  | .normalHit => if ids.isEmpty then 0 else t.success - t.criticalSuccess
  | .criticalHit => if ids.isEmpty then 0 else t.criticalSuccess
  | .miss => if ids.isEmpty then 0 else t.failure

theorem HitTally.taken_hit (t : HitTally ℚ) {ids : List ℕ} {critical : Bool}
    (hcritical : ids.isEmpty = true → critical = false) (weight : ℚ) (step : BranchStep) :
    (t.count true critical weight).taken ids step
      = t.taken ids step + if step = BranchTally.hitStep ids critical then weight else 0 := by
  cases hids : ids.isEmpty with
  | true =>
    rw [hcritical hids]
    cases step <;> simp [taken, count, BranchTally.hitStep, hids]
  | false =>
    cases critical <;> cases step <;>
      simp only [taken, count, BranchTally.hitStep, hids, reduceCtorEq, if_true, if_false,
        Bool.false_eq_true, add_zero]
    · ring
    · ring

theorem HitTally.taken_miss (t : HitTally ℚ) (ids : List ℕ) (weight : ℚ) (step : BranchStep) :
    (t.count false false weight).taken ids step
      = t.taken ids step + if step = BranchTally.missStep ids then weight else 0 := by
  cases hids : ids.isEmpty <;> cases step <;> simp [taken, count, BranchTally.missStep, hids]

/-- The root gives each step the share of the weight with which it has been taken. -/
theorem HitTally.stepProbability?_root (t : HitTally ℚ) (ids : List ℕ) (condition : String)
    {ifTrue ifFalse : Node} {step : BranchStep} {node : Node}
    (h : branchBehind? ids ifTrue ifFalse step = some node) :
    (NestedCondition.root condition (t.check ids)).stepProbability? step
      = some (if (t.check ids).total == 0 then 0 else t.taken ids step / (t.check ids).total) := by
  have htotal : (t.check ids).total = t.success + t.failure := rfl
  rw [share_of_total, htotal]
  cases hids : ids.isEmpty <;> cases step <;>
    simp only [branchBehind?, hids, if_true, if_false, Bool.false_eq_true, reduceCtorEq] at h
  all_goals
    simp [NestedCondition.stepProbability?, NestedCondition.root, Check.successProbability,
      Check.failureProbability, Check.share_eq, Check.total, check, taken, hids,
      CriticalSplit.ofWeights_eq]

/-! ## 2. All combinations -/

theorem BranchTally.nested_addHit (t : BranchTally ℚ) (ids : List ℕ) (critical : Bool)
    (branch : Evaluation ℚ) (weight : ℚ) : (t.addHit ids critical branch weight).nested
      = addNested t.nested branch (hitStep ids critical) weight := by
  unfold addHit
  split <;> rfl

/-- The conditions counted so far follow the law of the branches. -/
def BranchTally.Lawful (ids : List ℕ) (ifTrue ifFalse : Node) (t : BranchTally ℚ) : Prop :=
  TallyLaw (branchBehind? ids ifTrue ifFalse) (t.hits.taken ids) t.nested

/-- The tally of a conditional follows the law of its branches. -/
theorem tree_reuseConditional {groups : List (DiceGroup ℚ)}
    (hgroups : ∀ group ∈ groups, group.2.Nonneg) {condition ifTrue ifFalse left right : Node}
    {relation : Relation} {e : Evaluation ℚ}
    (h : reuseConditional s groups condition ifTrue ifFalse relation left right = .ok e) :
    ProbabilityTree NestedCondition.stepProbability? e.nested := by
  have hfixed : ∀ pins critical,
      ({ pinned := some pins, criticalBranch := critical } : Context).pinned.isSome = true :=
    fun _ _ => rfl
  have hstart : (BranchTally.start : BranchTally ℚ).Lawful (decidingIds s condition) ifTrue
      ifFalse := .start fun step => by
    cases step <;> simp [BranchTally.start, HitTally.start, HitTally.taken]
  obtain ⟨visit, tally, htally, rfl, hvisit⟩ := reuseConditional_eq_ok h
  have hlaw : tally.Lawful (decidingIds s condition) ifTrue ifFalse := by
    refine foldlM_invariant _ _ _ htally hstart fun t next c hc hlaw hnext => ?_
    have hweight := nonneg_of_mem_combinations hgroups zero_le_one hc
    cases hvisit t c next hnext with
    | hit _ hbranch =>
      have hnot : (decidingIds s condition).isEmpty = true
          → isCriticalCombination s (decidingIds s condition) c.1 = false := fun hids =>
        isCriticalCombination_of_isEmpty hids c.1
      rw [BranchTally.Lawful, t.hits_addHit, t.nested_addHit]
      refine TallyLaw.addNested hlaw (hfixed c.1 _) ?_ hbranch hweight
        (t.hits.taken_hit hnot c.2)
      unfold BranchTally.hitStep
      cases hids : (decidingIds s condition).isEmpty with
      | true => simp [branchBehind?, hids]
      | false =>
        cases isCriticalCombination s (decidingIds s condition) c.1 <;> simp [branchBehind?, hids]
    | miss _ hbranch =>
      refine TallyLaw.addNested hlaw (hfixed c.1 false) ?_ hbranch hweight
        (t.hits.taken_miss _ c.2)
      unfold BranchTally.missStep
      cases hids : (decidingIds s condition).isEmpty <;> simp [branchBehind?, hids]
  rw [BranchTally.nested_evaluation]
  exact TallyLaw.tree hlaw rfl rfl rfl fun step node hnode =>
    tally.hits.stepProbability?_root _ _ hnode

/-! ## 3. Whole formulas -/

/-- Of all ways to go through combinations, only that for conditionals lists conditions. -/
theorem tree_reuseByGroups {groups : List (DiceGroup ℚ)}
    (hgroups : ∀ group ∈ groups, group.2.Nonneg) {e : Evaluation ℚ}
    (h : reuseByGroups s groups root = .ok e) (he : e.isConditional = true) :
    ProbabilityTree NestedCondition.stepProbability? e.nested := by
  have hplain : ∀ {e : Evaluation ℚ}, reusePlain s groups root = .ok e → e.isConditional = false := by
    intro e h
    obtain ⟨sum, -, h⟩ := bind_eq_ok.1 h
    rw [← pure_eq_ok.1 h]
    rfl
  cases reuseRoute_of_ok h with
  | conditional _ _ h => exact tree_reuseConditional hgroups h
  | unguarded _ _ h | plain _ _ _ h => cases (hplain h).symm.trans he
  | check _ h =>
    obtain ⟨tally, -, h⟩ := bind_eq_ok.1 h
    rw [← pure_eq_ok.1 h] at he
    cases he
  | byRate => cases he
  | decided _ _ _ _ h =>
    obtain ⟨sums, -, h⟩ := bind_eq_ok.1 h
    rw [← pure_eq_ok.1 h] at he
    cases he

/-- **Nested conditions are a consistent tree of probabilities.**  The first entry of a conditional
is its root, levels count the steps of paths, no path occurs twice, and every entry but the root is
reached with the probability of the entry before it times that of the last step.  Without references
this asks of the conditions in the branches that they can happen at all. -/
theorem evaluateFormula_nested {e : Evaluation ℚ} (he : root.evaluateFormula s = .ok e)
    (hconditional : e.isConditional = true)
    (hpositive : s.registry.isEmpty = true →
      ∀ check, root.Meets s (splitCheck s) {} check → 0 < check.total) :
    ProbabilityTree NestedCondition.stepProbability? e.nested := by
  unfold Node.evaluateFormula at he
  split at he
  · obtain ⟨groups, hgroups, he⟩ := evaluateReuse_eq_ok he
    exact tree_reuseByGroups (nonneg_diceGroups hgroups) he hconditional
  · next hregistry =>
    have hempty : s.registry.isEmpty = true := by simpa using hregistry
    split at he
    · unfold criticalMixture at he
      dsimp only at he
      split at he
      · obtain ⟨normal, -, he⟩ := bind_eq_ok.1 he
        obtain ⟨all, -, he⟩ := bind_eq_ok.1 he
        obtain ⟨low, -, he⟩ := bind_eq_ok.1 he
        rw [← pure_eq_ok.1 he] at hconditional
        cases hconditional
      · obtain ⟨normal, -, he⟩ := bind_eq_ok.1 he
        obtain ⟨critical, -, he⟩ := bind_eq_ok.1 he
        rw [← pure_eq_ok.1 he] at hconditional
        cases hconditional
    · exact Node.tree_walk (fun _ _ _ => rfl) root he
        (fun check hmeets => ruleFits_stepProbability? (hpositive hempty check hmeets)) hconditional

/-- `d2>1?1:2`: a check in a branch. -/
def innerCheck : Node :=
  .conditional (.comparison .greater (.dice ⟨1, 2, false⟩ none none) (.number 1)) (.number 1)
    (.number 2)

/-- `d4>2?(d2>1?1:2):0`: a check, and another one where it succeeds. -/
def checkInBranch : Node :=
  .conditional (.comparison .greater (.dice ⟨1, 4, false⟩ none none) (.number 2))
    (.group innerCheck) (.number 0)

/-- `d6>3?(d_1>5?1:2):0`: the same dice are checked again where the check succeeds. -/
def checkedAgain : Node :=
  .conditional (.comparison .greater (.dice ⟨1, 6, false⟩ (some 1) none) (.number 3))
    (.group (.conditional (.comparison .greater (.reference 1 false) (.number 5)) (.number 1)
      (.number 2))) (.number 0)

/-- A check found by evaluating has some weight. -/
theorem total_pos_of_any {ε : Type} {x : Except ε (Evaluation ℚ)} {check : Check ℚ}
    (hx : x = .ok (.check check))
    (hany : (x.toOption.bind Evaluation.check?).any (fun c => decide (0 < c.total)) = true) :
    0 < check.total := by
  subst hx
  exact of_decide_eq_true hany

set_option maxRecDepth 4000 in
theorem total_pos_checkInBranch {check : Check ℚ}
    (h : checkInBranch.Meets ({ rate := some 50 } : Settings ℚ) (splitCheck { rate := some 50 }) {}
      check) : 0 < check.total := by
  have hinner : ∀ critical : Bool, (((Node.comparison .greater (.dice ⟨1, 2, false⟩ none none)
      (.number 1)).evaluate ({ rate := some 50 } : Settings ℚ)
        { criticalBranch := critical }).toOption.bind Evaluation.check?).any
          (fun c => decide (0 < c.total)) = true := by decide +kernel
  have hcritical : ∀ critical : Bool, innerCheck.Meets ({ rate := some 50 } : Settings ℚ)
      (splitCheck { rate := some 50 }) { criticalBranch := critical } check → 0 < check.total := by
    intro critical h
    cases h with
    | condition hcheck => exact total_pos_of_any hcheck (hinner critical)
    | ifTrue _ _ hmeets => cases hmeets
    | hit _ _ _ hmeets => cases hmeets
    | ifFalse hmeets => cases hmeets
  cases h with
  | condition hcheck => exact total_pos_of_any hcheck (by decide +kernel)
  | ifTrue _ _ hmeets =>
    cases hmeets with
    | group hmeets => exact hcritical false hmeets
  | hit critical _ _ hmeets =>
    cases hmeets with
    | group hmeets => exact hcritical critical hmeets
  | ifFalse hmeets => cases hmeets

set_option maxRecDepth 4000 in
theorem evaluateFormula_nested_checks :
    (∃ e : Evaluation ℚ, checkInBranch.evaluateFormula { rate := some (50 : ℚ) } = .ok e
        ∧ e.isConditional = true ∧ e.nested.length = 3
        ∧ ProbabilityTree NestedCondition.stepProbability? e.nested)
      ∧ ∃ e : Evaluation ℚ, checkedAgain.evaluateFormula
          { registry := [⟨1, 6, false⟩], rate := some (20 : ℚ) } = .ok e
        ∧ e.isConditional = true ∧ e.nested.length = 3
        ∧ ProbabilityTree NestedCondition.stepProbability? e.nested := by
  have hbranch : ((checkInBranch.evaluateFormula ({ rate := some 50 } : Settings ℚ)).toOption.bind
      some).any (fun e => decide (e.isConditional = true ∧ e.nested.length = 3)) = true := by
    decide +kernel
  have hagain : ((checkedAgain.evaluateFormula ({ registry := [⟨1, 6, false⟩], rate := some 20 } :
      Settings ℚ)).toOption.bind some).any
        (fun e => decide (e.isConditional = true ∧ e.nested.length = 3)) = true := by
    decide +kernel
  obtain ⟨e, _, he, hsome, hvalues⟩ := exists_of_any hbranch
  obtain ⟨e', _, he', hsome', hvalues'⟩ := exists_of_any hagain
  cases hsome
  cases hsome'
  obtain ⟨hconditional, hlength⟩ := of_decide_eq_true hvalues
  obtain ⟨hconditional', hlength'⟩ := of_decide_eq_true hvalues'
  exact ⟨⟨e, he, hconditional, hlength, evaluateFormula_nested he hconditional
      fun _ check hmeets => total_pos_checkInBranch hmeets⟩,
    e', he', hconditional', hlength', evaluateFormula_nested he' hconditional' nofun⟩

end DiceOdds
