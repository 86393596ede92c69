import DiceOdds.Proofs.Counting.Walk
import DiceOdds.Evaluation.OfFormula

/-!
# The routes of an evaluation

Whole formulas are evaluated in different ways, depending on their dice, on their outermost
construct and on the rate.  What holds of every result is shown once for each of them.  Here the
ways are listed, each with what decides for it.

## Why the routes are inductive types

A case of a route has the conditions under which it is taken as its hypotheses, those of the cases
before it included.  So a proof about all formulas splits into cases by name, and needs nothing of
the order in which the conditions are looked at.
-/

namespace DiceOdds

variable {W : Type} [Weight W] {s : Settings W} {root : Node} {groups : List (DiceGroup W)}
  {e : Evaluation W}

/-! ## 1. Groups -/

/-- A group has the values of the node that its id stands for, or else those of its dice. -/
theorem groupValues_eq_ok {id : ℕ} {d : Dice} {group : DiceGroup W}
    (h : groupValues s root id d = .ok group) :
    group.1 = id ∧ ((∃ node, root.definition? id = some node ∧ node.values s {} = .ok group.2)
      ∨ root.definition? id = none
        ∧ Distribution.dicePool d.count.toNat d.sides.toNat = .ok group.2) := by
  unfold groupValues at h
  split at h
  · next node hnode =>
    obtain ⟨values, hvalues, h⟩ := bind_eq_ok.1 h
    rw [← pure_eq_ok.1 h]
    exact ⟨rfl, .inl ⟨node, hnode, hvalues⟩⟩
  · next hnone =>
    obtain ⟨pool, hpool, h⟩ := bind_eq_ok.1 h
    rw [← pure_eq_ok.1 h]
    exact ⟨rfl, .inr ⟨hnone, orBlame_eq_ok.1 hpool⟩⟩

/-- What holds of the values of all nodes with an id and of all dice of the registry holds of the
values of all groups. -/
theorem forall_mem_diceGroups {P : Distribution W → Prop} (h : diceGroups s root = .ok groups)
    (hnode : ∀ id node values, root.definition? id = some node → node.values s {} = .ok values →
      P values)
    (hdice : ∀ d ∈ s.registry, ∀ values,
      Distribution.dicePool d.count.toNat d.sides.toNat = .ok values → P values) :
    ∀ group ∈ groups, P group.2 := by
  refine forall_mem_of_mapM h fun ⟨id, d⟩ hentry group hgroup => ?_
  obtain ⟨-, ⟨node, hdefinition, hvalues⟩ | ⟨-, hpool⟩⟩ := groupValues_eq_ok hgroup
  · exact hnode id node group.2 hdefinition hvalues
  · exact hdice d (List.of_mem_zip hentry).2 group.2 hpool

/-! ## 2. Formulas with references -/

/-- How a formula goes through the combinations of its groups. -/
inductive ReuseRoute (s : Settings W) (groups : List (DiceGroup W)) (root : Node) :
    Evaluation W → Prop
  /-- A conditional asks in each combination whether its condition can hold. -/
  | conditional {condition ifTrue ifFalse left right : Node} {relation : Relation}
      {e : Evaluation W} (hroot : root.stripGroups = .conditional condition ifTrue ifFalse)
      (hcondition : condition.comparison? = some (relation, left, right))
      (he : reuseConditional s groups condition ifTrue ifFalse relation left right = .ok e) :
      ReuseRoute s groups root e
  /-- A conditional without a comparison as its condition is evaluated as it stands. -/
  | unguarded {condition ifTrue ifFalse : Node} {e : Evaluation W}
      (hroot : root.stripGroups = .conditional condition ifTrue ifFalse)
      (hcondition : condition.comparison? = none) (he : reusePlain s groups root = .ok e) :
      ReuseRoute s groups root e
  /-- A comparison asks in each combination whether it can hold. -/
  | check {left right : Node} {relation : Relation} {e : Evaluation W}
      (hroot : root.stripGroups = .comparison relation left right)
      (he : reuseCheck s groups root relation left right = .ok e) : ReuseRoute s groups root e
  /-- Any other formula is evaluated as it stands if no mixture is asked for. -/
  | plain {e : Evaluation W}
      (hconditional : ∀ condition ifTrue ifFalse,
        root.stripGroups ≠ .conditional condition ifTrue ifFalse)
      (hcomparison : ∀ relation left right, root.stripGroups ≠ .comparison relation left right)
      (hmix : wantsMixture s root = false) (he : reusePlain s groups root = .ok e) :
      ReuseRoute s groups root e
  /-- Where no dice decide, both readings are mixed by the rate. -/
  | byRate {normal critical : Distribution W}
      (hconditional : ∀ condition ifTrue ifFalse,
        root.stripGroups ≠ .conditional condition ifTrue ifFalse)
      (hcomparison : ∀ relation left right, root.stripGroups ≠ .comparison relation left right)
      (hmix : wantsMixture s root = true) (hids : root.criticalIds.isEmpty = true)
      (hreadings : reuseReadings s groups root = .ok (normal, critical)) :
      ReuseRoute s groups root (.mixture (mixByRate s normal critical))
  /-- Otherwise each combination has the reading that its values decide for. -/
  | decided {e : Evaluation W}
      (hconditional : ∀ condition ifTrue ifFalse,
        root.stripGroups ≠ .conditional condition ifTrue ifFalse)
      (hcomparison : ∀ relation left right, root.stripGroups ≠ .comparison relation left right)
      (hmix : wantsMixture s root = true) (hids : root.criticalIds.isEmpty = false)
      (he : reuseSplit s groups root root.criticalIds = .ok e) : ReuseRoute s groups root e

/-- **Every formula with references takes one of these routes.** -/
theorem reuseRoute_of_ok (he : reuseByGroups s groups root = .ok e) :
    ReuseRoute s groups root e := by
  unfold reuseByGroups at he
  split at he
  · next condition ifTrue ifFalse hroot =>
    split at he
    · next relation left right hcondition => exact .conditional hroot hcondition he
    · next hcondition => exact .unguarded hroot hcondition he
  · next relation left right hroot => exact .check hroot he
  · next hconditional hcomparison =>
    split at he
    · next hmix =>
      split at he
      · next hids =>
        obtain ⟨readings, hreadings, he⟩ := bind_eq_ok.1 he
        rw [← pure_eq_ok.1 he]
        exact .byRate hconditional hcomparison hmix hids hreadings
      · next hids =>
        exact .decided hconditional hcomparison hmix (Bool.eq_false_of_not_eq_true hids) he
    · next hmix => exact .plain hconditional hcomparison (Bool.eq_false_of_not_eq_true hmix) he

/-- An evaluation that succeeds has not run into a bound on combinations. -/
theorem evaluateReuse_eq_ok (h : evaluateReuse s root = .ok e) :
    ∃ groups, diceGroups s root = .ok groups ∧ reuseByGroups s groups root = .ok e := by
  obtain ⟨groups, hgroups, h⟩ := bind_eq_ok.1 h
  refine ⟨groups, hgroups, ?_⟩
  dsimp only at h
  split at h
  · cases h
  · split at h
    · cases h
    · exact h

/-! ## 3. All formulas -/

/-- How the two readings of a formula without references are mixed. -/
inductive MixtureRoute (s : Settings W) (root : Node) : Evaluation W → Prop
  /-- Marked dice decide, and the critical part is what the critical reading has beyond them. -/
  | decided {normal all low : Distribution W} (hmarks : root.hasCriticalDice = true)
      (hnormal : root.values s { restrictCritical := true } = .ok normal)
      (hall : root.values s { criticalBranch := true } = .ok all)
      (hlow : root.values s { criticalBranch := true, restrictCritical := true } = .ok low) :
      MixtureRoute s root (.mixture (.ofParts normal (all.subtract low)))
  /-- Where no dice decide, the rate does. -/
  | byRate {normal critical : Distribution W} (hmarks : root.hasCriticalDice = false)
      (hnormal : root.values s {} = .ok normal)
      (hcritical : root.values s { criticalBranch := true } = .ok critical) :
      MixtureRoute s root (.mixture (mixByRate s normal critical))

theorem mixtureRoute_of_ok (he : criticalMixture s root = .ok e) : MixtureRoute s root e := by
  unfold criticalMixture at he
  dsimp only at he
  split at he
  · next hmarks =>
    obtain ⟨normal, hnormal, he⟩ := bind_eq_ok.1 he
    obtain ⟨all, hall, he⟩ := bind_eq_ok.1 he
    obtain ⟨low, hlow, he⟩ := bind_eq_ok.1 he
    rw [← pure_eq_ok.1 he]
    exact .decided hmarks hnormal hall hlow
  · next hmarks =>
    obtain ⟨normal, hnormal, he⟩ := bind_eq_ok.1 he
    obtain ⟨critical, hcritical, he⟩ := bind_eq_ok.1 he
    rw [← pure_eq_ok.1 he]
    exact .byRate (Bool.eq_false_of_not_eq_true hmarks) hnormal hcritical

/-- How a formula is evaluated. -/
inductive Route (s : Settings W) (root : Node) (e : Evaluation W) : Prop
  /-- With dice in the registry, by the combinations of their values. -/
  | reuse {groups : List (DiceGroup W)} (hregistry : s.registry.isEmpty = false)
      (hgroups : diceGroups s root = .ok groups) (he : reuseByGroups s groups root = .ok e)
  /-- Without them, as a mixture of two readings if one is asked for. -/
  | mixture (hregistry : s.registry.isEmpty = true) (hmix : wantsMixture s root = true)
      (he : criticalMixture s root = .ok e)
  /-- And as it stands if not. -/
  | plain (hregistry : s.registry.isEmpty = true) (hmix : wantsMixture s root = false)
      (he : root.evaluate s {} = .ok e)

/-- **Every formula takes one of these routes.** -/
theorem route_of_ok (he : root.evaluateFormula s = .ok e) : Route s root e := by
  unfold Node.evaluateFormula at he
  split at he
  · next hregistry =>
    obtain ⟨groups, hgroups, he⟩ := evaluateReuse_eq_ok he
    exact .reuse (by simpa using hregistry) hgroups he
  · next hregistry =>
    have hempty : s.registry.isEmpty = true := by simpa using hregistry
    split at he
    · next hmix => exact .mixture hempty hmix he
    · next hmix => exact .plain hempty (Bool.eq_false_of_not_eq_true hmix) he

end DiceOdds
