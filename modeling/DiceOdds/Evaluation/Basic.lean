import DiceOdds.Evaluation.Check

/-!
# Evaluations

The evaluation of a formula is a distribution, and more than that if the formula is a check, a
conditional or a mixture of normal and critical hits: then the parts are kept beside the whole.

Conditionals nested in the branches of another one form a tree.  It is given as a list of entries,
each with the path that leads to it and the probability of getting there.
-/

namespace DiceOdds

variable {W : Type} [Weight W]

/-! ## 1. Nested conditions -/

/-- One step from a conditional into one of its branches. -/
inductive BranchStep where
  | true
  | false
  | normalHit
  | criticalHit
  | miss
deriving DecidableEq, Repr, Ord

/-- A condition somewhere in the tree of branches. -/
structure NestedCondition (W : Type) where
  condition : String
  level : Nat
  path : List BranchStep
  successProbability : W
  failureProbability : W
  /-- The probability of reaching this condition at all. -/
  parentProbability : W
  critical : Option (CriticalSplit W)

namespace NestedCondition

/-- The entry for a condition that is always reached. -/
def root (condition : String) (check : Check W) : NestedCondition W where
  condition
  level := 0
  path := []
  successProbability := check.successProbability
  failureProbability := check.failureProbability
  parentProbability := 1
  critical := check.critical

/-- The entry seen from one level further up, below a branch taken with probability `reach`. -/
def under (entry : NestedCondition W) (step : BranchStep) (reach : W) : NestedCondition W :=
  { entry with
    level := entry.level + 1
    path := step :: entry.path
    parentProbability := entry.parentProbability * reach }

end NestedCondition

/-! ## 2. Results -/

/-- The result of a conditional. -/
structure ConditionalResult (W : Type) where
  combined : Distribution W
  ifTrue : Distribution W
  ifFalse : Distribution W
  condition : Check W
  nested : List (NestedCondition W)

/-- The result of a conditional whose hits are normal or critical. -/
structure CriticalResult (W : Type) where
  combined : Distribution W
  normalHit : Distribution W
  criticalHit : Distribution W
  miss : Distribution W
  probabilities : CriticalSplit W
  nested : List (NestedCondition W)

/-- The result of a formula without a check, once as it is and once on a critical hit. -/
structure MixtureResult (W : Type) where
  combined : Distribution W
  normal : Distribution W
  critical : Distribution W
  normalProbability : W
  criticalProbability : W

/-- What a formula amounts to. -/
inductive Evaluation (W : Type) where
  | plain (values : Distribution W)
  | check (result : Check W)
  | conditional (result : ConditionalResult W)
  | critical (result : CriticalResult W)
  | mixture (result : MixtureResult W)

namespace Evaluation

/-- The distribution of all values. -/
def distribution : Evaluation W → Distribution W
  | plain values => values
  | check result => result.distribution
  | conditional result => result.combined
  | critical result => result.combined
  | mixture result => result.combined

/-- The conditions in the tree of branches. -/
def nested : Evaluation W → List (NestedCondition W)
  | conditional result => result.nested
  | critical result => result.nested
  | _ => []

/-- The value of a plain result with only one value. -/
def point? : Evaluation W → Option Outcome
  | plain values => values.point?
  | _ => none

/-- The conditions of a branch, seen from the conditional that it belongs to. -/
def nestedUnder (branch : Evaluation W) (step : BranchStep) (reach : W) :
    List (NestedCondition W) :=
  branch.nested.map fun entry => entry.under step reach

end Evaluation

/-- The result for parts that count the same elementary outcomes. -/
def MixtureResult.ofParts (normal critical : Distribution W) : MixtureResult W :=
  let combined := normal.addScaled critical 1
  let total := combined.total
  let probability := if total == 0 then 0 else critical.total / total
  { combined, normal, critical, normalProbability := 1 - probability,
    criticalProbability := probability }

end DiceOdds
