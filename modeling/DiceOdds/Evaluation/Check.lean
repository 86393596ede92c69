import DiceOdds.Distribution.Basic
import DiceOdds.Formula.Operator

/-!
# Checks

A comparison is a check: it succeeds with some weight and fails with some weight.  With critical
hits a success is either a normal or a critical hit, and the split says how likely each is.
-/

namespace DiceOdds

variable {W : Type} [Weight W]

/-- The probabilities of the three results of a check; they sum to `1`. -/
structure CriticalSplit (W : Type) where
  normalHit : W
  criticalHit : W
  miss : W

/-- The shares of three weights in their sum; all are `0` if the sum is. -/
def CriticalSplit.ofWeights (normal critical miss : W) : CriticalSplit W :=
  let total := normal + critical + miss
  if total == 0 then ⟨0, 0, 0⟩ else ⟨normal / total, critical / total, miss / total⟩

/-- The weights with which a comparison holds and fails. -/
structure Check (W : Type) where
  success : W
  failure : W
  critical : Option (CriticalSplit W) := none

namespace Check

/-- All weight there is. -/
def total (c : Check W) : W := c.success + c.failure

/-- The share of a weight in the total; `0` if the total is. -/
def share (c : Check W) (weight : W) : W := if c.total == 0 then 0 else weight / c.total

/-- The probability that the comparison holds. -/
def successProbability (c : Check W) : W := c.share c.success

/-- The probability that the comparison fails. -/
def failureProbability (c : Check W) : W := c.share c.failure

/-- Success as `1`, failure as `0`. -/
def distribution (c : Check W) : Distribution W := .bernoulli c.success c.failure

/-- Counts one more case. -/
def count (c : Check W) (holds : Bool) (weight : W) : Check W :=
  if holds then { c with success := c.success + weight }
  else { c with failure := c.failure + weight }

/-- Compares two independent values.  If one of them is fixed, only the other one is gone
through. -/
def compare (relation : Relation) (left right : Distribution W) : Except Exceeded (Check W) :=
  let start : Check W := { success := 0, failure := 0 }
  let result := match right.point?, left.point? with
    | some b, _ =>
      let scale := right.total
      left.toList.foldl (fun c (a, w) => c.count (relation.holds a b) (w * scale)) start
    | none, some a =>
      let scale := left.total
      right.toList.foldl (fun c (b, w) => c.count (relation.holds a b) (w * scale)) start
    | none, none =>
      let others := right.toList
      left.toList.foldl (fun c (a, wa) => others.foldl (fun c (b, wb) =>
        c.count (relation.holds a b) (wa * wb)) c) start
  if Weight.isFinite result.total then .ok result else .error .weight

end Check

end DiceOdds
