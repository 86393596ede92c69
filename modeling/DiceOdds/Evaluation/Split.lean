import DiceOdds.Evaluation.Walk

/-!
# Splitting a check into normal and critical hits

A hit is critical when one of the dice that decide about the check shows a critical face.

## Why a second evaluation finds the critical hits

Taking the arithmetic between a die and the compared value apart is not needed.  Evaluated once
more with every critical die limited to faces below the threshold, the comparison counts the
same elementary outcomes without those in which a critical face is shown.  What the full
evaluation has more are the critical hits.

Dice marked `D` decide; without any, the first dice literal does.  Keeping from a single pool of
critical dice has a closed form of its own: at least one of `n` dice is critical in a share
`1 - (1 - p) ^ n` of all rolls.
-/

namespace DiceOdds

variable {W : Type} [Weight W]

/-! ## 1. Dice that decide -/

/-- The two sides of a comparison with the deciding dice marked; nothing if there are no dice. -/
def decidingSides? (left right : Node) : Option (Node × Node) :=
  if left.hasCriticalDice || right.hasCriticalDice then some (left, right)
  else match left.markLeftmost? with
    | some left => some (left, right)
    | none => right.markLeftmost?.map (left, ·)

/-! ## 2. A pool of critical dice -/

/-- The dice of a keep whose only item is a pool of at least two critical dice. -/
def keptPool? (node : Node) : Option Dice :=
  match node.stripGroups with
  | .keep _ _ [item] => match item.stripGroups.literal? with
    | some d => if d.critical && 2 ≤ d.count.toNat then some d else none
    | none => none
  | _ => none

/-- The share of rolls in which at least one of these dice is critical. -/
def atLeastOneCritical (rate : W) (d : Dice) : W :=
  let sides := d.sides.toNat
  let perDie := ((next32 sides - criticalThreshold rate sides : Nat) : W) / ((sides : Nat) : W)
  1 - Weight.power (1 - perDie) d.count.toNat

/-- The split of a check that asks for a high value kept from a pool of critical dice: critical
rolls are hits, as far as there are hits. -/
def poolSplit? (rate : W) (relation : Relation) (left : Node) (check : Check W) :
    Option (CriticalSplit W) :=
  match relation with
  | .greater | .greaterEqual => (keptPool? left).map fun d =>
    let critical := Weight.smaller (check.total * atLeastOneCritical rate d) check.success
    .ofWeights (check.success - critical) critical check.failure
  | _ => none

/-! ## 3. Any check -/

/-- The split of a check by a second evaluation without critical faces. -/
def restrictedSplit (s : Settings W) (relation : Relation) (left right : Node) (ctx : Context)
    (check : Check W) : Except EvalError (CriticalSplit W) := do
  let lowLeft ← left.walk s noSplit ctx.restricted
  let lowRight ← right.walk s noSplit ctx.restricted
  let low ← orBlame (Check.compare relation lowLeft.distribution lowRight.distribution)
    fun _ => (Node.comparison relation left right).text
  let critical := Weight.larger (check.success - low.success) 0
  return .ofWeights low.success critical check.failure

/-- The split of a check; none without critical hits, and none without dice. -/
def splitCheck (s : Settings W) : SplitCheck W := fun relation left right ctx check =>
  match s.rate, decidingSides? left right with
  | some rate, some (left, right) =>
    match poolSplit? rate relation left check with
    | some split => .ok (some split)
    | none => do return some (← restrictedSplit s relation left right ctx check)
  | _, _ => .ok none

/-! ## 4. Evaluating with splits -/

/-- Evaluates a node, splitting checks into normal and critical hits. -/
def Node.evaluate (s : Settings W) (node : Node) (ctx : Context) :
    Except EvalError (Evaluation W) :=
  node.walk s (splitCheck s) ctx

/-- The distribution of the values of a node. -/
def Node.values (s : Settings W) (node : Node) (ctx : Context) :
    Except EvalError (Distribution W) := do
  return (← node.evaluate s ctx).distribution

/-- The weights with which a comparison holds and fails, without a split. -/
def compareNodes (s : Settings W) (relation : Relation) (left right : Node) (ctx : Context) :
    Except EvalError (Check W) := do
  let leftValues ← left.values s ctx
  let rightValues ← right.values s ctx
  orBlame (Check.compare relation leftValues rightValues)
    fun _ => (Node.comparison relation left right).text

end DiceOdds
