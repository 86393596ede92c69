import DiceOdds.Evaluation.Reuse

/-!
# Evaluating whole formulas

A formula is evaluated in one of three ways: by combinations of dice values if it refers to dice,
as a mixture of its normal and its critical reading if it says what happens on a critical hit
without being a check itself, and as an ordinary tree otherwise.

## Why there are two kinds of mixtures

Where dice marked `D` decide, both readings count the same rolls: the normal one those without a
critical face, the critical one those with at least one.  Where no die decides, only the rate is
known, and the two readings are mixed by it.
-/

namespace DiceOdds

variable {W : Type} [Weight W]

/-! ## 1. Mixtures -/

/-- Whether critical hits are on and the formula says what happens on one, outside of a check. -/
def wantsMixture (s : Settings W) (root : Node) : Bool :=
  s.rate.isSome && root.hasCriticalWrapper && match root.stripGroups with
    | .comparison .. | .conditional .. => false
    | _ => true

/-- The total over which two readings are mixed by the rate: a common multiple of a hundred and of
their totals, or a hundred times the greater one. -/
def rateTotal (normal critical : Distribution W) : W :=
  let hundred : W := ((100 : Nat) : W)
  let exact := Mixing.exact.targetTotal hundred [normal.total, critical.total]
  if hundred < exact then exact else hundred * Weight.larger normal.total critical.total

/-- Two readings mixed by the rate of critical hits. -/
def mixByRate (s : Settings W) (normal critical : Distribution W) : MixtureResult W :=
  let p := match s.rate with
    | some rate => rateProbability rate
    | none => 0
  { combined := .mix [(1 - p, normal), (p, critical)] (rateTotal normal critical)
    normal
    critical
    normalProbability := 1 - p
    criticalProbability := p }

/-- A formula without references that says what happens on a critical hit. -/
def criticalMixture (s : Settings W) (root : Node) : Except EvalError (Evaluation W) := do
  let ctx : Context := {}
  if root.hasCriticalDice then
    let normal ← root.values s ctx.restricted
    let all ← root.values s (ctx.critical true)
    let low ← root.values s (ctx.critical true).restricted
    return .mixture (.ofParts normal (all.subtract low))
  else
    let normal ← root.values s ctx
    let critical ← root.values s (ctx.critical true)
    return .mixture (mixByRate s normal critical)

/-! ## 2. References -/

/-- A formula with references, by combinations of the values of its groups. -/
def reuseByGroups (s : Settings W) (groups : List (DiceGroup W)) (root : Node) :
    Except EvalError (Evaluation W) :=
  match root.stripGroups with
  | .conditional condition ifTrue ifFalse => match condition.comparison? with
    | some (relation, left, right) =>
      reuseConditional s groups condition ifTrue ifFalse relation left right
    | none => reusePlain s groups root
  | .comparison relation left right => reuseCheck s groups root relation left right
  | _ =>
    if wantsMixture s root then
      if root.criticalIds.isEmpty then do
        let (normal, critical) ← reuseReadings s groups root
        return .mixture (mixByRate s normal critical)
      else reuseSplit s groups root root.criticalIds
    else reusePlain s groups root

/-- The number of combinations, as a double: the product may be too large for anything else. -/
def combinationCount (groups : List (DiceGroup W)) : Float :=
  Weight.product (groups.map fun (_, values) => (values.size : Float))

/-- A formula with references, if there are not too many combinations to go through. -/
def evaluateReuse (s : Settings W) (root : Node) : Except EvalError (Evaluation W) := do
  let groups ← diceGroups s root
  let count := combinationCount groups
  if (greatestCombinations : Float) < count then throw (.tooManyCombinations count)
  if !Weight.isFinite (Weight.product (groups.map fun (_, values) => values.total)) then
    throw (.weightOverflow root.text)
  reuseByGroups s groups root

/-! ## 3. All formulas -/

/-- Evaluates a whole formula.  The settings hold its registry. -/
def Node.evaluateFormula (s : Settings W) (root : Node) : Except EvalError (Evaluation W) :=
  if !s.registry.isEmpty then evaluateReuse s root
  else if wantsMixture s root then criticalMixture s root
  else root.evaluate s {}

end DiceOdds
