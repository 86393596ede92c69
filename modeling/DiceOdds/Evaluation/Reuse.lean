import DiceOdds.Evaluation.Split

/-!
# Formulas that use a value more than once

A reference makes two parts of a formula depend on the same dice, so they cannot be combined as
independent values.  Instead the dice of every literal are fixed to each of their values in turn,
and the formula is evaluated for every combination.

## Why values and not faces are fixed

A formula sees a group of dice only through the value of the node that defines it: the literal
with its modifier, or the keep around it.  That node's own distribution counts the rolls behind
each value.  So a combination of values weighs as much as the product of their weights, and what
the formula makes of it counts that much.  What is left open inside a combination, such as the
single dice of a pool with a limit on each, is scaled to the weight of the combination.
-/

namespace DiceOdds

variable {W : Type} [Weight W]

/-! ## 1. Combinations -/

/-- A group of dice: its id and the distribution of its value. -/
abbrev DiceGroup (W : Type) := Nat × Distribution W

/-- The distribution of the node that defines the dice with an id. -/
def groupValues (s : Settings W) (root : Node) (id : Nat) (d : Dice) :
    Except EvalError (DiceGroup W) := do
  match root.definition? id with
  | some node => return (id, ← node.values s {})
  | none =>
    let pool ← orBlame (Distribution.dicePool d.count.toNat d.sides.toNat)
      fun _ => toString d.count.toNat ++ "d" ++ toString d.sides.toNat
    return (id, pool)

/-- All groups of dice that the registry names. -/
def diceGroups (s : Settings W) (root : Node) : Except EvalError (List (DiceGroup W)) :=
  s.registry.withIds.mapM fun (id, d) => groupValues s root id d

/-- Goes through all combinations of values, the last group fastest.  `visit` gets the fixed
values and the weight of the combination. -/
def forCombinations {σ : Type} (visit : σ → Pins → W → Except EvalError σ) :
    List (DiceGroup W) → Pins → W → σ → Except EvalError σ
  | [], pins, weight, state => visit state pins weight
  | (id, values) :: rest, pins, weight, state =>
    values.toList.foldlM (fun state (value, w) =>
      forCombinations visit rest ((id, value) :: pins) (weight * w) state) state

/-! ## 2. Critical combinations -/

/-- The ids of the dice that decide about critical hits: the critical ones, or else the first
one; none without critical hits. -/
def decidingIds (s : Settings W) (node : Node) : List Nat :=
  if s.rate.isNone then []
  else if node.criticalIds.isEmpty then node.leftmostId?.toList
  else node.criticalIds

/-- Whether all deciding dice have values at or above their thresholds. -/
def isCriticalCombination (s : Settings W) (ids : List Nat) (pins : Pins) : Bool :=
  match s.rate with
  | none => false
  | some rate => !ids.isEmpty && ids.all fun id =>
    match s.registry.get? id, pins.lookup id with
    | some d, some value => Outcome.ofInt (criticalThreshold rate d.sides.toNat) ≤ value
    | _, _ => false

/-! ## 3. Adding up -/

/-- Adds a distribution, scaled so that it counts `weight` in total. -/
def Distribution.addWeighted (sum d : Distribution W) (weight : W) : Distribution W :=
  let total := d.total
  if 0 < total then sum.addScaled d (weight / total) else sum

/-- The conditions nested in one place of the tree of branches, over all combinations. -/
structure NestedEntry (W : Type) where
  level : Nat
  /-- The weight of the combinations that reach the condition. -/
  reach : W
  /-- The weight of those in which it holds. -/
  success : W

/-- A place in the tree of branches, with the condition that stands there. -/
structure NestedKey where
  path : List BranchStep
  condition : String

instance : Ord NestedKey := ⟨compareLex (compareOn NestedKey.path) (compareOn NestedKey.condition)⟩

/-- All nested conditions, by place. -/
abbrev NestedTally (W : Type) := Std.TreeMap NestedKey (NestedEntry W)

/-- Counts one condition of a branch of weight `weight`. -/
def addNestedEntry (step : BranchStep) (weight : W) (tally : NestedTally W)
    (entry : NestedCondition W) : NestedTally W :=
  let below := entry.under step 1
  let reach := weight * entry.parentProbability
  tally.alter ⟨below.path, below.condition⟩ fun old =>
    let old := old.getD ⟨0, 0, 0⟩
    some ⟨below.level, old.reach + reach, old.success + reach * entry.successProbability⟩

/-- Counts the conditions of a branch of weight `weight`. -/
def addNested (tally : NestedTally W) (branch : Evaluation W) (step : BranchStep) (weight : W) :
    NestedTally W :=
  branch.nested.foldl (addNestedEntry step weight) tally

/-- The condition at one place, over combinations of the weight `total`. -/
def NestedEntry.condition (total : W) (key : NestedKey) (entry : NestedEntry W) :
    NestedCondition W :=
  let success := if entry.reach == 0 then 0 else entry.success / entry.reach
  { condition := key.condition
    level := entry.level
    path := key.path
    successProbability := success
    failureProbability := 1 - success
    parentProbability := if total == 0 then 0 else entry.reach / total
    critical := none }

/-- All nested conditions in the order of their places. -/
def nestedConditions (tally : NestedTally W) (total : W) : List (NestedCondition W) :=
  tally.toList.map fun (key, entry) => entry.condition total key

/-! ## 4. Checks -/

/-- What the combinations so far amount to in a check. -/
structure HitTally (W : Type) where
  success : W
  failure : W
  /-- The part of the success in critical combinations. -/
  criticalSuccess : W

namespace HitTally

/-- Nothing counted yet. -/
def start : HitTally W := ⟨0, 0, 0⟩

/-- Counts one combination. -/
def count (t : HitTally W) (holds critical : Bool) (weight : W) : HitTally W :=
  if holds then
    { t with
      success := t.success + weight
      criticalSuccess := if critical then t.criticalSuccess + weight else t.criticalSuccess }
  else { t with failure := t.failure + weight }

/-- The whole check, split if there are dice that decide. -/
def check (t : HitTally W) (ids : List Nat) : Check W where
  success := t.success
  failure := t.failure
  critical := if ids.isEmpty then none
    else some (.ofWeights (t.success - t.criticalSuccess) t.criticalSuccess t.failure)

end HitTally

/-- Whether the comparison can hold with the fixed values. -/
def holdsPinned (s : Settings W) (relation : Relation) (left right : Node) (pins : Pins) :
    Except EvalError Bool := do
  let check ← compareNodes s relation left right { pinned := some pins }
  return 0 < check.success

/-- A formula that is a comparison. -/
def reuseCheck (s : Settings W) (groups : List (DiceGroup W)) (root : Node) (relation : Relation)
    (left right : Node) : Except EvalError (Evaluation W) := do
  let ids := decidingIds s root
  let tally ← forCombinations (fun (t : HitTally W) pins weight => do
    let holds ← holdsPinned s relation left right pins
    return t.count holds (isCriticalCombination s ids pins) weight) groups [] 1 .start
  return .check (tally.check ids)

/-! ## 5. Conditionals -/

/-- What the combinations so far amount to in a conditional. -/
structure BranchTally (W : Type) where
  hits : HitTally W
  normalHit : Distribution W
  criticalHit : Distribution W
  miss : Distribution W
  nested : NestedTally W

namespace BranchTally

/-- Nothing counted yet. -/
def start : BranchTally W := ⟨.start, .empty, .empty, .empty, ∅⟩

/-- The step to the branch for a hit. -/
def hitStep (ids : List Nat) (critical : Bool) : BranchStep :=
  if ids.isEmpty then .true else if critical then .criticalHit else .normalHit

/-- The step to the branch for a miss. -/
def missStep (ids : List Nat) : BranchStep := if ids.isEmpty then .false else .miss

/-- Counts a combination in which the condition holds. -/
def addHit (t : BranchTally W) (ids : List Nat) (critical : Bool) (branch : Evaluation W)
    (weight : W) : BranchTally W :=
  let t := { t with
    hits := t.hits.count true critical weight
    nested := addNested t.nested branch (hitStep ids critical) weight }
  if critical then { t with criticalHit := t.criticalHit.addWeighted branch.distribution weight }
  else { t with normalHit := t.normalHit.addWeighted branch.distribution weight }

/-- Counts a combination in which the condition fails. -/
def addMiss (t : BranchTally W) (ids : List Nat) (branch : Evaluation W) (weight : W) :
    BranchTally W :=
  { t with
    hits := t.hits.count false false weight
    nested := addNested t.nested branch (missStep ids) weight
    miss := t.miss.addWeighted branch.distribution weight }

/-- The whole conditional.  Scaled values sum to whole weights up to rounding errors, so they are
rounded at the end. -/
def evaluation (t : BranchTally W) (ids : List Nat) (condition : Node) : Evaluation W :=
  let check := t.hits.check ids
  let nested := .root condition.text check :: nestedConditions t.nested check.total
  let normalHit := t.normalHit.rounded
  let criticalHit := t.criticalHit.rounded
  let miss := t.miss.rounded
  let combined := (normalHit.addScaled criticalHit 1).addScaled miss 1
  match check.critical with
  | some probabilities =>
    .critical { combined, normalHit, criticalHit, miss, probabilities, nested }
  | none =>
    .conditional { combined, ifTrue := normalHit, ifFalse := miss, condition := check, nested }

end BranchTally

/-- A formula that is a conditional. -/
def reuseConditional (s : Settings W) (groups : List (DiceGroup W))
    (condition ifTrue ifFalse : Node) (relation : Relation) (left right : Node) :
    Except EvalError (Evaluation W) := do
  let ids := decidingIds s condition
  let tally ← forCombinations (fun (t : BranchTally W) pins weight => do
    let ctx : Context := { pinned := some pins }
    if ← holdsPinned s relation left right pins then
      let critical := isCriticalCombination s ids pins
      let branch ← ifTrue.evaluate s (ctx.critical critical)
      return t.addHit ids critical branch weight
    else
      let branch ← ifFalse.evaluate s ctx
      return t.addMiss ids branch weight) groups [] 1 .start
  return tally.evaluation ids condition

/-! ## 6. Values -/

/-- A formula without critical hits. -/
def reusePlain (s : Settings W) (groups : List (DiceGroup W)) (root : Node) :
    Except EvalError (Evaluation W) := do
  let sum ← forCombinations (fun (sum : Distribution W) pins weight => do
    return sum.addWeighted (← root.values s { pinned := some pins }) weight) groups [] 1 .empty
  return .plain sum.rounded

/-- A formula whose critical hits are decided by its dice. -/
def reuseSplit (s : Settings W) (groups : List (DiceGroup W)) (root : Node) (ids : List Nat) :
    Except EvalError (Evaluation W) := do
  let (normal, critical) ← forCombinations
    (fun (sums : Distribution W × Distribution W) pins weight => do
      let isCritical := isCriticalCombination s ids pins
      let values ← root.values s { pinned := some pins, criticalBranch := isCritical }
      return if isCritical then (sums.1, sums.2.addWeighted values weight)
        else (sums.1.addWeighted values weight, sums.2)) groups [] 1 (.empty, .empty)
  return .mixture (.ofParts normal.rounded critical.rounded)

/-- The normal and the critical reading of a formula whose critical hits no die decides. -/
def reuseReadings (s : Settings W) (groups : List (DiceGroup W)) (root : Node) :
    Except EvalError (Distribution W × Distribution W) :=
  forCombinations (fun (sums : Distribution W × Distribution W) pins weight => do
    let ctx : Context := { pinned := some pins }
    let normal ← root.values s ctx
    let critical ← root.values s (ctx.critical true)
    return (sums.1.addWeighted normal weight, sums.2.addWeighted critical weight))
    groups [] 1 (.empty, .empty)

end DiceOdds
