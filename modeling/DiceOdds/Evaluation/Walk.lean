import DiceOdds.Distribution.Clamp
import DiceOdds.Evaluation.Basic
import DiceOdds.Evaluation.Context

/-!
# Evaluating trees

`Node.walk` evaluates a node in a context.  Independent parts are combined as independent values;
a keep or a limit on each die acts on the single dice of a literal.

## Why the critical split is an argument

How a check splits into normal and critical hits is found out by evaluating the check once more,
with its critical dice limited to faces that are not critical.  In that second reading no check is
split again.  So the walk takes the split as an argument, `split`: the reading without critical
faces is a walk that never asks for it, and the full evaluation is a walk whose `split` is made
from that reading.  Each of them is a recursion on the tree alone.
-/

namespace DiceOdds

variable {W : Type} [Weight W]

/-! ## 1. Leaves -/

/-- One die of a literal. -/
def Settings.die (s : Settings W) (ctx : Context) (dice : Dice) (modifier : Option Modifier) :
    Except Exceeded (Distribution W) :=
  let accept := s.admits ctx dice
  let sides := dice.sides.toNat
  match modifier with
  | none => .ok (.ofFaces sides accept)
  | some (.reroll range limit) => Distribution.rerolled sides range limit.toNat accept
  | some (.exploding kind success explode limit) =>
    Distribution.exploding sides kind success explode limit.toNat accept

/-- One die of a literal in any number of parentheses, with the number of dice; nothing for other
nodes, and nothing for dice whose value is fixed. -/
def Node.die? (s : Settings W) (ctx : Context) :
    Node → Except EvalError (Option (Distribution W × Nat))
  | .dice d id modifier =>
    if ctx.pinned.isSome && id.isSome then .ok none
    else do
      let die ← orBlame (s.die ctx d modifier) fun _ => (Node.dice d id modifier).text
      return some (die, d.count.toNat)
  | .group inner => inner.die? s ctx
  | _ => .ok none

/-- One die of a literal that is the only item of a keep, with the number of dice: the keep chooses
from single dice.  Nothing if it chooses from the values of its items. -/
def onlyDie? (s : Settings W) (ctx : Context) :
    List Node → Except EvalError (Option (Distribution W × Nat))
  | [item] => item.die? s ctx
  | _ => .ok none

/-- A literal number. -/
def numberValue (value : Float) : Except EvalError (Distribution W) :=
  match Outcome.ofWeight? value with
  | some outcome => .ok (.point outcome 1)
  | none => .error (.overflow (Node.number value).text)

/-- A dice literal: the sum of its dice. -/
def Settings.roll (s : Settings W) (ctx : Context) (node : Node) :
    Except EvalError (Distribution W) := do
  match ← node.die? s ctx with
  | some (die, count) => orBlame (die.sumOfCopies count) fun _ => node.text
  | none => return .empty

/-- The value of the dice with this id, or another roll of such dice where nothing is fixed. -/
def Settings.reference (s : Settings W) (ctx : Context) (id : UInt32) (critical : Bool) :
    Except EvalError (Distribution W) :=
  if s.registry.isEmpty then .error (.referenceOutsideReuse id.toNat)
  else match s.registry.get? id.toNat, ctx.pinned with
  | none, _ => .error (.unresolvedReference id.toNat)
  | some _, some pins => match pins.lookup id.toNat with
    | some value => .ok (.point value 1)
    | none => .error (.unresolvedReference id.toNat)
  | some d, none =>
    orBlame (Distribution.dicePool d.count.toNat d.sides.toNat)
      fun _ => (Node.reference id critical).text

/-! ## 2. Limits on each die -/

/-- Dice with a fixed total, each limited by a threshold: all rolls with that total are possible.
Nothing if the node is no literal with a fixed value. -/
def Settings.clampPinned (s : Settings W) (ctx : Context) (name : FunctionName)
    (target : Node) (threshold : Outcome) : Except EvalError (Option (Distribution W)) :=
  match ctx.pinnedValue? target with
  | none => .ok none
  | some total => do
    match ← target.die? s ctx.unpinned with
    | none => return none
    | some (die, count) =>
      let total ← total
      let clamped ← orBlame (die.clampEachGivenTotal count name threshold total)
        fun _ => target.text
      return some clamped

/-- Single dice, each limited by a threshold.  Nothing if the function or the node is not about
single dice. -/
def Settings.clampEach (s : Settings W) (ctx : Context) (name : FunctionName)
    (target : Node) (threshold : Outcome) : Except EvalError (Option (Distribution W)) :=
  if name.perDie then do
    match ← s.clampPinned ctx name target threshold with
    | some clamped => return some clamped
    | none => match ← target.die? s ctx with
      | some (die, count) =>
        let sum ← orBlame ((die.clamp name threshold).sumOfCopies count) fun _ => target.text
        return some sum
      | none => return none
  else .ok none

/-- A threshold has to be a single value. -/
def constantThreshold (name : FunctionName) (threshold : Node) (values : Evaluation W) :
    Except EvalError Outcome :=
  match values.distribution.point? with
  | some bound => .ok bound
  | none => .error (.nonConstantThreshold name threshold.text)

/-! ## 3. Arithmetic -/

/-- One operation on two values; `part` names the formula for errors. -/
def Operation.apply (operation : Operation) (part : Unit → String) (a b : Outcome) :
    Except EvalError Outcome :=
  let result := match operation with
    | add => a.add? b
    | sub => a.sub? b
    | mul => a.mul? b
    | div => a.div? b
  match result with
  | some value => .ok value
  | none => match operation with
    | div => .error (.divisionByZero (part ()))
    | _ => .error (.overflow (part ()))

/-- The probability of a check times a value: the value, scaled by the probability. -/
def scaleByCheck (check : Check W) (other : Evaluation W) (part : Unit → String) :
    Except EvalError (Distribution W) :=
  let factor := check.successProbability
  other.distribution.tryMap fun value =>
    match Outcome.ofWeight? (value.toWeight * factor) with
    | some scaled => .ok scaled
    | none => .error (.overflow (part ()))

/-- One operation on two independent results. -/
def Evaluation.combine (operation : Operation) (left right : Evaluation W)
    (part : Unit → String) : Except EvalError (Distribution W) :=
  let independent : Except EvalError (Distribution W) := do
    let values ← left.distribution.combine right.distribution (operation.apply part)
    orBlame values.checkWeights part
  match operation, left, right with
  | .mul, .check result, other => scaleByCheck result other part
  | .mul, other, .check result => scaleByCheck result other part
  | _, _, _ => independent

/-- Twice the value of every outcome. -/
def Distribution.doubled (d : Distribution W) (part : Unit → String) :
    Except EvalError (Distribution W) :=
  d.tryMap fun value => match value.times? 2 with
    | some twice => .ok twice
    | none => .error (.overflow (part ()))

/-! ## 4. Conditionals -/

/-- The two branches of a conditional, mixed by the probability of its condition. -/
def ConditionalResult.ofBranches (mixing : Mixing) (condition : String) (check : Check W)
    (ifTrue ifFalse : Evaluation W) : ConditionalResult W :=
  let p := check.successProbability
  let yes := ifTrue.distribution
  let no := ifFalse.distribution
  let target := mixing.targetTotal check.total [yes.total, no.total]
  { combined := .mix [(p, yes), (1 - p, no)] target
    ifTrue := yes
    ifFalse := no
    condition := check
    nested := .root condition check :: (ifTrue.nestedUnder .true p
      ++ ifFalse.nestedUnder .false (1 - p)) }

/-- The three branches of a conditional with critical hits. -/
def CriticalResult.ofBranches (mixing : Mixing) (condition : String) (check : Check W)
    (split : CriticalSplit W) (normalHit criticalHit miss : Evaluation W) : CriticalResult W :=
  let normal := normalHit.distribution
  let critical := criticalHit.distribution
  let missed := miss.distribution
  let target := mixing.targetTotal check.total [normal.total, critical.total, missed.total]
  { combined := .mix [(split.normalHit, normal), (split.criticalHit, critical),
      (split.miss, missed)] target
    normalHit := normal
    criticalHit := critical
    miss := missed
    probabilities := split
    nested := .root condition check :: (normalHit.nestedUnder .normalHit split.normalHit
      ++ criticalHit.nestedUnder .criticalHit split.criticalHit
      ++ miss.nestedUnder .miss split.miss) }

/-! ## 5. The walk -/

/-- How a check splits into normal and critical hits, given the check as a whole. -/
abbrev SplitCheck (W : Type) :=
  Relation → Node → Node → Context → Check W → Except EvalError (Option (CriticalSplit W))

/-- No check is split. -/
def noSplit : SplitCheck W := fun _ _ _ _ _ => .ok none

namespace Node

mutual

/-- Evaluates a node. -/
def walk (s : Settings W) (split : SplitCheck W) : Node → Context → Except EvalError (Evaluation W)
  | node, ctx =>
    match ctx.pinnedValue? node with
    | some value => do return .plain (.point (← value) 1)
    | none => match node with
      | number value => do return .plain (← numberValue value)
      | dice d id modifier => do return .plain (← s.roll ctx (dice d id modifier))
      | reference id critical => do return .plain (← s.reference ctx id critical)
      | keep kind count items => do
        let values ← match ← onlyDie? s ctx items with
          | some (die, copies) => pure (List.replicate copies die)
          | none => walkAll s split items ctx
        let kept ← orBlame (Distribution.keep values count.toNat kind)
          fun _ => (keep kind count items).text
        return .plain kept
      | comparison relation left right => do
        let leftValues ← left.walk s split ctx
        let rightValues ← right.walk s split ctx
        let check ← orBlame
          (Check.compare relation leftValues.distribution rightValues.distribution)
          fun _ => (comparison relation left right).text
        if s.rate.isSome && ctx.pinned.isNone && !ctx.restrictCritical then
          let critical ← split relation left right ctx check
          return .check { check with critical }
        else return .check check
      | conditional condition ifTrue ifFalse =>
        if condition.isComparison then do
          match ← condition.walk s split ctx with
          | .check check => match check.critical with
            | some shares =>
              let normalHit ← ifTrue.walk s split (ctx.critical false)
              let criticalHit ← ifTrue.walk s split (ctx.critical true)
              let miss ← ifFalse.walk s split ctx
              return .critical
                (.ofBranches s.mixing condition.text check shares normalHit criticalHit miss)
            | none =>
              let yes ← ifTrue.walk s split ctx
              let no ← ifFalse.walk s split ctx
              return .conditional (.ofBranches s.mixing condition.text check yes no)
          -- a comparison evaluates to a check, so nothing else can come out
          | _ => .error (.conditionNotComparison condition.text)
        else .error (.conditionNotComparison condition.text)
      | binary operation left right => do
        let leftValues ← left.walk s split ctx
        let rightValues ← right.walk s split ctx
        return .plain (← leftValues.combine operation rightValues
          fun _ => (binary operation left right).text)
      | double inner => do
        let values ← inner.walk s split ctx
        if ctx.criticalBranch then
          return .plain (← values.distribution.doubled fun _ => (double inner).text)
        else return .plain values.distribution
      | switch normal critical => do
        if ctx.criticalBranch then return .plain (← critical.walk s split ctx).distribution
        else return .plain (← normal.walk s split ctx).distribution
      | only inner => do
        if ctx.criticalBranch then return .plain (← inner.walk s split ctx).distribution
        else return .plain (.point 0 1)
      | function name args => match args with
        | [target, threshold] => do
          let bound ← constantThreshold name threshold (← threshold.walk s split ctx)
          match ← s.clampEach ctx name target bound with
          | some clamped => return .plain clamped
          | none => return .plain ((← target.walk s split ctx).distribution.clamp name bound)
        | _ => .error (.nonConstantThreshold name "")
      | group inner => inner.walk s split ctx

/-- Evaluates a list of nodes, from the left. -/
def walkAll (s : Settings W) (split : SplitCheck W) :
    List Node → Context → Except EvalError (List (Distribution W))
  | [], _ => .ok []
  | node :: rest, ctx => do
    let first ← node.walk s split ctx
    let others ← walkAll s split rest ctx
    return first.distribution :: others

end

end Node

end DiceOdds
