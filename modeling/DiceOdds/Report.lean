import DiceOdds.Evaluation.OfFormula

/-!
# Reports

A report is what a calculation answers: the weights of all values by their texts, with their mean
and their total, and beside them whatever the kind of the formula adds.
-/

namespace DiceOdds

variable {W : Type} [Weight W]

/-! ## 1. Options -/

/-- How a formula is to be calculated. -/
structure Options (W : Type) where
  /-- Whether there are critical hits. -/
  criticalEnabled : Bool := false
  /-- The rate of critical hits in percent. -/
  criticalRate : W
  /-- Whether mixtures are brought to a total that needs no rounding. -/
  exactMixing : Bool := false

namespace Options

/-- No critical hits; mixtures are rounded.  The rate is `5` wherever nothing else is said. -/
def standard : Options W := { criticalRate := ((5 : Nat) : W) }

/-- Whether the rate is a percentage. -/
def hasValidRate (o : Options W) : Bool :=
  let hundred : W := ((100 : Nat) : W)
  Weight.isFinite o.criticalRate && !decide (o.criticalRate < 0)
    && !decide (hundred < o.criticalRate)

/-- The settings for a formula with these dice. -/
def settings (o : Options W) (registry : Registry) : Settings W where
  registry
  rate := if o.criticalEnabled then some o.criticalRate else none
  mixing := if o.exactMixing then .exact else .rounded

end Options

/-! ## 2. The report -/

/-- Weights by the texts of their values. -/
abbrev ValueMap (W : Type) := Std.TreeMap String W

/-- What the kind of a formula adds to its report. -/
inductive ReportDetail (W : Type) where
  | values
  /-- A check: how likely and with which weight it succeeds, and the split into critical hits. -/
  | check (successProbability successCount : W) (probabilities : Option (CriticalSplit W))
  | conditional (ifTrue ifFalse : ValueMap W) (condition : Option String)
      (nested : List (NestedCondition W))
  | critical (normalHit criticalHit miss : ValueMap W) (probabilities : CriticalSplit W)
      (condition : Option String) (nested : List (NestedCondition W))
  | mixture (normal critical : ValueMap W) (normalProbability criticalProbability : W)

/-- The answer to a calculation. -/
structure Report (W : Type) where
  distribution : ValueMap W
  average : W
  /-- The number of equally likely outcomes behind the distribution. -/
  totalOutcomes : W
  detail : ReportDetail W
  /-- Whether the formula uses a value more than once. -/
  hasReuse : Bool

namespace Report

/-- A report with the mean and the total of a distribution. -/
def ofValues (values : Distribution W) (detail : ReportDetail W) (hasReuse : Bool) : Report W where
  distribution := values.record
  average := values.average
  totalOutcomes := values.total
  detail
  hasReuse

/-- The condition of a formula that is a conditional. -/
def conditionText? (root : Node) : Option String :=
  match root.stripGroups with
  | .conditional condition _ _ => some condition.text
  | _ => none

/-- The report on the evaluation of a formula. -/
def ofEvaluation (formula : Formula) (evaluation : Evaluation W) : Report W :=
  let reuse := formula.hasReuse
  let condition := conditionText? formula.root
  match evaluation with
  | .plain values => ofValues values .values reuse
  | .check c =>
    { distribution := c.distribution.record
      average := c.successProbability
      totalOutcomes := c.total
      detail := .check c.successProbability c.success c.critical
      hasReuse := reuse }
  | .conditional c =>
    ofValues c.combined (.conditional c.ifTrue.record c.ifFalse.record condition c.nested) reuse
  | .critical c =>
    ofValues c.combined (.critical c.normalHit.record c.criticalHit.record c.miss.record
      c.probabilities condition c.nested) reuse
  | .mixture m =>
    ofValues m.combined (.mixture m.normal.record m.critical.record m.normalProbability
      m.criticalProbability) reuse

end Report

/-! ## 3. The calculation -/

/-- Evaluates a formula under the given options; a total that is not finite is an error. -/
def Formula.evaluate (formula : Formula) (options : Options W) :
    Except EvalError (Evaluation W) := do
  let evaluation ← formula.root.evaluateFormula (options.settings formula.registry)
  if Weight.isFinite evaluation.distribution.total then return evaluation
  else throw (.weightOverflow formula.root.text)

/-- Calculates the distribution of a formula. -/
def calculate (text : String) (options : Options W) : Except CalcError (Report W) := do
  if !options.hasValidRate then throw (.invalidRate (Weight.text options.criticalRate))
  let formula ← Formula.ofText text
  match formula.evaluate options with
  | .ok evaluation => return .ofEvaluation formula evaluation
  | .error e => throw (.eval e)

end DiceOdds
