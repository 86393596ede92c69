import DiceOdds.Report

/-!
# Reports as lines of text

A listing begins with the mean and the total, goes on with the weights of all values, and ends
with whatever the kind of the formula adds, each part below a heading of its own.
-/

namespace DiceOdds

variable {W : Type} [Weight W]

/-! ## 1. Lines -/

/-- A number with its name. -/
def namedLine (name : String) (w : W) : String := name ++ ": " ++ Weight.text w

/-- A heading over the lines that belong to it. -/
def headed (heading : String) (lines : List String) : List String :=
  heading :: lines.map ("  " ++ ·)

/-- The weight of each value. -/
def ValueMap.lines (m : ValueMap W) : List String :=
  m.toList.map fun (value, w) => namedLine value w

/-- The probability of each result of a check. -/
def CriticalSplit.lines (split : CriticalSplit W) : List String :=
  [namedLine "normal hit" split.normalHit, namedLine "critical hit" split.criticalHit,
    namedLine "miss" split.miss]

/-! ## 2. Nested conditions -/

/-- The branch that a step leads into. -/
def BranchStep.text : BranchStep → String
  | true => "true"
  | false => "false"
  | normalHit => "normal hit"
  | criticalHit => "critical hit"
  | miss => "miss"

/-- The place of a condition, the condition itself, and how likely it is reached and holds. -/
def NestedCondition.lines (n : NestedCondition W) : List String :=
  let place := String.intercalate " > " (n.path.map BranchStep.text ++ [n.condition])
  let shares := match n.critical with
    | some split => split.lines
    | none => []
  headed place ([namedLine "reached" n.parentProbability,
    namedLine "holds" n.successProbability, namedLine "fails" n.failureProbability] ++ shares)

/-- All conditions in the tree of branches. -/
def conditionLines (conditions : List (NestedCondition W)) : List String :=
  headed "conditions" (conditions.flatMap NestedCondition.lines)

/-! ## 3. Whole reports -/

/-- The part of a listing that depends on the kind of the formula. -/
def ReportDetail.lines : ReportDetail W → List String
  | values => []
  | check probability count split =>
    let shares := match split with
      | some split => headed "results" split.lines
      | none => []
    [namedLine "success probability" probability, namedLine "success count" count] ++ shares
  | conditional ifTrue ifFalse _ nested =>
    headed "if true" ifTrue.lines ++ headed "if false" ifFalse.lines ++ conditionLines nested
  | critical normalHit criticalHit miss probabilities _ nested =>
    headed "normal hit" normalHit.lines ++ headed "critical hit" criticalHit.lines
      ++ headed "miss" miss.lines ++ headed "results" probabilities.lines ++ conditionLines nested
  | mixture normalValues criticalValues normalProbability criticalProbability =>
    headed "normal" normalValues.lines ++ headed "critical" criticalValues.lines
      ++ [namedLine "normal probability" normalProbability,
        namedLine "critical probability" criticalProbability]

/-- The listing of a report. -/
def Report.lines (r : Report W) : List String :=
  [namedLine "average" r.average, namedLine "total" r.totalOutcomes]
    ++ headed "values" r.distribution.lines ++ r.detail.lines
    ++ if r.hasReuse then ["some dice are used more than once"] else []

end DiceOdds
