import DiceOdds.Dice
import DiceOdds.Distribution.Sum

/-!
# Keeping the highest or the lowest

The sum of the `count` highest (or lowest) of several independent values.

## Why the kept values are all the state

Values are taken in one after the other.  Whatever comes later, a value that is not among the
`count` best so far is not among the `count` best in the end.  So a partial result is remembered
as the ascending list of its best values, and all ways to reach one list share one weight.  The
number of such lists is bounded; past the bound the computation gives up.
-/

namespace DiceOdds.Distribution

variable {W : Type} [Weight W]

/-- How many partial results keeping may need. -/
def greatestKeepStates : Nat := 250000

/-- Puts a value into an ascending list, before the first one that is not less. -/
def insertAscending (value : Outcome) : List Outcome → List Outcome
  | [] => [value]
  | first :: rest =>
    if first < value then first :: insertAscending value rest else value :: first :: rest

/-- Takes in one value and forgets the worst one if there are too many. -/
def keepValue (kind : KeepKind) (count : Nat) (kept : List Outcome) (value : Outcome) :
    List Outcome :=
  let grown := insertAscending value kept
  if grown.length ≤ count then grown
  else match kind with
    | .highest => grown.tail
    | .lowest => grown.dropLast

/-- Partial results: ascending lists of kept values with their weights. -/
abbrev KeepStates (W : Type) := Std.TreeMap (List Outcome) W

/-- Takes in each value of one item, after one partial result. -/
def keepEach (kind : KeepKind) (count : Nat) (item : List (Outcome × W)) (states : KeepStates W)
    (kept : List Outcome) (weight : W) : KeepStates W :=
  item.foldl (fun states (value, w) =>
    states.alter (keepValue kind count kept value)
      fun old => some (old.getD 0 + weight * w)) states

/-- Takes in one item after all partial results. -/
def keepItem (kind : KeepKind) (count : Nat) (states : KeepStates W) (item : Distribution W) :
    Except Exceeded (KeepStates W) :=
  let values := item.toList
  states.toList.foldlM (fun next (kept, weight) =>
    let next := keepEach kind count values next kept weight
    if greatestKeepStates < next.size then .error .keepStates else .ok next) ∅

/-- The sum of kept values, if all its partial sums lie on the grid. -/
def sumKept? (kept : List Outcome) : Option Outcome := kept.foldlM Outcome.add? 0

/-- The distribution of the sums of all partial results. -/
def ofKeepStates (states : KeepStates W) : Except Exceeded (Distribution W) :=
  states.toList.foldlM (fun out (kept, weight) => match sumKept? kept with
    | some sum => .ok (out.add sum weight)
    | none => .error .value) empty

/-- The sum of the `count` highest or lowest values of independent items. -/
def keep (items : List (Distribution W)) (count : Nat) (kind : KeepKind) :
    Except Exceeded (Distribution W) := do
  if items.length ≤ count then
    items.foldlM convolve (point 0 1)
  else
    let states ← items.foldlM (keepItem kind count) (Std.TreeMap.empty.insert [] 1)
    (← ofKeepStates states).checkWeights

end DiceOdds.Distribution
