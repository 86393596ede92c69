import DiceOdds.Distribution.Die

/-!
# Lower and upper limits

`clamp` limits a value by a threshold.  `clampEachGivenTotal` limits each of several dice whose
total is already known.

## Why sums that cannot reach the total are dropped early

A known total leaves many rolls open, and each of them may have another clamped sum.  So rolls
are followed die by die as pairs of the plain and the clamped sum.  With the least and the
greatest face of the dice still to come, a plain sum has bounds; if they exclude the total the
pair is dropped.  A bound off the grid excludes nothing.
-/

namespace DiceOdds

/-- The value as limited by the threshold. -/
def FunctionName.clamp (name : FunctionName) (threshold value : Outcome) : Outcome :=
  match name with
  | min | minEach => Min.min value threshold
  | max | maxEach => Max.max value threshold

namespace Distribution

variable {W : Type} [Weight W]

/-- Limits every outcome by the threshold. -/
def clamp (d : Distribution W) (name : FunctionName) (threshold : Outcome) : Distribution W :=
  d.map (name.clamp threshold)

/-! ## Dice with a known total -/

/-- The plain and the clamped sum of the dice so far. -/
structure Sums where
  plain : Outcome
  clamped : Outcome

instance : Ord Sums := ⟨compareLex (compareOn Sums.plain) (compareOn Sums.clamped)⟩

/-- Whether `remaining` further dice between `low` and `high` can lead from `sum` to `total`. -/
def reaches (low high total : Outcome) (remaining : Nat) (sum : Outcome) : Bool :=
  let least := (low.times? remaining).bind sum.add?
  let greatest := (high.times? remaining).bind sum.add?
  least.all (· ≤ total) && greatest.all (total ≤ ·)

/-- Adds one face to one pair of sums. -/
def addSums (name : FunctionName) (threshold : Outcome) (reachable : Outcome → Bool)
    (sums : Sums) (weight : W) (next : Std.TreeMap Sums W) (face : Outcome) (w : W) :
    Except Exceeded (Std.TreeMap Sums W) :=
  match sums.plain.add? face with
  | none => .error .value
  | some plain =>
    if reachable plain then
      match sums.clamped.add? (name.clamp threshold face) with
      | none => .error .value
      | some clamped =>
        .ok (next.alter ⟨plain, clamped⟩ fun old => some (old.getD 0 + weight * w))
    else .ok next

/-- Rolls the remaining dice, one by one. -/
def rollSums (die : List (Outcome × W)) (low high : Outcome) (name : FunctionName)
    (threshold total : Outcome) :
    Nat → Std.TreeMap Sums W → Except Exceeded (Std.TreeMap Sums W)
  | 0, states => .ok states
  | n + 1, states => do
    let next ← states.toList.foldlM (fun next (sums, weight) =>
      die.foldlM (fun next (face, w) =>
        addSums name threshold (reaches low high total n) sums weight next face w) next) ∅
    rollSums die low high name threshold total n next

/-- The sum of `count` dice, each limited by the threshold, among the rolls whose plain sum is
`total`.  Weights count the rolls. -/
def clampEachGivenTotal (die : Distribution W) (count : Nat) (name : FunctionName)
    (threshold total : Outcome) : Except Exceeded (Distribution W) :=
  match die.min?, die.max? with
  | some low, some high => do
    let states ← rollSums die.toList low high name threshold total count
      (Std.TreeMap.empty.insert ⟨0, 0⟩ 1)
    let matching := states.toList.filter fun (sums, _) => sums.plain = total
    (ofList (matching.map fun (sums, weight) => (sums.clamped, weight))).checkWeights
  | _, _ => .ok empty

end Distribution

end DiceOdds
