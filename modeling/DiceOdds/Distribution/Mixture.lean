import DiceOdds.Distribution.Basic

/-!
# Mixtures

A mixture draws from one of several distributions, each with its own probability, and is brought
back to whole weights over a chosen total.

## Why a total has to be chosen

The parts of a mixture count different elementary outcomes, so their weights share no unit.
Scaling each part to its probability times one common total gives them a unit; rounding makes
the weights whole again.  With the total of the condition that decides between the parts the
rounding may cost up to half a unit per outcome.  With that total times the least common
multiple of the parts' totals it costs nothing, as long as all numbers involved are whole and
within `2 ^ 53`; beyond that the smaller total is used after all.
-/

namespace DiceOdds

/-- How mixtures are brought back to whole weights. -/
inductive Mixing where
  /-- Over the total of the condition. -/
  | rounded
  /-- Over the total of the condition times the least common multiple of the parts' totals. -/
  | exact
deriving DecidableEq, Repr

namespace Mixing

variable {W : Type} [Weight W]

/-- The greatest weight up to which all whole numbers are exact, `2 ^ 53`. -/
def greatestExact : Nat := 0x20000000000000

/-- The weight as a natural number, if it is one, is positive and lies below `greatestExact`. -/
def positiveWhole? (w : W) : Option Nat :=
  match Weight.nearest? w with
  | some n => if (n : W) == w && 1 ≤ n && n < greatestExact then some n.toNat else none
  | none => none

/-- The total that needs no rounding, if it is exact. -/
def commonTotal? (condition : W) (parts : List W) : Option Nat := do
  let base ← positiveWhole? condition
  let totals ← parts.mapM positiveWhole?
  let common := base * totals.foldl Nat.lcm 1
  if common ≤ greatestExact then some common else none

/-- The total weight of a mixture of parts with these totals. -/
def targetTotal (mixing : Mixing) (condition : W) (parts : List W) : W :=
  match mixing with
  | rounded => condition
  | exact => match commonTotal? condition parts with
    | some common => (common : W)
    | none => condition

end Mixing

namespace Distribution

variable {W : Type} [Weight W]

/-- Adds one part of a mixture, scaled to its share of `target`; parts that are impossible or
empty are passed over. -/
def addPart (target : W) (out : Distribution W) (probability : W) (part : Distribution W) :
    Distribution W :=
  if 0 < probability ∧ 0 < part.total then
    out.addScaled part (target * probability / part.total)
  else out

/-- The mixture of `(probability, part)` pairs over the total `target`, in whole weights. -/
def mix (parts : List (W × Distribution W)) (target : W) : Distribution W :=
  (parts.foldl (fun out (probability, part) => out.addPart target probability part) empty).rounded

end Distribution

end DiceOdds
