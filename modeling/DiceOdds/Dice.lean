/-!
# Dice

What a formula can say about dice: how many of which size, which faces roll again, and which of
several values are kept.  Counts, sizes and limits are 32-bit numbers, as in the text of a
formula.
-/

namespace DiceOdds

/-- Equal dice rolled together. -/
structure Dice where
  count : UInt32
  sides : UInt32
  /-- Whether these dice decide about critical hits. -/
  critical : Bool
deriving DecidableEq, Repr

/-- Faces between two ends, both included; empty if the ends are in the wrong order. -/
structure FaceRange where
  min : UInt32
  max : UInt32
deriving DecidableEq, Repr

/-- Whether a face lies in the range. -/
def FaceRange.contains (r : FaceRange) (face : Nat) : Bool :=
  r.min.toNat ≤ face && face ≤ r.max.toNat

/-- What the rolls of an exploding die amount to. -/
inductive ExplodeKind where
  /-- The number of faces in the success range. -/
  | count
  /-- The sum of the faces. -/
  | sum
deriving DecidableEq, Repr

/-- Which of several values are kept. -/
inductive KeepKind where
  | highest
  | lowest
deriving DecidableEq, Repr

/-- What a die does after its first roll. -/
inductive Modifier where
  /-- A face in `range` is rolled again, at most `limit` times; the last roll stands. -/
  | reroll (range : FaceRange) (limit : UInt32)
  /-- A face in the `explode` range is followed by another roll, at most `limit` times; all rolls
  count.  Only `ExplodeKind.count` looks at the `success` range. -/
  | exploding (kind : ExplodeKind) (success explode : Option FaceRange) (limit : UInt32)
deriving DecidableEq, Repr

/-- How often `r` rolls again unless it says otherwise. -/
def defaultRerollLimit : UInt32 := 1

/-- How often `s` and `e` roll again unless they say otherwise. -/
def defaultExplodeLimit : UInt32 := 5

/-- The limits that `min` and `max` put on a value. -/
inductive FunctionName where
  /-- Values above the threshold fall to it. -/
  | min
  /-- Values below the threshold rise to it. -/
  | max
  /-- Like `min`, for each die. -/
  | minEach
  /-- Like `max`, for each die. -/
  | maxEach
deriving DecidableEq, Repr

/-- Whether the function acts on the single dice of a pool. -/
def FunctionName.perDie : FunctionName → Bool
  | minEach | maxEach => true
  | min | max => false

/-! ## Names -/

def KeepKind.text : KeepKind → String
  | highest => "kh"
  | lowest => "kl"

def FunctionName.text : FunctionName → String
  | min => "min"
  | max => "max"
  | minEach => "min_each"
  | maxEach => "max_each"

/-- The letter of a dice literal or a reference. -/
def diceLetter (critical : Bool) : String := if critical then "D" else "d"

/-- A single die is written without its count. -/
def Dice.text (d : Dice) : String :=
  (if d.count = 1 then "" else toString d.count.toNat) ++ diceLetter d.critical
    ++ toString d.sides.toNat

end DiceOdds
