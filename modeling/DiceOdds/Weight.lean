import DiceOdds.Decimal.Shortest

/-!
# Weights

A weight counts equally likely elementary outcomes.  Everything that counts, mixes and compares
weights is written once, over a type `W` with the operations below.

## Why the arithmetic is a parameter

Counts outgrow every machine word, so a calculation carries them as doubles: exact up to
`2 ^ 53`, and the nearest double beyond.  What a calculation *means* is said with exact
fractions.  Both are instances of `Weight`: `Float` is what runs, `Rat` is what the results
approximate, and no definition above this module knows which of them it is working with.
-/

namespace DiceOdds

/-! ## 1. The operations -/

/-- Arithmetic for weights and probabilities. -/
class Weight (W : Type) extends Zero W, One W, Add W, Sub W, Mul W, Div W, LT W, BEq W,
    NatCast W, IntCast W where
  /-- The order of weights can be decided. -/
  lessDecidable : ∀ a b : W, Decidable (a < b)
  /-- Whether the value is a number: neither infinite nor undefined. -/
  isFinite : W → Bool
  /-- The nearest whole number, a half away from zero; `none` if the value is not finite. -/
  nearest? : W → Option Int
  /-- How the value is written. -/
  text : W → String

namespace Weight

variable {W : Type} [Weight W]

instance (priority := low) instDecidableLT (a b : W) : Decidable (a < b) := lessDecidable a b

/-- The nearest whole number as a weight; a weight that is not finite stays as it is. -/
def round (w : W) : W :=
  match nearest? w with
  | some n => (n : W)
  | none => w

/-- The greater of two weights.  An undefined value, the only kind that differs from itself, is
passed over in favour of the other one. -/
def larger (a b : W) : W := if b < a || b != b then a else b

/-- The lesser of two weights, with the same rule for an undefined value. -/
def smaller (a b : W) : W := if a < b || b != b then a else b

/-- The sum of the weights of a list, from the left. -/
def sum (ws : List W) : W := ws.foldl (· + ·) 0

/-- The product of the weights of a list, from the left. -/
def product (ws : List W) : W := ws.foldl (· * ·) 1

/-! ## 2. Powers -/

/-- The part of a power still to be multiplied: `acc * x ^ n`, with one multiplication for every
binary digit `1` of `n` and one squaring between two digits. -/
def powerFrom (acc x : W) (n : Nat) : W :=
  let acc := if n % 2 = 1 then acc * x else acc
  if h : n / 2 = 0 then acc else powerFrom acc (x * x) (n / 2)
termination_by n
decreasing_by omega

/-- `x ^ n` by repeated squaring. -/
def power (x : W) (n : Nat) : W := powerFrom 1 x n

end Weight

/-! ## 3. Doubles and fractions -/

instance Weight.float : Weight Float where
  zero := 0
  one := 1
  natCast := Float.ofNat
  intCast := Float.ofInt
  lessDecidable a b := Float.decLt a b
  isFinite := Float.isFinite
  nearest? x := (Binary64.ofFloat? x).map Binary64.nearestInt
  text := Decimal.text

/-- The whole number nearest to a fraction, a half away from zero. -/
def nearestOfRat (x : Rat) : Int :=
  if x < 0 then -(-x + 1 / 2).floor else (x + 1 / 2).floor

instance Weight.rat : Weight Rat where
  zero := 0
  one := 1
  lessDecidable _ _ := inferInstance
  isFinite _ := true
  nearest? x := some (nearestOfRat x)
  text x := if x.den = 1 then toString x.num else s!"{x.num}/{x.den}"

end DiceOdds
