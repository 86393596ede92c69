/-!
# Doubles as whole numbers

A finite double is `±mantissa · 2 ^ exponent` with whole numbers on both sides.  Everything this
library says about the *text* of a double, and about the whole number nearest to it, is said
about those two numbers, in exact arithmetic.

## Why the decoded form is enough

The bit pattern of a double is sign, biased exponent and fraction.  A biased exponent of `0`
means a fraction without the hidden bit, `2047` means an infinity or NaN, and every other value
adds the hidden bit `2 ^ 52`.  Decoding once gives the exact value, so no later step rounds
by accident: `nearestInt` and the digit search are functions of `mantissa` and `exponent` alone.
-/

namespace DiceOdds

/-- The exact value of a finite double, `±mantissa · 2 ^ exponent`. -/
structure Binary64 where
  negative : Bool
  mantissa : Nat
  exponent : Int
deriving DecidableEq, Repr

namespace Binary64

/-! ## 1. Decoding -/

/-- The exponent of the finest grid a double can lie on. -/
def leastExponent : Int := -1074

/-- The weight of the hidden bit, `2 ^ 52`. -/
def hiddenBit : Nat := 0x10000000000000

/-- Decodes sign, biased exponent and fraction; `none` for a biased exponent of `2047`. -/
def ofBits? (bits : Nat) : Option Binary64 :=
  let biased : Nat := bits / hiddenBit % 2048
  let fraction : Nat := bits % hiddenBit
  let negative : Bool := bits.testBit 63
  if biased = 2047 then none
  else if biased = 0 then some ⟨negative, fraction, leastExponent⟩
  else some ⟨negative, hiddenBit + fraction, (biased : Int) - 1075⟩

/-- The exact value of `x`; `none` for the infinities and for NaN. -/
def ofFloat? (x : Float) : Option Binary64 := ofBits? x.toBits.toNat

/-! ## 2. Nearest whole number -/

/-- The magnitude rounded to a whole number, a half upwards. -/
def nearestNat (x : Binary64) : Nat :=
  match x.exponent with
  | .ofNat k => x.mantissa * Nat.pow 2 k
  | .negSucc k => (x.mantissa + Nat.pow 2 k) / Nat.pow 2 (k + 1)

/-- The nearest whole number, a half away from zero. -/
def nearestInt (x : Binary64) : Int :=
  if x.negative then -(x.nearestNat : Int) else x.nearestNat

end Binary64

end DiceOdds
