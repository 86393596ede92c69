import DiceOdds.Decimal.Binary64

/-!
# The shortest text of a double

`Decimal.text x` writes `x` with the fewest digits that read back as `x`, always positionally:
no exponent, no point behind a whole number, zeros instead of an exponent on either side.

## Why two candidates per grid suffice

The reals that read back as `x` form an interval around `x`.  If any multiple of `10 ^ k` lies
in it, then so does one of the two multiples of `10 ^ k` next to `x` itself, the one below and
the one above.  So the search walks from a coarse grid to finer ones, looks at two candidates
on each, and stops at the first grid with a hit.  Of two hits the nearer wins, and the upper one
if both are equally near.  All comparisons are between whole numbers, after multiplying with
the denominators of the value and of the grid.
-/

namespace DiceOdds

namespace Binary64

/-! ## 1. One grid -/

/-- The half-width of the interval below `x`, in quarters of `2 ^ exponent`: at a power of two
the next smaller double is only half as far away, except at the finest grid. -/
def quartersBelow (x : Binary64) : Nat :=
  if x.mantissa = hiddenBit ∧ leastExponent < x.exponent then 1 else 2

/-- The multiple of `10 ^ k` that reads back as the magnitude of `x`, divided by `10 ^ k`. -/
def onGrid? (x : Binary64) (k : Int) : Option Nat :=
  -- `2 ^ exponent` and `10 ^ k` over their common denominator
  let unit := Nat.pow 2 x.exponent.toNat * Nat.pow 10 (-k).toNat
  let step := Nat.pow 2 (-x.exponent).toNat * Nat.pow 10 k.toNat
  let lower := x.mantissa * unit / step
  let below := x.mantissa * unit % step
  let above := step - below
  -- the ends of the interval read back as `x` exactly when the mantissa is even
  let within (distance width : Nat) : Bool :=
    if x.mantissa % 2 = 0 then 4 * distance ≤ width else 4 * distance < width
  match within below (x.quartersBelow * unit), within above (2 * unit) with
  | true, true => some (if below < above then lower else lower + 1)
  | true, false => some lower
  | false, true => some (lower + 1)
  | false, false => none

/-! ## 2. From coarse to fine -/

/-- `digits · 10 ^ scale`. -/
structure Decimal where
  digits : Nat
  scale : Int

/-- The first hit on the grids `10 ^ k`, `10 ^ (k - 1)`, … -/
def searchFrom (x : Binary64) : Nat → Int → Decimal
  | 0, k => ⟨x.mantissa * Nat.pow 2 x.exponent.toNat * Nat.pow 10 (-k).toNat
      / (Nat.pow 2 (-x.exponent).toNat * Nat.pow 10 k.toNat), k⟩
  | n + 1, k =>
    match x.onGrid? k with
    | some digits => ⟨digits, k⟩
    | none => x.searchFrom n (k - 1)

/-- The shortest decimal that reads back as the magnitude of `x`.  The first grid is not finer
than the leading digit of `x` (`30103 / 100000` is just above `log₁₀ 2`), and seventeen digits
always suffice. -/
def shortest (x : Binary64) : Decimal :=
  let bits : Int := x.mantissa.log2 + x.exponent + 1
  x.searchFrom 20 (bits * 30103 / 100000 + 1)

/-! ## 3. Positional text -/

/-- The digits with the point `-scale` places from the right, padded with zeros. -/
def Decimal.positional (d : Decimal) : String :=
  let digits := Nat.toDigits 10 d.digits
  match d.scale with
  | .ofNat k => String.ofList (digits ++ List.replicate k '0')
  | .negSucc k =>
    let padded := List.replicate (k + 2 - digits.length) '0' ++ digits
    let whole := padded.length - (k + 1)
    String.ofList (padded.take whole ++ '.' :: padded.drop whole)

end Binary64

/-- The text of a double: `NaN`, `inf`, or the shortest positional text that reads back, with a
minus in front of a negative number, the negative zero included. -/
def Decimal.text (x : Float) : String :=
  match Binary64.ofFloat? x with
  | none => if x.isNaN then "NaN" else if x < 0 then "-inf" else "inf"
  | some b =>
    let magnitude := if b.mantissa = 0 then "0" else b.shortest.positional
    if b.negative then "-" ++ magnitude else magnitude

end DiceOdds
