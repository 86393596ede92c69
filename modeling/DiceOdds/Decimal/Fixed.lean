import DiceOdds.Decimal.Binary64

/-!
# A fixed number of decimal places

`Decimal.fixed places x` writes the exact value of a double rounded to a given number of places.
The value is exact, so ties are genuine ties; they go to the even neighbour.
-/

namespace DiceOdds

/-- The quotient rounded to the nearest whole number, a half to the even neighbour. -/
def roundDivEven (num den : Nat) : Nat :=
  let lower := num / den
  let twice := 2 * (num % den)
  if twice < den ∨ (twice = den ∧ lower % 2 = 0) then lower else lower + 1

/-- The magnitude of `x` in units of `10 ^ -places`, rounded. -/
def Binary64.inPlaces (x : Binary64) (places : Nat) : Nat :=
  roundDivEven (x.mantissa * Nat.pow 10 places * Nat.pow 2 x.exponent.toNat)
    (Nat.pow 2 (-x.exponent).toNat)

/-- The digits of `n` with the point before the last `places` of them. -/
def Decimal.withPlaces (n places : Nat) : String :=
  let digits := Nat.toDigits 10 n
  let padded := List.replicate (places + 1 - digits.length) '0' ++ digits
  let whole := padded.length - places
  String.ofList (padded.take whole ++ '.' :: padded.drop whole)

/-- The text of a finite double with `places` decimal places, the sign of zero kept. -/
def Decimal.fixed (places : Nat) (x : Float) : String :=
  match Binary64.ofFloat? x with
  | none => if x.isNaN then "NaN" else if x < 0 then "-inf" else "inf"
  | some b =>
    let magnitude := Decimal.withPlaces (b.inPlaces places) places
    if b.negative then "-" ++ magnitude else magnitude

end DiceOdds
