/-!
# Reading decimal numbers

Digits stand for the double nearest to their exact value, so a text is read by collecting its
digits into one whole number and scaling once.  `Decimal.ofDigits` is what a formula needs:
digits, and digits behind a point.  `Decimal.read?` reads the wider form that a command line
accepts: a sign, an exponent, and the names of the infinities and of NaN.
-/

namespace DiceOdds

namespace Decimal

/-- The value of a row of decimal digits. -/
def natOfDigits (digits : List Char) : Nat :=
  digits.foldl (fun n c => 10 * n + (c.toNat - '0'.toNat)) 0

/-- The double nearest to `whole.fraction`. -/
def ofDigits (whole fraction : List Char) : Float :=
  Float.ofScientific (natOfDigits (whole ++ fraction)) true fraction.length

/-- The double nearest to `digits · 10 ^ exponent`.  Past the range of doubles the exponent
decides alone, so no large power is formed. -/
def ofScaled (digits : Nat) (exponent : Int) : Float :=
  if digits = 0 then 0
  else if 310 < exponent then Float.ofScientific 1 false 310
  else if exponent + digits.log2 < -1100 then 0
  else match exponent with
    | .ofNat k => Float.ofScientific digits false k
    | .negSucc k => Float.ofScientific digits true (k + 1)

/-- `[sign] digits` as an exponent; there must be at least one digit. -/
def exponent? : List Char → Option Int
  | '+' :: digits => magnitude? digits
  | '-' :: digits => (magnitude? digits).map (- ·)
  | digits => magnitude? digits
where
  magnitude? (digits : List Char) : Option Int :=
    if digits.isEmpty || !digits.all Char.isDigit then none else some (natOfDigits digits)

/-- `digits [. digits] [e exponent]`, with a digit on at least one side of the point. -/
def unsigned? (text : List Char) : Option Float :=
  let whole := text.takeWhile Char.isDigit
  let rest := text.dropWhile Char.isDigit
  let (fraction, rest) := match rest with
    | '.' :: tail => (tail.takeWhile Char.isDigit, tail.dropWhile Char.isDigit)
    | _ => ([], rest)
  let exponent := match rest with
    | [] => some 0
    | c :: tail => if c = 'e' ∨ c = 'E' then exponent? tail else none
  if whole.isEmpty && fraction.isEmpty then none
  else exponent.map fun e => ofScaled (natOfDigits (whole ++ fraction)) (e - fraction.length)

/-- The names of the values that are no decimals, in any case. -/
def named? (text : List Char) : Option Float :=
  let name := String.ofList (text.map Char.toLower)
  if name = "inf" ∨ name = "infinity" then some (1 / 0)
  else if name = "nan" then some (0 / 0)
  else none

/-- Reads a number with an optional sign. -/
def read? (text : String) : Option Float :=
  match text.toList with
  | '-' :: rest => (magnitude? rest).map (- ·)
  | '+' :: rest => magnitude? rest
  | rest => magnitude? rest
where
  magnitude? (rest : List Char) : Option Float := named? rest <|> unsigned? rest

end Decimal

end DiceOdds
