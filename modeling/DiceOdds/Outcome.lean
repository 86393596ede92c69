import DiceOdds.Decimal.Fixed
import DiceOdds.Weight

/-!
# Outcomes

The values that a formula can take lie on a grid of hundredths, bounded by 64-bit integers.

## Why hundredths

Results are rounded to two decimals.  Stored as whole numbers of hundredths, two values that
print alike after rounding are the same value, and the sums of faces that make up nearly all of
a calculation are exact.  The bounds are part of the type, so an operation that could leave the
grid has to say what happens then: each of them returns `none`.  Products and quotients are
taken through doubles, and so are exact only as far as doubles are.
-/

namespace DiceOdds

/-- A value on the grid of hundredths.  The bounds are `-2 ^ 63` and `2 ^ 63`. -/
structure Outcome where
  hundredths : Int
  least_le : -0x8000000000000000 ≤ hundredths
  lt_bound : hundredths < 0x8000000000000000

namespace Outcome

/-! ## 1. The grid -/

@[ext] theorem ext {a b : Outcome} (h : a.hundredths = b.hundredths) : a = b := by
  cases a; cases b; simp_all

instance : DecidableEq Outcome := fun a b =>
  if h : a.hundredths = b.hundredths then isTrue (ext h)
  else isFalse fun e => h (congrArg hundredths e)

instance : Ord Outcome := ⟨fun a b => compare a.hundredths b.hundredths⟩

instance : LT Outcome := ⟨fun a b => a.hundredths < b.hundredths⟩

instance : LE Outcome := ⟨fun a b => a.hundredths ≤ b.hundredths⟩

instance (a b : Outcome) : Decidable (a < b) :=
  inferInstanceAs (Decidable (a.hundredths < b.hundredths))

instance (a b : Outcome) : Decidable (a ≤ b) :=
  inferInstanceAs (Decidable (a.hundredths ≤ b.hundredths))

instance : Min Outcome := minOfLe

instance : Max Outcome := maxOfLe

theorem compare_eq (a b : Outcome) : compare a b = compare a.hundredths b.hundredths := rfl

instance : Std.TransOrd Outcome where
  eq_swap := by simp only [compare_eq]; exact Std.OrientedCmp.eq_swap
  isLE_trans := by simp only [compare_eq]; exact Std.TransCmp.isLE_trans

instance : Std.LawfulEqOrd Outcome where
  eq_of_compare h := ext (Std.compare_eq_iff_eq.1 h)

/-- The value with this many hundredths, if it lies on the grid. -/
def ofHundredths? (n : Int) : Option Outcome :=
  if h : -0x8000000000000000 ≤ n ∧ n < 0x8000000000000000 then some ⟨n, h.1, h.2⟩ else none

/-- The least value on the grid. -/
def least : Outcome := ⟨-0x8000000000000000, by decide, by decide⟩

/-- The greatest value on the grid. -/
def greatest : Outcome := ⟨0x7fffffffffffffff, by decide, by decide⟩

/-- The value with this many hundredths, or the end of the grid nearest to it. -/
def nearHundredths (n : Int) : Outcome :=
  if h : n < -0x8000000000000000 then least
  else if h' : n < 0x8000000000000000 then ⟨n, by omega, h'⟩
  else greatest

/-- A whole number. -/
def ofInt (n : Int) : Outcome := nearHundredths (n * 100)

instance : Zero Outcome := ⟨⟨0, by decide, by decide⟩⟩

instance : One Outcome := ⟨⟨100, by decide, by decide⟩⟩

/-- Whether the value is a whole number. -/
def isIntegral (a : Outcome) : Bool := a.hundredths.tmod 100 = 0

/-! ## 2. Between values and weights -/

variable {W : Type} [Weight W]

/-- The value as a weight. -/
def toWeight (a : Outcome) : W := (a.hundredths : W) / ((100 : Nat) : W)

/-- The nearest value on the grid, if there is one: the scaled number has to be finite and
smaller than `2 ^ 63` on both sides. -/
def ofWeight? (x : W) : Option Outcome :=
  match Weight.nearest? (x * ((100 : Nat) : W)) with
  | some n => if n = least.hundredths then none else ofHundredths? n
  | none => none

/-- The nearest value on the grid, its ends standing for everything beyond them and zero for
what is no number. -/
def near (x : Float) : Outcome :=
  let scaled := x * 100
  match Weight.nearest? scaled with
  | some n => nearHundredths n
  | none => if 0 < scaled then greatest else if scaled < 0 then least else 0

/-! ## 3. Arithmetic -/

/-- The sum, if it lies on the grid. -/
def add? (a b : Outcome) : Option Outcome := ofHundredths? (a.hundredths + b.hundredths)

/-- The difference, if it lies on the grid. -/
def sub? (a b : Outcome) : Option Outcome := ofHundredths? (a.hundredths - b.hundredths)

/-- The product of the two values as doubles, rounded to the grid. -/
def mul? (a b : Outcome) : Option Outcome :=
  ofWeight? (W := Float) (a.toWeight * b.toWeight)

/-- The quotient of the two values as doubles, rounded to the grid; none by zero. -/
def div? (a b : Outcome) : Option Outcome :=
  if b.hundredths = 0 then none else ofWeight? (W := Float) (a.toWeight / b.toWeight)

/-- The value taken `n` times, if it lies on the grid. -/
def times? (n : Nat) (a : Outcome) : Option Outcome := ofHundredths? (n * a.hundredths)

/-! ## 4. Text -/

/-- Drops the zeros at the end, and the point if nothing is left behind it. -/
def trimPlaces (text : List Char) : List Char :=
  let trimmed := (text.reverse.dropWhile (· = '0')).dropWhile (· = '.')
  trimmed.reverse

/-- Whole numbers are written as such, other values with at most two decimals. -/
def text (a : Outcome) : String :=
  if a.isIntegral then toString (a.hundredths.tdiv 100)
  else String.ofList (trimPlaces (Decimal.fixed 2 a.toWeight).toList)

end Outcome

end DiceOdds
