import Mathlib.Data.Rat.Floor
import Mathlib.Tactic.Linarith
import Mathlib.Tactic.NormNum
import DiceOdds.Weight

/-!
# The nearest whole number

Weights of mixtures, numbers of critical faces and hundredths of outcomes are rounded to the nearest
whole number, halves away from zero.

## Why negative numbers follow

Rounding is odd (`nearestOfRat_neg`), and a number that is not negative has half of one added and
its fraction cut off.  So a bound on the error, or that whole numbers stay as they are, is shown for
these and carries over to all.
-/

namespace DiceOdds

/-! ## 1. Rational numbers -/

theorem nearestOfRat_eq_floor {x : ℚ} (h : 0 ≤ x) : nearestOfRat x = ⌊x + 1 / 2⌋ := by
  rw [nearestOfRat, if_neg (not_lt.2 h)]
  rfl

theorem nearestOfRat_neg (x : ℚ) : nearestOfRat (-x) = -nearestOfRat x := by
  rcases lt_trichotomy x 0 with h | rfl | h
  · rw [nearestOfRat, nearestOfRat, if_pos h, if_neg (by linarith), neg_neg]
  · decide +kernel
  · rw [nearestOfRat, nearestOfRat, if_neg (not_lt.2 h.le), if_pos (by linarith), neg_neg]

theorem abs_nearestOfRat_sub_le (x : ℚ) : |(nearestOfRat x : ℚ) - x| ≤ 1 / 2 := by
  have hnonneg (y : ℚ) (hy : 0 ≤ y) : |(nearestOfRat y : ℚ) - y| ≤ 1 / 2 := by
    rw [nearestOfRat_eq_floor hy, abs_le]
    constructor <;> linarith [Int.floor_le (y + 1 / 2), Int.lt_floor_add_one (y + 1 / 2)]
  rcases le_total 0 x with h | h
  · exact hnonneg x h
  · have hneg := hnonneg (-x) (neg_nonneg.2 h)
    rwa [nearestOfRat_neg, Int.cast_neg, neg_sub_neg, abs_sub_comm] at hneg

theorem nearestOfRat_eq_of_abs_lt {x : ℚ} {n : ℤ} (h : |x - n| < 1 / 2) : nearestOfRat x = n := by
  have hnear := abs_nearestOfRat_sub_le x
  have hlt : |(nearestOfRat x : ℚ) - n| < 1 := by
    calc |(nearestOfRat x : ℚ) - n| ≤ |(nearestOfRat x : ℚ) - x| + |x - n| := abs_sub_le _ _ _
      _ < 1 := by linarith
  have hint : |nearestOfRat x - n| < 1 := by exact_mod_cast hlt
  exact sub_eq_zero.1 (Int.abs_lt_one_iff.1 hint)

/-- Whole numbers stay as they are. -/
theorem nearestOfRat_intCast (n : ℤ) : nearestOfRat n = n :=
  nearestOfRat_eq_of_abs_lt (by rw [sub_self, abs_zero]; norm_num)

theorem nearestOfRat_natCast (n : ℕ) : nearestOfRat (n : ℚ) = n :=
  nearestOfRat_intCast n

/-- Rounding keeps the order. -/
theorem nearestOfRat_mono {x y : ℚ} (h : x ≤ y) : nearestOfRat x ≤ nearestOfRat y := by
  unfold nearestOfRat
  split
  · next hx =>
    split
    · exact neg_le_neg (Rat.floor_monotone (by linarith))
    · next hy =>
      -- the two roundings meet at zero
      have hlow : 0 ≤ (-x + 1 / 2).floor := Rat.le_floor_iff.2 (by push_cast; linarith)
      have hhigh : 0 ≤ (y + 1 / 2).floor := Rat.le_floor_iff.2 (by push_cast; linarith)
      omega
  · next hx =>
    rw [if_neg (by linarith)]
    exact Rat.floor_monotone (by linarith)

/-- Rounding does not cross a whole number. -/
theorem le_abs_nearestOfRat {x : ℚ} {n : ℕ} (h : (n : ℚ) ≤ |x|) : (n : ℤ) ≤ |nearestOfRat x| := by
  rcases le_total 0 x with hx | hx
  · rw [abs_of_nonneg hx] at h
    have hmono := nearestOfRat_mono (x := ((n : ℤ) : ℚ)) (by exact_mod_cast h)
    rw [nearestOfRat_intCast] at hmono
    exact hmono.trans (le_abs_self _)
  · rw [abs_of_nonpos hx] at h
    have hmono := nearestOfRat_mono (x := ((n : ℤ) : ℚ)) (by exact_mod_cast h)
    rw [nearestOfRat_intCast, nearestOfRat_neg] at hmono
    exact hmono.trans (neg_le_abs _)

/-! ## 2. Weights -/

theorem round_eq_nearestOfRat (w : ℚ) : Weight.round w = (nearestOfRat w : ℚ) := rfl

theorem round_natCast (n : ℕ) : Weight.round (n : ℚ) = n := by
  rw [round_eq_nearestOfRat, nearestOfRat_natCast, Int.cast_natCast]

theorem abs_round_sub_le (w : ℚ) : |Weight.round w - w| ≤ 1 / 2 :=
  abs_nearestOfRat_sub_le w

theorem round_nonneg {w : ℚ} (h : 0 ≤ w) : 0 ≤ Weight.round w := by
  have hmono := nearestOfRat_mono h
  rw [← Nat.cast_zero, nearestOfRat_natCast] at hmono
  rw [round_eq_nearestOfRat]
  exact_mod_cast hmono

/-- Half a unit is rounded up. -/
theorem one_le_round {w : ℚ} (h : 1 / 2 ≤ w) : 1 ≤ Weight.round w := by
  rw [round_eq_nearestOfRat, nearestOfRat_eq_floor (by linarith), ← Int.cast_one, Int.cast_le]
  exact Int.le_floor.2 (by push_cast; linarith)

end DiceOdds
