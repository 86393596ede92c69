import DiceOdds.Proofs.Critical.Check
import DiceOdds.Proofs.Nearest
import DiceOdds.Evaluation.Split

/-!
# Rates and thresholds

A greater rate makes more faces critical.  The number of critical faces is a share of all faces,
rounded, and rounding keeps the order; so the lowest critical face can only go down.

## Which dice fit

The threshold is counted in 32 bits.  With no critical face it stands one above the highest face,
and only for the widest die is there no such number: its threshold is `0` then, as if all faces were
critical.  Everything else is said of dice whose threshold is a number of 32 bits (`Dice.FitsAt`),
and of dice for which it is one at every rate (`Dice.Fits`).

## Why the share of a pool is a power

Of several dice none is critical if each of them is not.  So the share of rolls without a critical
die is a power of the share for one die, and `Weight.power` computes it by repeated squaring.
-/

namespace DiceOdds

/-! ## 1. Dice that fit -/

theorem next32_of_lt {n : ℕ} (h : n + 1 < 0x100000000) : next32 n = n + 1 := Nat.mod_eq_of_lt h

theorem next32_lt (n : ℕ) : next32 n < 0x100000000 := Nat.mod_lt _ (by decide)

/-- One above the highest face there is a number of 32 bits. -/
def Dice.Fits (d : Dice) : Prop := d.sides.toNat + 1 < 0x100000000

instance (d : Dice) : Decidable d.Fits := inferInstanceAs (Decidable (_ < _))

/-- One above the highest face that is not critical there is a number of 32 bits. -/
def Dice.FitsAt (rate : ℚ) (d : Dice) : Prop :=
  d.sides.toNat - criticalFaces rate d.sides.toNat + 1 < 0x100000000

instance (rate : ℚ) (d : Dice) : Decidable (d.FitsAt rate) := inferInstanceAs (Decidable (_ < _))

theorem Dice.Fits.fitsAt {d : Dice} (h : d.Fits) (rate : ℚ) : d.FitsAt rate := by
  unfold Fits at h
  unfold FitsAt
  omega

/-- Only the widest die does not fit. -/
theorem Dice.sides_of_not_fits {d : Dice} (h : ¬d.Fits) : d.sides.toNat = 0xffffffff := by
  have hlt := d.sides.toNat_lt
  unfold Fits at h
  omega

/-! ## 2. Critical faces -/

theorem criticalFaces_le (rate : ℚ) (sides : ℕ) : criticalFaces rate sides ≤ sides :=
  Nat.min_le_right _ _

theorem criticalFaces_mono {r₁ r₂ : ℚ} (h : r₁ ≤ r₂) (sides : ℕ) :
    criticalFaces r₁ sides ≤ criticalFaces r₂ sides := by
  have hshare : (sides : ℚ) * r₁ / ((100 : ℕ) : ℚ) ≤ (sides : ℚ) * r₂ / ((100 : ℕ) : ℚ) :=
    div_le_div_of_nonneg_right (mul_le_mul_of_nonneg_left h (Nat.cast_nonneg _))
      (Nat.cast_nonneg _)
  exact min_le_min_right _ (Int.toNat_le_toNat (nearestOfRat_mono hshare))

theorem Dice.FitsAt.mono {r₁ r₂ : ℚ} (h : r₁ ≤ r₂) {d : Dice} (hd : d.FitsAt r₁) :
    d.FitsAt r₂ := by
  have hfaces := criticalFaces_mono h d.sides.toNat
  unfold FitsAt at hd ⊢
  omega

theorem criticalThreshold_eq {rate : ℚ} {d : Dice} (h : d.FitsAt rate) :
    criticalThreshold rate d.sides.toNat
      = d.sides.toNat - criticalFaces rate d.sides.toNat + 1 :=
  next32_of_lt h

/-- With no number above the highest face and no critical face the threshold is `0`. -/
theorem criticalThreshold_of_not_fitsAt {rate : ℚ} {d : Dice} (h : ¬d.FitsAt rate) :
    criticalThreshold rate d.sides.toNat = 0 := by
  have hlt := d.sides.toNat_lt
  have hnext : d.sides.toNat - criticalFaces rate d.sides.toNat + 1 = 0x100000000 := by
    unfold Dice.FitsAt at h
    omega
  rw [criticalThreshold, next32, hnext]

/-- **A greater rate lowers the threshold**, unless it has been `0` for want of a greater number. -/
theorem criticalThreshold_anti {r₁ r₂ : ℚ} (h : r₁ ≤ r₂) {d : Dice} (hd : d.FitsAt r₁) :
    criticalThreshold r₂ d.sides.toNat ≤ criticalThreshold r₁ d.sides.toNat := by
  have hfaces := criticalFaces_mono h d.sides.toNat
  rw [criticalThreshold_eq hd, criticalThreshold_eq (hd.mono h)]
  omega

/-- Of the widest die the highest face is critical at every rate. -/
theorem criticalThreshold_le_of_not_fits (rate : ℚ) {d : Dice} (h : ¬d.Fits) :
    criticalThreshold rate d.sides.toNat ≤ d.sides.toNat := by
  have hlt := next32_lt (d.sides.toNat - criticalFaces rate d.sides.toNat)
  rw [d.sides_of_not_fits h] at hlt ⊢
  exact Nat.le_of_lt_succ hlt

/-- The faces at or above the threshold are the critical ones. -/
theorem facesAbove_eq (rate : ℚ) {d : Dice} (h : d.Fits) :
    d.sides.toNat + 1 - criticalThreshold rate d.sides.toNat
      = criticalFaces rate d.sides.toNat := by
  have hle := criticalFaces_le rate d.sides.toNat
  rw [criticalThreshold_eq (h.fitsAt rate)]
  omega

/-! ## 3. Pools -/

theorem powerFrom_eq (acc x : ℚ) (n : ℕ) : Weight.powerFrom acc x n = acc * x ^ n := by
  induction n using Nat.strong_induction_on generalizing acc x with
  | _ n ih =>
  have hdigit : (if n % 2 = 1 then acc * x else acc) = acc * x ^ (n % 2) := by
    rcases Nat.mod_two_eq_zero_or_one n with h | h <;> simp [h]
  rw [Weight.powerFrom]
  rw [hdigit]
  split
  · next hlast => rw [show n % 2 = n by omega]
  · next hmore =>
    rw [ih (n / 2) (by omega), ← pow_two, ← pow_mul, mul_assoc, ← pow_add, Nat.mod_add_div]

theorem power_eq (x : ℚ) (n : ℕ) : Weight.power x n = x ^ n := by
  rw [Weight.power, powerFrom_eq, one_mul]

/-- The share of critical faces of a die; `0` for a die without faces. -/
def criticalShare (rate : ℚ) (sides : ℕ) : ℚ := (criticalFaces rate sides : ℚ) / sides

theorem criticalShare_nonneg (rate : ℚ) (sides : ℕ) : 0 ≤ criticalShare rate sides :=
  div_nonneg (Nat.cast_nonneg _) (Nat.cast_nonneg _)

theorem criticalShare_le_one (rate : ℚ) (sides : ℕ) : criticalShare rate sides ≤ 1 :=
  div_le_one_of_le₀ (Nat.cast_le.2 (criticalFaces_le rate sides)) (Nat.cast_nonneg _)

theorem criticalShare_mono {r₁ r₂ : ℚ} (h : r₁ ≤ r₂) (sides : ℕ) :
    criticalShare r₁ sides ≤ criticalShare r₂ sides :=
  div_le_div_of_nonneg_right (Nat.cast_le.2 (criticalFaces_mono h sides)) (Nat.cast_nonneg _)

/-- The share of critical faces that the closed form takes a die to have: of the widest die it finds
no face at or above the threshold. -/
def Dice.countedShare (rate : ℚ) (d : Dice) : ℚ :=
  if d.Fits then criticalShare rate d.sides.toNat else 0

namespace Dice

theorem countedShare_of_fits (rate : ℚ) {d : Dice} (h : d.Fits) :
    d.countedShare rate = criticalShare rate d.sides.toNat := if_pos h

theorem countedShare_of_not_fits (rate : ℚ) {d : Dice} (h : ¬d.Fits) : d.countedShare rate = 0 :=
  if_neg h

theorem countedShare_nonneg (rate : ℚ) (d : Dice) : 0 ≤ d.countedShare rate := by
  unfold countedShare
  split
  · exact criticalShare_nonneg _ _
  · exact le_rfl

theorem countedShare_le_one (rate : ℚ) (d : Dice) : d.countedShare rate ≤ 1 := by
  unfold countedShare
  split
  · exact criticalShare_le_one _ _
  · exact zero_le_one

theorem countedShare_mono {r₁ r₂ : ℚ} (h : r₁ ≤ r₂) (d : Dice) :
    d.countedShare r₁ ≤ d.countedShare r₂ := by
  unfold countedShare
  split
  · exact criticalShare_mono h _
  · exact le_rfl

end Dice

/-- The share of rolls in which at least one die is critical. -/
theorem atLeastOneCritical_eq (rate : ℚ) (d : Dice) :
    atLeastOneCritical rate d = 1 - (1 - d.countedShare rate) ^ d.count.toNat := by
  have hper : ((next32 d.sides.toNat - criticalThreshold rate d.sides.toNat : ℕ) : ℚ)
      / (d.sides.toNat : ℚ) = d.countedShare rate := by
    by_cases h : d.Fits
    · rw [d.countedShare_of_fits rate h, next32_of_lt h, facesAbove_eq rate h, criticalShare]
    · have hnext : next32 d.sides.toNat = 0 := by rw [d.sides_of_not_fits h]; rfl
      rw [d.countedShare_of_not_fits rate h, hnext, Nat.zero_sub, Nat.cast_zero, zero_div]
  rw [atLeastOneCritical, power_eq, hper]

theorem atLeastOneCritical_nonneg (rate : ℚ) (d : Dice) : 0 ≤ atLeastOneCritical rate d := by
  rw [atLeastOneCritical_eq, sub_nonneg]
  exact pow_le_one₀ (sub_nonneg.2 (d.countedShare_le_one rate))
    (sub_le_self _ (d.countedShare_nonneg rate))

theorem atLeastOneCritical_mono {r₁ r₂ : ℚ} (h : r₁ ≤ r₂) (d : Dice) :
    atLeastOneCritical r₁ d ≤ atLeastOneCritical r₂ d := by
  rw [atLeastOneCritical_eq, atLeastOneCritical_eq]
  exact sub_le_sub_left (pow_le_pow_left₀ (sub_nonneg.2 (d.countedShare_le_one r₂))
    (sub_le_sub_left (d.countedShare_mono h) 1) _) 1

end DiceOdds
