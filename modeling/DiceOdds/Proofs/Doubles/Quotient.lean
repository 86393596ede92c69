import DiceOdds.Proofs.Doubles.Nearest
import DiceOdds.Decimal.Fixed

/-!
# Quotients of whole numbers, and how they are written

A whole number of at most 53 bits is a double.  A quotient of two of them is rounded once, and a
text with a fixed number of places rounds a second time; both errors together stay below one unit
of the last place as long as the doubles are dense enough there.

## Why two roundings can be undone

Where doubles lie closer together than the places do, the quotient moves by less than half a unit
of the last place.  The second rounding then comes back to the whole number of units that the
first one started from.
-/

namespace DiceOdds

open Float.Model Float.Model.UnpackedFloat

/-! ## 1. Whole numbers -/

/-- Rounding a whole number of at most 53 bits -/
theorem hasMagnitude_normalize {n : ℕ} (hpos : 0 < n) (hn : n < 2 ^ 53) :
    HasMagnitude (normalize Format.binary64 n 0 .positive) .positive n := by
  have hlog : n.log2 < 53 := (Nat.log2_lt hpos.ne').2 hn
  obtain ⟨j, hj⟩ : ∃ j : ℕ, n.log2 + j = 52 := ⟨52 - n.log2, by omega⟩
  have hcompare : compare (n : ℤ) 0 = .gt := compare_gt_iff_gt.2 (by exact_mod_cast hpos)
  have hshift : (0 - ((n.log2 : ℤ) + 0 - 52)).toNat = j := by omega
  have hfull : FullMantissa (n * 2 ^ j) := by
    constructor
    · rw [← hj, pow_add]
      exact Nat.mul_le_mul_right _ (Nat.log2_self_le hpos.ne')
    · rw [show 53 = n.log2 + 1 + j by omega, pow_add]
      exact Nat.mul_lt_mul_of_pos_right Nat.lt_log2_self (by positivity)
  have hexact := roundWithAccuracy_exact hfull 0
    (by omega : (-1022 : ℤ) ≤ 52 + (0 : ℕ) + (0 - j)) .positive
  rw [UnpackedFloat.normalize, hcompare]
  dsimp only
  rw [Int.toNat_natCast, UnpackedFloat.round, targetExponent_eq (by omega), decreaseExponent, hshift,
    Nat.shiftLeft_eq]
  dsimp only
  convert hexact using 1
  · simp
  · simp

theorem inRange_natCast {n : ℕ} (hpos : 0 < n) (hn : n < 2 ^ 53) : InRange n := by
  constructor
  · calc (2 : ℚ) ^ (-1022 : ℤ) ≤ 2 ^ (0 : ℤ) := zpow_le_zpow_right₀ (by norm_num) (by norm_num)
      _ = 1 := zpow_zero _
      _ ≤ n := by exact_mod_cast hpos
  · calc (n : ℚ) < 2 ^ (53 : ℤ) := by exact_mod_cast hn
      _ ≤ 2 ^ (1024 : ℤ) := zpow_le_zpow_right₀ (by norm_num) (by norm_num)

theorem hasMagnitude_ofNat {n : ℕ} (hpos : 0 < n) (hn : n < 2 ^ 53) :
    HasMagnitude (Float.ofNat n).toModel.unpack .positive n := by
  obtain ⟨one, hone, hfloat⟩ : ∃ one : Float,
      one.toModel.unpack = .finite .positive (2 ^ 52) (-52) (by norm_num)
        ∧ Float.ofNat n = n.toUInt64.toFloat * one := by
    refine ⟨Float.ofBits 0x3ff0000000000000, rfl, ?_⟩
    change Float.ofScientific n false 0 = _
    rw [Float.ofScientific, dif_pos ⟨hn, by decide⟩]
    rfl
  have hnat : n.toUInt64.toNat = n := by
    rw [Nat.toUInt64, UInt64.toNat_ofNat']
    omega
  have hread : HasMagnitude n.toUInt64.toFloat.toModel.unpack .positive n := by
    change HasMagnitude (Float.Model.pack (normalize Format.binary64 n.toUInt64.toNat 0
      .positive)).unpack .positive n
    rw [hnat]
    exact (hasMagnitude_normalize hpos hn).unpack_pack (inRange_natCast hpos hn)
  obtain ⟨m, e, hm, heq, hfull, hvalue⟩ := hread
  have hrange := inRange_natCast hpos hn
  rw [hfloat]
  change HasMagnitude (Float.Model.pack (UnpackedFloat.mul Format.binary64
    n.toUInt64.toFloat.toModel.unpack one.toModel.unpack)).unpack _ _
  rw [heq, hone]
  refine HasMagnitude.unpack_pack ?_ hrange
  have hlow : (2 : ℚ) ^ (0 : ℤ) ≤ m * 2 ^ e := by rw [hvalue, zpow_zero]; exact_mod_cast hpos
  have hexponent := hfull.exponent_gt hlow
  have h := roundWithAccuracy_exact hfull 52
    (by omega : (-1022 : ℤ) ≤ 52 + (52 : ℕ) + (e + -52)) .positive
  have hunit : e + -52 + (52 : ℕ) = e := by omega
  rwa [hunit, hvalue] at h

/-- The sign of a number that is negative, or is not. -/
def signOf (negative : Bool) : Sign := if negative then .negative else .positive

theorem hasMagnitude_ofInt {n : ℤ} (hne : n ≠ 0) (hn : n.natAbs < 2 ^ 53) :
    HasMagnitude (Float.ofInt n).toModel.unpack (signOf (n < 0)) n.natAbs := by
  cases n with
  | ofNat n =>
    have hpos : 0 < n := Nat.pos_of_ne_zero fun h => hne (by rw [h]; rfl)
    have hsign : signOf ((n : ℤ) < 0) = .positive := by simp [signOf]
    rw [Int.ofNat_eq_natCast, hsign]
    exact hasMagnitude_ofNat hpos hn
  | negSucc n =>
    have hsign : signOf (Int.negSucc n < 0) = .negative := by simp [signOf]
    rw [hsign]
    exact (hasMagnitude_ofNat n.succ_pos hn).neg.unpack_pack (inRange_natCast n.succ_pos hn)

/-! ## 2. Quotients -/

/-- A quotient is rounded once. -/
theorem HasMagnitude.isRounding_div {x y : UnpackedFloat} {s t : Sign} {p q : ℚ}
    (hx : HasMagnitude x s p) (hy : HasMagnitude y t q) (hlow : (2 : ℚ) ^ (-1000 : ℤ) ≤ p / q) :
    IsRounding (UnpackedFloat.div Format.binary64 x y) (s / t) (p / q) := by
  obtain ⟨m₁, e₁, hpos₁, rfl, hm₁, rfl⟩ := hx
  obtain ⟨m₂, e₂, hpos₂, rfl, hm₂, rfl⟩ := hy
  have hm₂pos : (0 : ℚ) < m₂ := by exact_mod_cast hpos₂
  have hquotient : (m₁ : ℚ) * 2 ^ e₁ / (m₂ * 2 ^ e₂)
      = ((m₁ * 2 ^ 53 : ℕ) : ℚ) / m₂ * 2 ^ (e₁ - e₂ - 53) := by
    rw [zpow_sub₀ two_ne_zero, zpow_sub₀ two_ne_zero]
    push_cast
    field_simp
  have hlong : 2 ^ 52 ≤ m₁ * 2 ^ 53 / m₂ := by
    rw [Nat.le_div_iff_mul_le hpos₂]
    have := hm₁.1
    have := hm₂.2
    omega
  have hshort : m₁ * 2 ^ 53 / m₂ < 2 ^ 54 := by
    rw [Nat.div_lt_iff_lt_mul hpos₂]
    have := hm₁.2
    have := hm₂.1
    omega
  have hexponent : -1000 < e₁ - e₂ + 1 := by
    have hratio : (m₁ : ℚ) * 2 ^ e₁ / (m₂ * 2 ^ e₂) < 2 ^ (e₁ - e₂ + 1) := by
      rw [div_lt_iff₀ (by positivity), zpow_add_one₀ two_ne_zero, zpow_sub₀ two_ne_zero]
      have : (m₁ : ℚ) < 2 * m₂ := by
        have := hm₁.2
        have := hm₂.1
        exact_mod_cast (by omega : m₁ < 2 * m₂)
      calc (m₁ : ℚ) * 2 ^ e₁ < 2 * m₂ * 2 ^ e₁ := mul_lt_mul_of_pos_right this (by positivity)
        _ = 2 ^ e₁ / 2 ^ e₂ * 2 * (m₂ * 2 ^ e₂) := by field_simp
    exact (zpow_lt_zpow_iff_right₀ (by norm_num : (1 : ℚ) < 2)).1 (hlow.trans_lt hratio)
  have hcore : divCore Format.binary64 m₁ e₁ m₂ e₂
      = (m₁ * 2 ^ 53 / m₂, e₁ - e₂ - 53, accuracyOfFraction (m₁ * 2 ^ 53 % m₂) m₂) := by
    have htarget : min (e₁ - e₂) (Format.binary64.targetExponent
        (totalExponent m₁ e₁ - totalExponent m₂ e₂)) = e₁ - e₂ - 53 := by
      have hbits : (Format.binary64.mantissaBits : ℤ) = 53 := rfl
      have hmin : Format.binary64.minExponent = -1074 := rfl
      rw [Format.targetExponent, totalExponent, totalExponent, hbits, hmin, hm₁.log2_eq,
        hm₂.log2_eq]
      omega
    have hshift : (e₁ - e₂ - (e₁ - e₂ - 53)).toNat = 53 := by omega
    rw [divCore, htarget, hshift, Nat.shiftLeft_eq]
  have hdiv : UnpackedFloat.div Format.binary64 (.finite s m₁ e₁ hpos₁) (.finite t m₂ e₂ hpos₂)
      = roundWithAccuracy Format.binary64 (s / t) (m₁ * 2 ^ 53 / m₂) (e₁ - e₂ - 53)
          (accuracyOfFraction (m₁ * 2 ^ 53 % m₂) m₂) := by
    rw [UnpackedFloat.div, hcore]
  have hlog := log2_of_le hlong
  exact ⟨_, _, _, _, hlong, by omega, .of_quotient _ hpos₂, hquotient.symm, hdiv⟩

/-- **A quotient is rounded to the nearest double.** -/
theorem HasMagnitude.div {x y : UnpackedFloat} {s t : Sign} {p q : ℚ} (hx : HasMagnitude x s p)
    (hy : HasMagnitude y t q) (hlow : (2 : ℚ) ^ (-1000 : ℤ) ≤ p / q) {k : ℤ} (hk : p / q < 2 ^ k) :
    ∃ r, HasMagnitude (UnpackedFloat.div Format.binary64 x y) (s / t) r
      ∧ |r - p / q| ≤ 2 ^ (k - 54) :=
  (hx.isRounding_div hy hlow).near hk

/-! ## 3. Decoding -/

/-- The bit pattern of a full mantissa. -/
theorem toNat_pack_full {s : Sign} {m : ℕ} {e : ℤ} (hpos : 0 < m) (hm : FullMantissa m)
    (he : -1074 ≤ e) (he' : e ≤ 971) :
    (UnpackedFloat.pack Format.binary64 (.finite s m e hpos)).toNat
      = s.toBitVec.toNat * 2 ^ 63 + (e + 1075).toNat * 2 ^ 52 + (m - 2 ^ 52) := by
  have hbias : (Format.binary64.exponentBias : ℤ) = 1023 := rfl
  have hwidth : ((Format.binary64.mantissaBitsWithoutImplicit : ℕ) : ℤ) = 52 := rfl
  obtain ⟨biased, hbiased⟩ : ∃ b : ℕ, (b : ℤ) = e + 1075 := ⟨_, Int.toNat_of_nonneg (by omega)⟩
  have hexponent : (e + Format.binary64.exponentBias
      + Format.binary64.mantissaBitsWithoutImplicit).toNat = biased := by omega
  have hbits : m.log2 + 1 = Format.binary64.mantissaBits := by rw [hm.log2_eq]; rfl
  have hsmall : ¬ 2 ^ 11 ≤ biased + 1 := by norm_num; omega
  have hmantissa : (BitVec.ofNat 52 m).toNat = m - 2 ^ 52 := by
    have := hm.1
    have := hm.2
    rw [BitVec.toNat_ofNat]
    omega
  have hstored : (BitVec.ofNat 11 biased).toNat = biased := by
    rw [BitVec.toNat_ofNat, Nat.mod_eq_of_lt]
    omega
  simp only [UnpackedFloat.pack, hexponent, hbits]
  rw [if_neg hsmall, if_pos trivial]
  change (s.toBitVec ++ BitVec.ofNat 11 biased ++ BitVec.ofNat 52 m).toNat = _
  rw [BitVec.toNat_append, ← Nat.shiftLeft_add_eq_or_of_lt (BitVec.isLt _), BitVec.toNat_append,
    ← Nat.shiftLeft_add_eq_or_of_lt (BitVec.isLt _), hstored, hmantissa, Nat.shiftLeft_eq,
    Nat.shiftLeft_eq]
  omega

/-- Decoding gives the sign, the mantissa and the exponent back. -/
theorem ofBits?_full {m biased : ℕ} (hm : FullMantissa m) (hne : biased ≠ 0) (hlt : biased < 2047)
    (negative : Bool) :
    Binary64.ofBits? ((signOf negative).toBitVec.toNat * 2 ^ 63 + biased * 2 ^ 52 + (m - 2 ^ 52))
      = some ⟨negative, m, (biased : ℤ) - 1075⟩ := by
  obtain ⟨hlow, hhigh⟩ := hm
  have hsign : (signOf negative).toBitVec.toNat = negative.toNat := by cases negative <;> rfl
  have hone : negative.toNat ≤ 1 := Bool.toNat_le negative
  rw [hsign]
  generalize hbits : negative.toNat * 2 ^ 63 + biased * 2 ^ 52 + (m - 2 ^ 52) = bits
  have hfraction : bits % Binary64.hiddenBit = m - 2 ^ 52 := by
    rw [Binary64.hiddenBit]
    omega
  have hstored : bits / Binary64.hiddenBit % 2048 = biased := by
    rw [Binary64.hiddenBit]
    omega
  have htop : bits.testBit 63 = negative := by
    rw [Nat.testBit_eq_decide_div_mod_eq, show bits / 2 ^ 63 = negative.toNat by omega]
    cases negative <;> rfl
  have hrestored : Binary64.hiddenBit + (m - 2 ^ 52) = m := by
    rw [Binary64.hiddenBit]
    omega
  rw [Binary64.ofBits?, hfraction, hstored, htop, if_neg (by omega), if_neg hne, hrestored]

theorem ofFloat?_pack {u : UnpackedFloat} {negative : Bool} {q : ℚ}
    (h : HasMagnitude u (signOf negative) q) (hrange : InRange q) :
    ∃ b, Binary64.ofFloat? (.ofModel (.pack u)) = some b ∧ b.negative = negative
      ∧ (b.mantissa : ℚ) * 2 ^ b.exponent = q := by
  obtain ⟨m, e, hpos, rfl, hm, rfl⟩ := h
  have hlow := hm.exponent_gt hrange.1
  have hhigh := hm.exponent_lt hrange.2
  refine ⟨⟨negative, m, e⟩, ?_, rfl, rfl⟩
  change Binary64.ofBits? (UnpackedFloat.pack Format.binary64 (.finite _ m e hpos)).toNat = _
  rw [toNat_pack_full hpos hm (by omega) (by omega), ofBits?_full hm (by omega) (by omega)]
  simp only [Option.some.injEq, Binary64.mk.injEq, true_and]
  omega

/-! ## 4. Places -/

theorem abs_roundDivEven_sub_le (num : ℕ) {den : ℕ} (hden : 0 < den) :
    |(roundDivEven num den : ℚ) - num / den| ≤ 1 / 2 := by
  have hdenq : (0 : ℚ) < den := by exact_mod_cast hden
  have hnum : (num : ℚ) = den * (num / den : ℕ) + (num % den : ℕ) := by
    exact_mod_cast (Nat.div_add_mod num den).symm
  have hlt : num % den < den := Nat.mod_lt _ hden
  have hdiv : (num : ℚ) / den = (num / den : ℕ) + (num % den : ℕ) / den := by
    rw [div_eq_iff hdenq.ne', add_mul, div_mul_cancel₀ _ hdenq.ne', hnum]
    ring
  unfold roundDivEven
  dsimp only
  rw [hdiv]
  generalize num / den = q at *
  generalize num % den = r at *
  split
  next h =>
    have : (2 * r : ℚ) ≤ den := by exact_mod_cast (by omega : 2 * r ≤ den)
    have h' : (r : ℚ) / den ≤ 1 / 2 := by rw [div_le_iff₀ hdenq]; linarith
    have : (0 : ℚ) ≤ r / den := by positivity
    rw [abs_le]
    constructor <;> linarith
  next h =>
    have : (den : ℚ) ≤ 2 * r := by exact_mod_cast (by omega : den ≤ 2 * r)
    have h' : 1 / 2 ≤ (r : ℚ) / den := by rw [le_div_iff₀ hdenq]; linarith
    have : (r : ℚ) / den < 1 := by rw [div_lt_one hdenq]; exact_mod_cast hlt
    push_cast
    rw [abs_le]
    constructor <;> linarith

/-- A double close enough to a number of units is written as that number. -/
theorem Binary64.inPlaces_eq {b : Binary64} {places n : ℕ}
    (h : |(b.mantissa : ℚ) * 2 ^ b.exponent * 10 ^ places - n| < 1 / 2) : b.inPlaces places = n := by
  have hvalue : ((b.mantissa * Nat.pow 10 places * Nat.pow 2 b.exponent.toNat : ℕ) : ℚ)
      / (Nat.pow 2 (-b.exponent).toNat : ℕ) = b.mantissa * 2 ^ b.exponent * 10 ^ places := by
    have hsplit : b.exponent = (b.exponent.toNat : ℤ) - ((-b.exponent).toNat : ℤ) := by omega
    have hpow : (2 : ℚ) ^ b.exponent = 2 ^ b.exponent.toNat / 2 ^ (-b.exponent).toNat := by
      conv_lhs => rw [hsplit, zpow_sub₀ two_ne_zero, zpow_natCast, zpow_natCast]
    rw [hpow]
    simp only [Nat.pow_eq]
    push_cast
    ring
  have hnear := abs_roundDivEven_sub_le (b.mantissa * Nat.pow 10 places * Nat.pow 2 b.exponent.toNat)
    (show 0 < Nat.pow 2 (-b.exponent).toNat from Nat.pow_pos (by norm_num))
  rw [hvalue] at hnear
  change |((b.inPlaces places : ℕ) : ℚ) - _| ≤ _ at hnear
  have hdiff : |((b.inPlaces places : ℤ) : ℚ) - (n : ℤ)| < 1 := by
    push_cast
    calc |((b.inPlaces places : ℕ) : ℚ) - n|
        ≤ |((b.inPlaces places : ℕ) : ℚ) - b.mantissa * 2 ^ b.exponent * 10 ^ places|
          + |(b.mantissa : ℚ) * 2 ^ b.exponent * 10 ^ places - n| := abs_sub_le _ _ _
      _ < 1 := by linarith
  have hint : |(b.inPlaces places : ℤ) - n| < 1 := by exact_mod_cast hdiff
  have := Int.abs_lt_one_iff.1 hint
  omega

end DiceOdds
