import Mathlib

/-!
# How doubles are rounded

An operation on doubles forms the mantissa of its exact result and shifts it to the right until 53
bits are left; the bits that are lost decide between this mantissa and the next one.  Here are the
steps of that procedure for results that are not too small, which never lose their leading bit.

## Why the mantissas come first

A mantissa after rounding is the one before rounding or the one above it, whatever the lost bits
were.  For a bound that is a power of two nothing more is needed, and the value of the lost bits
does not come in.
-/

namespace DiceOdds

open Float.Model Float.Model.UnpackedFloat

/-! ## 1. Packing -/

/-- A mantissa of 53 bits. -/
def FullMantissa (m : ℕ) : Prop := 2 ^ 52 ≤ m ∧ m < 2 ^ 53

theorem FullMantissa.log2_eq {m : ℕ} (h : FullMantissa m) : m.log2 = 52 := by
  have hne : m ≠ 0 := by rintro rfl; exact absurd h.1 (by norm_num)
  have hle := (Nat.le_log2 hne).2 h.1
  have hlt := (Nat.log2_lt hne).2 h.2
  omega

theorem unpackSign_packComponents {spec : Format} (s : Sign) (e : BitVec spec.exponentBits)
    (m : BitVec spec.mantissaBitsWithoutImplicit) :
    unpackSign (packComponents spec s e m) = s.toBitVec := by
  apply BitVec.eq_of_getLsbD_eq
  intro i hi
  obtain rfl : i = 0 := by omega
  simp [unpackSign, packComponents, BitVec.getLsbD_append, BitVec.getElem_append]

theorem ofBitVec_toBitVec (s : Sign) : Sign.ofBitVec s.toBitVec = s := by
  cases s <;> rfl

/-- A full mantissa is stored without its leading bit. -/
theorem toNat_append_ofNat {m : ℕ} (h : FullMantissa m) :
    (1#1 ++ BitVec.ofNat 52 m).toNat = m := by
  rw [BitVec.toNat_append, ← Nat.shiftLeft_add_eq_or_of_lt (BitVec.isLt _), BitVec.toNat_ofNat,
    BitVec.toNat_ofNat, Nat.shiftLeft_eq]
  obtain ⟨hle, hlt⟩ := h
  omega

theorem unpack_packedInfinity (s : Sign) :
    UnpackedFloat.unpack Format.binary64 (packedInfinity Format.binary64 s) = .infinity s := by
  simp only [UnpackedFloat.unpack, packedInfinity, unpackMantissa_packComponents,
    unpackExponent_packComponents, unpackSign_packComponents, ofBitVec_toBitVec]
  rfl

/-- What is packed is unpacked again, unless it is too large. -/
theorem unpack_pack_full {s : Sign} {m : ℕ} {e : ℤ} (hpos : 0 < m) (hm : FullMantissa m)
    (he : -1074 ≤ e) :
    UnpackedFloat.unpack Format.binary64 (UnpackedFloat.pack Format.binary64 (.finite s m e hpos))
      = if e ≤ 971 then .finite s m e hpos else .infinity s := by
  obtain ⟨biased, hbiased⟩ : ∃ b : ℕ, (b : ℤ) = e + 1075 := ⟨_, Int.toNat_of_nonneg (by omega)⟩
  have hexponent : (e + Format.binary64.exponentBias
      + Format.binary64.mantissaBitsWithoutImplicit).toNat = biased := by
    have : (Format.binary64.exponentBias : ℤ) = 1023 := rfl
    have : ((Format.binary64.mantissaBitsWithoutImplicit : ℕ) : ℤ) = 52 := rfl
    omega
  have hbits : m.log2 + 1 = Format.binary64.mantissaBits := by rw [hm.log2_eq]; rfl
  simp only [UnpackedFloat.pack, hexponent, hbits]
  by_cases hlarge : e ≤ 971
  · have hsmall : ¬ 2 ^ 11 ≤ biased + 1 := by norm_num; omega
    rw [if_neg hsmall, if_pos trivial, if_pos hlarge]
    have hnat : (BitVec.ofNat 11 biased).toNat = biased := by
      rw [BitVec.toNat_ofNat, Nat.mod_eq_of_lt]
      omega
    have hnot : BitVec.ofNat 11 biased ≠ -1#11 := by
      intro h
      have := congrArg BitVec.toNat h
      rw [hnat] at this
      have hones : (-1#11 : BitVec 11).toNat = 2047 := rfl
      omega
    have hnotzero : BitVec.ofNat 11 biased ≠ 0#11 := by
      intro h
      have := congrArg BitVec.toNat h
      rw [hnat] at this
      have hzero : (0#11 : BitVec 11).toNat = 0 := rfl
      omega
    simp only [UnpackedFloat.unpack, unpackMantissa_packComponents, unpackExponent_packComponents,
      unpackSign_packComponents, ofBitVec_toBitVec]
    rw [if_neg hnot, if_neg hnotzero]
    congr 1
    · exact toNat_append_ofNat hm
    · rw [hnat]
      have : (Format.binary64.exponentBias : ℤ) = 1023 := rfl
      have : ((Format.binary64.mantissaBitsWithoutImplicit : ℕ) : ℤ) = 52 := rfl
      omega
  · have hoverflow : 2 ^ 11 ≤ biased + 1 := by norm_num; omega
    rw [if_pos hoverflow, if_neg hlarge, unpack_packedInfinity]

/-! ## 2. Shifting -/

theorem mantissa_shiftRight (em : ExtendedMantissa) (n : ℕ) :
    (em >>> n).mantissa = em.mantissa / 2 ^ n := by
  induction n with
  | zero => exact (Nat.div_one _).symm
  | succ n ih =>
    have hsucc : em >>> (n + 1) = (em >>> n).shiftRightOne := rfl
    rw [hsucc, ExtendedMantissa.shiftRightOne, ih, Nat.div_div_eq_div_mul, pow_succ]

theorem mantissa_ofMantissaAndAccuracy (m : ℕ) (a : Accuracy) :
    (ExtendedMantissa.ofMantissaAndAccuracy m a).mantissa = m := by
  rcases a with _ | (_ | _ | _) <;> rfl

/-- Rounding takes the mantissa or the next one. -/
theorem roundedMantissa_mem (em : ExtendedMantissa) :
    em.mantissa ≤ em.roundedMantissa ∧ em.roundedMantissa ≤ em.mantissa + 1 := by
  rcases em with ⟨m, _ | _, _ | _⟩ <;>
    simp only [ExtendedMantissa.roundedMantissa, ExtendedMantissa.accuracy,
      Accuracy.roundToNearestEven] <;> omega

/-- The exponent that leaves 53 bits of a mantissa. -/
theorem targetExponent_eq {m : ℕ} {e : ℤ} (he : -1022 ≤ m.log2 + e) :
    Format.binary64.targetExponent (totalExponent m e) = m.log2 + e - 52 := by
  have hbits : (Format.binary64.mantissaBits : ℤ) = 53 := rfl
  have hmin : Format.binary64.minExponent = -1074 := rfl
  rw [Format.targetExponent, totalExponent, hbits, hmin]
  omega

theorem fullMantissa_shift {m : ℕ} (hm : 2 ^ 52 ≤ m) : FullMantissa (m / 2 ^ (m.log2 - 52)) := by
  have hne : m ≠ 0 := by rintro rfl; exact absurd hm (by norm_num)
  have hlog : 52 ≤ m.log2 := (Nat.le_log2 hne).2 hm
  have hle : 2 ^ 52 * 2 ^ (m.log2 - 52) ≤ m := by
    rw [← pow_add, Nat.add_sub_cancel' hlog]
    exact Nat.log2_self_le hne
  have hlt : m < 2 ^ 53 * 2 ^ (m.log2 - 52) := by
    rw [← pow_add, show 53 + (m.log2 - 52) = m.log2 + 1 by omega]
    exact Nat.lt_log2_self
  exact ⟨(Nat.le_div_iff_mul_le (by positivity)).2 hle, (Nat.div_lt_iff_lt_mul (by positivity)).2 hlt⟩

/-! ## 3. Rounding -/

/-- The mantissa of the exact result, cut to 53 bits. -/
def cutMantissa (m : ℕ) (a : Accuracy) : ExtendedMantissa :=
  ExtendedMantissa.ofMantissaAndAccuracy m a >>> (m.log2 - 52)

theorem fullMantissa_cut {m : ℕ} (hm : 2 ^ 52 ≤ m) (a : Accuracy) :
    FullMantissa (cutMantissa m a).mantissa := by
  rw [cutMantissa, mantissa_shiftRight, mantissa_ofMantissaAndAccuracy]
  exact fullMantissa_shift hm

theorem shiftToTargetExponent_eq {m : ℕ} {e : ℤ} (hm : 2 ^ 52 ≤ m) (he : -1022 ≤ m.log2 + e)
    (a : Accuracy) : shiftToTargetExponent Format.binary64 m e a
      = (cutMantissa m a, e + (m.log2 - 52 : ℕ)) := by
  have hne : m ≠ 0 := by rintro rfl; exact absurd hm (by norm_num)
  have hlog : 52 ≤ m.log2 := (Nat.le_log2 hne).2 hm
  have hshift : (m.log2 + e - 52 - e).toNat = m.log2 - 52 := by omega
  rw [shiftToTargetExponent, targetExponent_eq he, shiftToExponent, hshift, cutMantissa]

/-- **Rounding keeps 53 bits.**  Up to a carry, the result is the rounded mantissa. -/
theorem roundWithAccuracy_eq {m : ℕ} {e : ℤ} (hm : 2 ^ 52 ≤ m) (he : -1022 ≤ m.log2 + e) (s : Sign)
    (a : Accuracy) : ∃ (m' : ℕ) (e' : ℤ) (hpos : 0 < m'),
      roundWithAccuracy Format.binary64 s m e a = .finite s m' e' hpos ∧ FullMantissa m'
        ∧ (m' = (cutMantissa m a).roundedMantissa ∧ e' = e + (m.log2 - 52 : ℕ)
          ∨ m' * 2 = (cutMantissa m a).roundedMantissa ∧ e' = e + (m.log2 - 52 : ℕ) + 1) := by
  obtain ⟨hcut, hcut'⟩ := fullMantissa_cut hm a
  obtain ⟨hlow, hhigh⟩ := roundedMantissa_mem (cutMantissa m a)
  have hlog : 52 ≤ m.log2 := (Nat.le_log2 (by rintro rfl; exact absurd hm (by norm_num))).2 hm
  unfold roundWithAccuracy
  rw [shiftToTargetExponent_eq hm he]
  dsimp only
  generalize (cutMantissa m a).roundedMantissa = r at hlow hhigh ⊢
  have hr : 2 ^ 52 ≤ r := hcut.trans hlow
  have hrlog : 52 ≤ r.log2 := (Nat.le_log2 (by rintro rfl; exact absurd hr (by norm_num))).2 hr
  have hmantissa : (cutMantissa r .exact).mantissa = r / 2 ^ (r.log2 - 52) := by
    rw [cutMantissa, mantissa_shiftRight, mantissa_ofMantissaAndAccuracy]
  have hfull := fullMantissa_shift hr
  have hne : r / 2 ^ (r.log2 - 52) ≠ 0 := by
    have := hfull.1
    intro h
    rw [h] at this
    exact absurd this (by norm_num)
  rw [shiftToTargetExponent_eq hr (by omega)]
  dsimp only
  rw [hmantissa, dif_neg hne]
  refine ⟨_, _, Nat.pos_of_ne_zero hne, rfl, hfull, ?_⟩
  rcases Nat.lt_or_ge r (2 ^ 53) with hlt | hge
  · left
    have hr52 : r.log2 = 52 := FullMantissa.log2_eq ⟨hr, hlt⟩
    rw [hr52]
    simp
  · -- the rounded mantissa has carried into one more bit
    right
    obtain rfl : r = 2 ^ 53 := by omega
    rw [Nat.log2_two_pow]
    norm_num

end DiceOdds
