import DiceOdds.Proofs.Doubles.Quotient

/-!
# Rounding as a factor

One rounding changes a number by a factor close to `1`, and does not change it at all if 53 bits
are enough for it.

## Why factors and not differences

Factors multiply along products and are inverted by quotients, with no regard to signs and to
sizes.  The error of a whole calculation is therefore told by the number of its roundings, and is
turned into a difference only at the end.
-/

namespace DiceOdds

open Float.Model Float.Model.UnpackedFloat

/-! ## 1. Errors as factors -/

/-- How far one rounding can lead: a number that is rounded down loses at most one part in
`2 ^ 53`, and this is the factor that gives it back. -/
def roundingFactor : ℚ := 2 ^ 53 / (2 ^ 53 - 1)

theorem one_le_roundingFactor : 1 ≤ roundingFactor := by norm_num [roundingFactor]

theorem roundingFactor_lt_two : roundingFactor < 2 := by norm_num [roundingFactor]

/-- A factor that `n` roundings can make up. -/
def IsDrift (n : ℕ) (r : ℚ) : Prop := r ≤ roundingFactor ^ n ∧ 1 ≤ r * roundingFactor ^ n

theorem IsDrift.pos {n : ℕ} {r : ℚ} (h : IsDrift n r) : 0 < r := by
  have hfactor : 0 < roundingFactor ^ n := pow_pos (by linarith [one_le_roundingFactor]) n
  exact pos_of_mul_pos_left (by linarith [h.2]) hfactor.le

theorem IsDrift.mul {m n : ℕ} {r t : ℚ} (hr : IsDrift m r) (ht : IsDrift n t) :
    IsDrift (m + n) (r * t) := by
  rw [IsDrift, pow_add]
  constructor
  · exact mul_le_mul hr.1 ht.1 ht.pos.le (hr.pos.le.trans hr.1)
  · calc (1 : ℚ) = 1 * 1 := (one_mul 1).symm
      _ ≤ r * roundingFactor ^ m * (t * roundingFactor ^ n) :=
        mul_le_mul hr.2 ht.2 zero_le_one (by linarith [hr.2])
      _ = r * t * (roundingFactor ^ m * roundingFactor ^ n) := by ring

theorem IsDrift.inv {n : ℕ} {r : ℚ} (hr : IsDrift n r) : IsDrift n r⁻¹ := by
  have hpos := hr.pos
  constructor
  · rw [inv_le_iff_one_le_mul₀ hpos, mul_comm]
    exact hr.2
  · rw [inv_mul_eq_div, one_le_div hpos]
    exact hr.1

/-- From `x` to `y` it takes at most `n` roundings. -/
def WithinRoundings (n : ℕ) (x y : ℚ) : Prop := ∃ r, IsDrift n r ∧ y = x * r

namespace WithinRoundings

variable {m n : ℕ} {x y z x' y' : ℚ}

theorem refl (n : ℕ) (x : ℚ) : WithinRoundings n x x := by
  have hone := one_le_pow₀ one_le_roundingFactor (n := n)
  exact ⟨1, ⟨hone, by rwa [one_mul]⟩, (mul_one x).symm⟩

theorem trans (h : WithinRoundings m x y) (h' : WithinRoundings n y z) :
    WithinRoundings (m + n) x z := by
  obtain ⟨r, hr, rfl⟩ := h
  obtain ⟨t, ht, rfl⟩ := h'
  exact ⟨r * t, hr.mul ht, mul_assoc x r t⟩

theorem mul (h : WithinRoundings m x y) (h' : WithinRoundings n x' y') :
    WithinRoundings (m + n) (x * x') (y * y') := by
  obtain ⟨r, hr, rfl⟩ := h
  obtain ⟨t, ht, rfl⟩ := h'
  exact ⟨r * t, hr.mul ht, mul_mul_mul_comm x r x' t⟩

theorem div (h : WithinRoundings m x y) (h' : WithinRoundings n x' y') :
    WithinRoundings (m + n) (x / x') (y / y') := by
  obtain ⟨r, hr, rfl⟩ := h
  obtain ⟨t, ht, rfl⟩ := h'
  exact ⟨r * t⁻¹, hr.mul ht.inv, by rw [mul_div_mul_comm, div_eq_mul_inv r t]⟩

/-- A small enough difference is a factor of one rounding. -/
theorem of_abs_sub_le (hx : 0 < x) (h : |y - x| ≤ x / 2 ^ 53) : WithinRoundings 1 x y := by
  rw [abs_le] at h
  refine ⟨y / x, ?_, (mul_div_cancel₀ y hx.ne').symm⟩
  rw [IsDrift, pow_one, div_le_iff₀ hx, div_mul_eq_mul_div, le_div_iff₀ hx, roundingFactor]
  constructor <;> norm_num at h ⊢ <;> linarith [h.1, h.2]

/-- Six roundings change a number by less than one part in `2 ^ 50`. -/
theorem abs_sub_le (h : WithinRoundings 6 x y) : |y - x| ≤ |x| / 2 ^ 50 := by
  obtain ⟨r, ⟨hhigh, hlow⟩, rfl⟩ := h
  have hr : |r - 1| ≤ 1 / 2 ^ 50 := by
    rw [roundingFactor] at hhigh hlow
    rw [abs_le]
    constructor <;> norm_num at hhigh hlow ⊢ <;> linarith
  calc |x * r - x| = |x| * |r - 1| := by rw [← abs_mul, mul_sub_one]
    _ ≤ |x| * (1 / 2 ^ 50) := mul_le_mul_of_nonneg_left hr (abs_nonneg x)
    _ = |x| / 2 ^ 50 := mul_one_div _ _

end WithinRoundings

/-! ## 2. One rounding -/

/-- 53 bits are enough for the number. -/
def IsDouble (v : ℚ) : Prop := ∃ (m : ℕ) (e : ℤ), m < 2 ^ 53 ∧ |v| = m * 2 ^ e

/-- What one rounding makes of a number: something close, and the number itself if 53 bits are
enough for it. -/
structure RoundsTo (v r : ℚ) : Prop where
  within : WithinRoundings 1 v r
  exact : IsDouble v → r = v

theorem RoundsTo.refl (v : ℚ) : RoundsTo v v := ⟨.refl 1 v, fun _ => rfl⟩

theorem RoundsTo.neg {v r : ℚ} (h : RoundsTo v r) : RoundsTo (-v) (-r) := by
  obtain ⟨⟨t, ht, rfl⟩, hexact⟩ := h
  refine ⟨⟨t, ht, (neg_mul v t).symm⟩, fun hdouble => ?_⟩
  rw [IsDouble, abs_neg] at hdouble
  rw [hexact hdouble]

theorem isDouble_natCast {n : ℕ} (hn : n < 2 ^ 53) : IsDouble n :=
  ⟨n, 0, hn, by rw [zpow_zero, mul_one, Nat.abs_cast]⟩

/-- A value that is a double is on the grid that rounding would take it to. -/
theorem roundWithAccuracy_isDouble {m : ℕ} {e : ℤ} {a : Accuracy} {x : ℚ} (hm : 2 ^ 52 ≤ m)
    (he : -1022 ≤ m.log2 + e) (hx : Represents (.ofMantissaAndAccuracy m a) x) (s : Sign)
    (hdouble : IsDouble (x * 2 ^ e)) :
    HasMagnitude (roundWithAccuracy Format.binary64 s m e a) s (x * 2 ^ e) := by
  obtain ⟨hvalue, hcut⟩ := roundWithAccuracy_value hm he hx s
  obtain ⟨hlow, -⟩ := fullMantissa_cut hm a
  generalize m.log2 - 52 = j at hvalue hcut
  obtain ⟨y, hy⟩ : ∃ y, x / 2 ^ j = y := ⟨_, rfl⟩
  have hunit : (0 : ℚ) < 2 ^ (e + j) := by positivity
  have hexact : x * 2 ^ e = y * 2 ^ (e + j) := by
    rw [← hy, zpow_add₀ two_ne_zero, zpow_natCast]
    field_simp
  have hyLow : (2 : ℚ) ^ 52 ≤ y := by
    have hmantissa : ((2 ^ 52 : ℕ) : ℚ) ≤ (cutMantissa m a).mantissa := by exact_mod_cast hlow
    have hhalf : 0 ≤ halfIf (cutMantissa m a).roundBit := by rw [halfIf]; split <;> norm_num
    have hle := hcut.le
    rw [hy] at hle
    push_cast at hmantissa
    linarith
  obtain ⟨n, f, hn, hnf⟩ := hdouble
  rw [hexact, abs_of_pos (by positivity)] at hnf
  rcases le_or_gt (e + j) f with hge | hlt
  · -- the grid of the double is coarser, so the exact mantissa is a whole number
    obtain ⟨d, rfl⟩ := Int.le.dest hge
    have hwhole : x / 2 ^ j = ((n * 2 ^ d : ℕ) : ℚ) := by
      rw [zpow_add₀ two_ne_zero (e + j) d, zpow_natCast] at hnf
      rw [hy]
      push_cast
      exact mul_right_cancel₀ hunit.ne' (by linarith)
    rw [hcut.rounded_eq hwhole, ← hwhole, hy, ← hexact] at hvalue
    exact hvalue
  · -- a finer grid has no number of this size
    have hsmall : (2 : ℚ) ^ f ≤ 2 ^ (e + j) / 2 := by
      rw [div_eq_mul_inv, ← zpow_sub_one₀ two_ne_zero]
      exact zpow_le_zpow_right₀ (by norm_num) (by omega)
    have hbits : (n : ℚ) < 2 ^ 53 := by exact_mod_cast hn
    have hfpos : (0 : ℚ) < 2 ^ f := by positivity
    have : y * 2 ^ (e + j) < 2 ^ 52 * 2 ^ (e + j) := by
      rw [hnf]
      calc (n : ℚ) * 2 ^ f < 2 ^ 53 * 2 ^ f := mul_lt_mul_of_pos_right hbits hfpos
        _ ≤ 2 ^ 53 * (2 ^ (e + j) / 2) := mul_le_mul_of_nonneg_left hsmall (by positivity)
        _ = 2 ^ 52 * 2 ^ (e + j) := by ring
    exact absurd (lt_of_mul_lt_mul_right this hunit.le) (not_lt.2 hyLow)

theorem IsRounding.roundsTo {u : UnpackedFloat} {s : Sign} {v : ℚ} (h : IsRounding u s v)
    (hv : 0 < v) : ∃ q, HasMagnitude u s q ∧ RoundsTo v q := by
  by_cases hdouble : IsDouble v
  · obtain ⟨m, e, a, x, hm, he, hx, rfl, rfl⟩ := h
    exact ⟨_, roundWithAccuracy_isDouble hm he hx s hdouble, .refl _⟩
  · obtain ⟨k, hlow, hhigh⟩ := exists_mem_Ico_zpow hv (by norm_num : (1 : ℚ) < 2)
    obtain ⟨q, hq, herror⟩ := h.near hhigh
    refine ⟨q, hq, .of_abs_sub_le hv (herror.trans ?_), fun h => absurd h hdouble⟩
    calc (2 : ℚ) ^ (k + 1 - 54) = 2 ^ k / 2 ^ 53 := by
          rw [show k + 1 - 54 = k - (53 : ℕ) by omega, zpow_sub₀ two_ne_zero, zpow_natCast]
      _ ≤ v / 2 ^ 53 := div_le_div_of_nonneg_right hlow (by positivity)

/-! ## 3. Whole numbers of 53 bits -/

/-- A large double is a whole number. -/
theorem IsDouble.exists_int {v : ℚ} (h : IsDouble v) (hv : 2 ^ 52 ≤ |v|) : ∃ n : ℤ, v = n := by
  obtain ⟨m, e, hm, he⟩ := h
  have hbits : (m : ℚ) < 2 ^ 53 := by exact_mod_cast hm
  obtain ⟨k, rfl⟩ : ∃ k : ℕ, e = k := by
    refine ⟨e.toNat, (Int.toNat_of_nonneg ?_).symm⟩
    by_contra hneg
    have hunit : (2 : ℚ) ^ e ≤ 2 ^ (-1 : ℤ) := zpow_le_zpow_right₀ (by norm_num) (by omega)
    have hhalf : (m : ℚ) * 2 ^ e ≤ m * 2 ^ (-1 : ℤ) := mul_le_mul_of_nonneg_left hunit m.cast_nonneg
    rw [← he, zpow_neg_one] at hhalf
    linarith
  have hwhole : |v| = ((m * 2 ^ k : ℕ) : ℤ) := by
    rw [he, zpow_natCast]
    push_cast
    ring
  rcases abs_choice v with h | h
  · exact ⟨_, h.symm.trans hwhole⟩
  · exact ⟨-((m * 2 ^ k : ℕ) : ℤ), by rw [Int.cast_neg, ← hwhole, h, neg_neg]⟩

theorem isDouble_intCast {n : ℤ} (hn : n.natAbs < 2 ^ 53) : IsDouble n := by
  obtain ⟨m, e, hm, he⟩ := isDouble_natCast hn
  refine ⟨m, e, hm, ?_⟩
  rw [← he, Nat.abs_cast, Nat.cast_natAbs, Int.cast_abs]

/-- A divisor needs no more bits than the number. -/
theorem IsDouble.of_dvd {n d : ℤ} (h : IsDouble n) (hn : n ≠ 0) (hd : d ∣ n) : IsDouble d := by
  obtain ⟨m, e, hm, he⟩ := h
  have habs : |(n : ℚ)| = n.natAbs := by rw [Nat.cast_natAbs, Int.cast_abs]
  have hpos := Int.natAbs_pos.2 hn
  have hdvd := Int.natAbs_dvd_natAbs.2 hd
  rw [habs] at he
  rcases le_or_gt e 0 with hneg | hgt
  · -- the number itself has no more than 53 bits
    have hunit : (2 : ℚ) ^ e ≤ 1 := zpow_le_one_of_nonpos₀ (by norm_num) hneg
    have hle : (n.natAbs : ℚ) ≤ m := by
      rw [he]
      exact mul_le_of_le_one_right m.cast_nonneg hunit
    have hle' : n.natAbs ≤ m := by exact_mod_cast hle
    exact isDouble_intCast (by have := Nat.le_of_dvd hpos hdvd; omega)
  · -- only the odd part of the divisor needs bits
    obtain ⟨k, rfl⟩ : ∃ k : ℕ, e = k := ⟨e.toNat, (Int.toNat_of_nonneg hgt.le).symm⟩
    have hn' : n.natAbs = m * 2 ^ k := by
      rw [zpow_natCast] at he
      exact_mod_cast he
    have hdne : d.natAbs ≠ 0 := fun h => by rw [h, zero_dvd_iff] at hdvd; omega
    obtain ⟨f, odd, hodd, hd'⟩ := Nat.exists_eq_two_pow_mul_odd hdne
    have hcoprime : Nat.Coprime odd (2 ^ k) := (Nat.Coprime.pow_left k hodd.coprime_two_left).symm
    have hodd' : odd ∣ m := by
      refine hcoprime.dvd_of_dvd_mul_right ((Dvd.intro_left _ hd'.symm).trans ?_)
      rwa [← hn']
    have hmpos : 0 < m := Nat.pos_of_ne_zero (by rintro rfl; omega)
    refine ⟨odd, f, (Nat.le_of_dvd hmpos hodd').trans_lt hm, ?_⟩
    rw [← Int.cast_abs, ← Nat.cast_natAbs, hd', zpow_natCast]
    push_cast
    ring

end DiceOdds
