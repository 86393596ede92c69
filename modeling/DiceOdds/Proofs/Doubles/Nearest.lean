import DiceOdds.Proofs.Doubles.AtLeastOne

/-!
# How near a rounded result is

The bits that rounding loses say whether the exact result lies below, at or above the middle
between two mantissas.  So what is kept is at most half a unit away from the exact result, and is
exact whenever the exact result has a mantissa of 53 bits.

## Why the bound names a power of two

The unit of a mantissa depends on the size of the result only through the next power of two.  A
bound on the result is therefore enough to bound the error, and nothing has to be known about the
mantissa itself.
-/

namespace DiceOdds

open Float.Model Float.Model.UnpackedFloat

/-! ## 1. What the lost bits say -/

/-- What the first lost bit stands for. -/
def halfIf (b : Bool) : ℚ := if b then 1 / 2 else 0

/-- The exact value behind a mantissa and the two bits that sum up what was lost. -/
structure Represents (em : ExtendedMantissa) (x : ℚ) : Prop where
  le : em.mantissa + halfIf em.roundBit ≤ x
  lt : x < em.mantissa + halfIf em.roundBit + 1 / 2
  exact : em.stickyBit = false → x = em.mantissa + halfIf em.roundBit

namespace Represents

variable {em : ExtendedMantissa} {x : ℚ}

theorem shiftRightOne (h : Represents em x) : Represents em.shiftRightOne (x / 2) := by
  obtain ⟨m, round, sticky⟩ := em
  obtain ⟨hle, hlt, hexact⟩ := h
  have hdiv : (m : ℚ) = 2 * (m / 2 : ℕ) + (m % 2 : ℕ) := by exact_mod_cast (Nat.div_add_mod m 2).symm
  dsimp only at hle hlt hexact
  rcases Nat.mod_two_eq_zero_or_one m with hmod | hmod <;> rw [hmod] at hdiv <;> push_cast at hdiv <;>
    cases round <;>
    (refine ⟨?_, ?_, ?_⟩ <;>
      simp only [ExtendedMantissa.shiftRightOne, hmod, halfIf, Bool.false_or, Bool.true_or] at * <;>
      norm_num at * <;> first | linarith | (intro hsticky; linarith [hexact hsticky]))

theorem shiftRight (h : Represents em x) (n : ℕ) : Represents (em >>> n) (x / 2 ^ n) := by
  induction n with
  | zero => rw [pow_zero, div_one]; exact h
  | succ n ih =>
    rw [pow_succ, ← div_div]
    exact ih.shiftRightOne

/-- Rounding goes to the nearest mantissa. -/
theorem abs_rounded_sub_le (h : Represents em x) : |(em.roundedMantissa : ℚ) - x| ≤ 1 / 2 := by
  obtain ⟨m, round, sticky⟩ := em
  obtain ⟨hle, hlt, hexact⟩ := h
  have hparity : ((m % 2 : ℕ) : ℚ) = 0 ∨ ((m % 2 : ℕ) : ℚ) = 1 := by
    rcases Nat.mod_two_eq_zero_or_one m with h | h <;> simp [h]
  rw [abs_le]
  cases round <;> cases sticky <;>
    simp only [ExtendedMantissa.roundedMantissa, ExtendedMantissa.accuracy,
      Accuracy.roundToNearestEven, halfIf] at * <;> norm_num at * <;>
    first
      | (constructor <;> linarith)
      | (rcases hparity with hp | hp <;> rw [hp] <;> constructor <;> linarith)

/-- An exact mantissa stays as it is. -/
theorem rounded_eq {m : ℕ} (h : Represents em x) (hx : x = m) : em.roundedMantissa = m := by
  have hnear := abs_le.1 h.abs_rounded_sub_le
  have hlow : ((m : ℤ) : ℚ) - 1 < (em.roundedMantissa : ℤ) := by push_cast; linarith [hnear.1]
  have hhigh : ((em.roundedMantissa : ℤ) : ℚ) < (m : ℤ) + 1 := by push_cast; linarith [hnear.2]
  have hlow' : (m : ℤ) - 1 < em.roundedMantissa := by exact_mod_cast hlow
  have hhigh' : (em.roundedMantissa : ℤ) < m + 1 := by exact_mod_cast hhigh
  omega

theorem of_exact (m : ℕ) : Represents (.ofMantissaAndAccuracy m .exact) m :=
  ⟨by simp [ExtendedMantissa.ofMantissaAndAccuracy, halfIf],
    by simp [ExtendedMantissa.ofMantissaAndAccuracy, halfIf],
    fun _ => by simp [ExtendedMantissa.ofMantissaAndAccuracy, halfIf]⟩

/-- The remainder of a division tells which side of the middle the quotient is on. -/
theorem of_quotient (num : ℕ) {den : ℕ} (hden : 0 < den) :
    Represents (.ofMantissaAndAccuracy (num / den) (accuracyOfFraction (num % den) den))
      (num / den : ℚ) := by
  have hdenq : (0 : ℚ) < den := by exact_mod_cast hden
  have hsum : (num : ℚ) / den = (num / den : ℕ) + (num % den : ℕ) / den := by
    have h : (num : ℚ) = den * (num / den : ℕ) + (num % den : ℕ) := by
      exact_mod_cast (Nat.div_add_mod num den).symm
    rw [div_eq_iff hdenq.ne', add_mul, div_mul_cancel₀ _ hdenq.ne', h]
    ring
  have hlt : num % den < den := Nat.mod_lt _ hden
  rw [hsum]
  generalize num / den = q at *
  generalize num % den = r at *
  unfold accuracyOfFraction
  split
  next hzero =>
    subst hzero
    simpa using of_exact q
  next hzero =>
    have hpos : (0 : ℚ) < r / den := by
      have : 0 < r := Nat.pos_of_ne_zero hzero
      positivity
    have hone : (r : ℚ) / den < 1 := by rw [div_lt_one hdenq]; exact_mod_cast hlt
    have hhalf : (r : ℚ) / den < 1 / 2 ↔ 2 * r < den := by
      rw [div_lt_div_iff₀ hdenq (by norm_num)]
      norm_cast
      omega
    have hhalf' : (r : ℚ) / den = 1 / 2 ↔ 2 * r = den := by
      rw [div_eq_div_iff hdenq.ne' (by norm_num)]
      norm_cast
      omega
    rcases Nat.lt_trichotomy (2 * r) den with h | h | h
    · rw [Nat.compare_eq_lt.2 h]
      have := hhalf.2 h
      exact ⟨by simp only [ExtendedMantissa.ofMantissaAndAccuracy, halfIf]; norm_num; linarith,
        by simp only [ExtendedMantissa.ofMantissaAndAccuracy, halfIf]; norm_num; linarith, nofun⟩
    · rw [Nat.compare_eq_eq.2 h, hhalf'.2 h]
      exact ⟨by simp [ExtendedMantissa.ofMantissaAndAccuracy, halfIf],
        by simp [ExtendedMantissa.ofMantissaAndAccuracy, halfIf],
        fun _ => by simp [ExtendedMantissa.ofMantissaAndAccuracy, halfIf]⟩
    · rw [Nat.compare_eq_gt.2 h]
      have hge : 1 / 2 ≤ (r : ℚ) / den := not_lt.1 fun hlt' => absurd (hhalf.1 hlt') (by omega)
      exact ⟨by simp only [ExtendedMantissa.ofMantissaAndAccuracy, halfIf]; norm_num; linarith,
        by simp only [ExtendedMantissa.ofMantissaAndAccuracy, halfIf]; norm_num; linarith, nofun⟩

end Represents

/-! ## 2. Magnitudes -/

/-- The value has a full mantissa, and this is its magnitude. -/
def HasMagnitude (x : UnpackedFloat) (s : Sign) (q : ℚ) : Prop :=
  ∃ m e hpos, x = .finite s m e hpos ∧ FullMantissa m ∧ (m : ℚ) * 2 ^ e = q

/-- The mantissa decides everything but the exponent. -/
theorem FullMantissa.bounds {m : ℕ} (h : FullMantissa m) (e : ℤ) :
    (2 : ℚ) ^ (52 + e) ≤ m * 2 ^ e ∧ (m : ℚ) * 2 ^ e < 2 ^ (53 + e) := by
  have hpow : (0 : ℚ) < 2 ^ e := by positivity
  have hlow : ((2 : ℚ) ^ (52 : ℤ)) ≤ m := by exact_mod_cast h.1
  have hhigh : (m : ℚ) < 2 ^ (53 : ℤ) := by exact_mod_cast h.2
  rw [zpow_add₀ two_ne_zero, zpow_add₀ two_ne_zero]
  exact ⟨mul_le_mul_of_nonneg_right hlow hpow.le, mul_lt_mul_of_pos_right hhigh hpow⟩

theorem HasMagnitude.neg {x : UnpackedFloat} {s : Sign} {q : ℚ} (h : HasMagnitude x s q) :
    HasMagnitude x.neg (-s) q := by
  obtain ⟨m, e, hpos, rfl, hm, hq⟩ := h
  exact ⟨m, e, hpos, rfl, hm, hq⟩

theorem FullMantissa.exponent_gt {m : ℕ} (h : FullMantissa m) {e k : ℤ}
    (hk : (2 : ℚ) ^ k ≤ m * 2 ^ e) : k < 53 + e :=
  (zpow_lt_zpow_iff_right₀ (by norm_num : (1 : ℚ) < 2)).1 (hk.trans_lt (h.bounds e).2)

theorem FullMantissa.exponent_lt {m : ℕ} (h : FullMantissa m) {e k : ℤ}
    (hk : (m : ℚ) * 2 ^ e < 2 ^ k) : 52 + e < k :=
  (zpow_lt_zpow_iff_right₀ (by norm_num : (1 : ℚ) < 2)).1 ((h.bounds e).1.trans_lt hk)

/-- The magnitude is one that full mantissas have. -/
def InRange (q : ℚ) : Prop := (2 : ℚ) ^ (-1022 : ℤ) ≤ q ∧ q < 2 ^ (1024 : ℤ)

/-- Storing a value in the usual range changes nothing. -/
theorem HasMagnitude.unpack_pack {x : UnpackedFloat} {s : Sign} {q : ℚ} (h : HasMagnitude x s q)
    (hrange : InRange q) : HasMagnitude (Float.Model.pack x).unpack s q := by
  obtain ⟨m, e, hpos, rfl, hm, rfl⟩ := h
  have hlow := hm.exponent_gt hrange.1
  have hhigh := hm.exponent_lt hrange.2
  rw [DiceOdds.unpack_pack, unpack_pack_full hpos hm (by omega), if_pos (by omega)]
  exact ⟨m, e, hpos, rfl, hm, rfl⟩

/-! ## 3. Rounding -/

/-- The rounded value lies on the grid of the mantissa that was cut, and that mantissa still knows
the exact one. -/
theorem roundWithAccuracy_value {m : ℕ} {e : ℤ} {a : Accuracy} {x : ℚ} (hm : 2 ^ 52 ≤ m)
    (he : -1022 ≤ m.log2 + e) (hx : Represents (.ofMantissaAndAccuracy m a) x) (s : Sign) :
    HasMagnitude (roundWithAccuracy Format.binary64 s m e a) s
        ((cutMantissa m a).roundedMantissa * 2 ^ (e + (m.log2 - 52 : ℕ)))
      ∧ Represents (cutMantissa m a) (x / 2 ^ (m.log2 - 52)) := by
  obtain ⟨m', e', hpos, heq, hfull, hcases⟩ := roundWithAccuracy_eq hm he s a
  refine ⟨⟨m', e', hpos, heq, hfull, ?_⟩, hx.shiftRight _⟩
  rcases hcases with ⟨rfl, rfl⟩ | ⟨htwice, rfl⟩
  · rfl
  · rw [← htwice, zpow_add_one₀ two_ne_zero]
    push_cast
    ring

/-- A mantissa of 53 bits is not rounded, however many zeros are behind it. -/
theorem roundWithAccuracy_exact {m : ℕ} {e : ℤ} (hm : FullMantissa m) (j : ℕ)
    (he : -1022 ≤ 52 + j + e) (s : Sign) :
    HasMagnitude (roundWithAccuracy Format.binary64 s (m * 2 ^ j) e .exact) s
      (m * 2 ^ (e + j)) := by
  have hne : m ≠ 0 := by rintro rfl; exact absurd hm.1 (by norm_num)
  have hlog : (m * 2 ^ j).log2 = 52 + j := by
    rw [Nat.log2_eq_iff (Nat.mul_ne_zero hne (by positivity)), pow_add, pow_add, pow_add, mul_right_comm]
    exact ⟨Nat.mul_le_mul_right _ hm.1, Nat.mul_lt_mul_of_pos_right hm.2 (by positivity)⟩
  have hlong : 2 ^ 52 ≤ m * 2 ^ j := hm.1.trans (Nat.le_mul_of_pos_right _ (by positivity))
  obtain ⟨hvalue, hcut⟩ := roundWithAccuracy_value hlong (by rw [hlog]; push_cast; omega)
    (.of_exact (m * 2 ^ j)) s
  have hj : 52 + j - 52 = j := by omega
  rw [hlog, hj] at hvalue hcut
  have hmantissa : ((m * 2 ^ j : ℕ) : ℚ) / 2 ^ j = m := by
    push_cast
    field_simp
  rwa [hcut.rounded_eq hmantissa] at hvalue

/-- **Rounding is to the nearest.**  Below a power of two the error is at most half the unit of
the mantissas there. -/
theorem roundWithAccuracy_near {m : ℕ} {e : ℤ} {a : Accuracy} {x : ℚ} (hm : 2 ^ 52 ≤ m)
    (he : -1022 ≤ m.log2 + e) (hx : Represents (.ofMantissaAndAccuracy m a) x) (s : Sign) {k : ℤ}
    (hk : x * 2 ^ e < 2 ^ k) :
    ∃ q, HasMagnitude (roundWithAccuracy Format.binary64 s m e a) s q
      ∧ |q - x * 2 ^ e| ≤ 2 ^ (k - 54) := by
  have hne : m ≠ 0 := by rintro rfl; exact absurd hm (by norm_num)
  have hlog : 52 ≤ m.log2 := (Nat.le_log2 hne).2 hm
  obtain ⟨hvalue, hcut⟩ := roundWithAccuracy_value hm he hx s
  obtain ⟨j, hj⟩ : ∃ j : ℕ, m.log2 - 52 = j := ⟨_, rfl⟩
  rw [hj] at hvalue hcut
  have hnear := hcut.abs_rounded_sub_le
  generalize (cutMantissa m a).roundedMantissa = r at hnear hvalue
  have hunit : (0 : ℚ) < 2 ^ (e + j) := by positivity
  refine ⟨_, hvalue, ?_⟩
  have hexact : x * 2 ^ e = x / 2 ^ j * 2 ^ (e + j) := by
    rw [zpow_add₀ two_ne_zero, zpow_natCast]
    field_simp
  have hsmall : e + j + 53 ≤ k := by
    have hmx : (m : ℚ) ≤ x := le_trans (by
      rcases a with _ | (_ | _ | _) <;>
        simp [ExtendedMantissa.ofMantissaAndAccuracy, halfIf]) hx.le
    have hpow : (2 : ℚ) ^ (52 + j + e : ℤ) ≤ x * 2 ^ e := by
      calc (2 : ℚ) ^ (52 + j + e : ℤ) = 2 ^ m.log2 * 2 ^ e := by
            rw [← zpow_natCast, ← zpow_add₀ two_ne_zero]
            congr 1
            omega
        _ ≤ m * 2 ^ e := by
            refine mul_le_mul_of_nonneg_right ?_ (by positivity)
            exact_mod_cast Nat.log2_self_le hne
        _ ≤ x * 2 ^ e := mul_le_mul_of_nonneg_right hmx (by positivity)
    have := (zpow_lt_zpow_iff_right₀ (by norm_num : (1 : ℚ) < 2)).1 (hpow.trans_lt hk)
    omega
  calc |(r : ℚ) * 2 ^ (e + j) - x * 2 ^ e| = |(r : ℚ) - x / 2 ^ j| * 2 ^ (e + j) := by
        rw [hexact, ← sub_mul, abs_mul, abs_of_pos hunit]
    _ ≤ 1 / 2 * 2 ^ (e + j) := mul_le_mul_of_nonneg_right hnear hunit.le
    _ = 2 ^ (e + j - 1) := by rw [zpow_sub_one₀ two_ne_zero]; ring
    _ ≤ 2 ^ (k - 54) := zpow_le_zpow_right₀ (by norm_num) (by omega)

/-- The value comes from an exact magnitude by one rounding. -/
def IsRounding (u : UnpackedFloat) (s : Sign) (v : ℚ) : Prop :=
  ∃ m e a x, 2 ^ 52 ≤ m ∧ -1022 ≤ (m.log2 : ℤ) + e ∧ Represents (.ofMantissaAndAccuracy m a) x
    ∧ x * 2 ^ e = v ∧ u = roundWithAccuracy Format.binary64 s m e a

theorem IsRounding.near {u : UnpackedFloat} {s : Sign} {v : ℚ} (h : IsRounding u s v) {k : ℤ}
    (hk : v < 2 ^ k) : ∃ q, HasMagnitude u s q ∧ |q - v| ≤ 2 ^ (k - 54) := by
  obtain ⟨m, e, a, x, hm, he, hx, rfl, rfl⟩ := h
  exact roundWithAccuracy_near hm he hx s hk

end DiceOdds
