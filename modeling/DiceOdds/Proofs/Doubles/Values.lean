import DiceOdds.Proofs.Doubles.Factors
import DiceOdds.Proofs.Nearest

/-!
# The number that a double carries

A finite double is read here as an exact fraction.  A product or a quotient of doubles carries the
exact product or quotient after one rounding, and the whole number nearest to a double is the one
nearest to what it carries.

## Why sizes are powers of two on both sides

An operation is off by one rounding only where doubles neither overflow nor lose leading bits.  A
bound on the number and on its inverse is kept by products and quotients alike, so the size of a
result is told by counting operations as well.
-/

namespace DiceOdds

open Float.Model Float.Model.UnpackedFloat

/-! ## 1. Numbers of a double -/

/-- The unpacked value is finite, and this is the number; there are two zeros. -/
def HasValue (u : UnpackedFloat) (v : ℚ) : Prop :=
  (v = 0 ∧ ∃ s, u = .zero s) ∨ (v ≠ 0 ∧ HasMagnitude u (signOf (v < 0)) |v|)

/-- The number is zero, or neither too large nor too small. -/
def Moderate (n : ℕ) (v : ℚ) : Prop := v ≠ 0 → 1 ≤ |v| * 2 ^ n ∧ |v| ≤ 2 ^ n

theorem HasValue.isDouble {u : UnpackedFloat} {v : ℚ} (h : HasValue u v) : IsDouble v := by
  rcases h with ⟨rfl, -⟩ | ⟨-, m, e, -, -, hm, hv⟩
  · exact isDouble_natCast (n := 0) (by norm_num)
  · exact ⟨m, e, hm.2, hv.symm⟩

/-- A magnitude that was rounded, with its sign. -/
theorem hasValue_of_roundsTo {u : UnpackedFloat} {v q : ℚ} (hv : v ≠ 0)
    (hu : HasMagnitude u (signOf (v < 0)) q) (hq : RoundsTo |v| q) :
    ∃ r, HasValue u r ∧ RoundsTo v r := by
  obtain ⟨⟨t, ht, rfl⟩, hexact⟩ := hq
  have hpos := ht.pos
  have hsign : v * t < 0 ↔ v < 0 := by simp [mul_neg_iff, hpos, hpos.le]
  refine ⟨v * t, .inr ⟨mul_ne_zero hv hpos.ne', ?_⟩, ⟨t, ht, rfl⟩, fun hdouble => ?_⟩
  · rw [abs_mul, abs_of_pos hpos]
    simpa only [hsign] using hu
  · obtain ⟨m, e, hm, he⟩ := hdouble
    have hone := hexact ⟨m, e, hm, by rw [abs_abs, he]⟩
    have : t = 1 := by
      rwa [mul_eq_left₀ (abs_ne_zero.2 hv)] at hone
    rw [this, mul_one]

namespace Moderate

variable {m n : ℕ} {v w : ℚ}

theorem neg (hv : Moderate n v) : Moderate n (-v) := by
  intro hne
  rw [abs_neg]
  exact hv (neg_ne_zero.1 hne)

theorem mul (hv : Moderate m v) (hw : Moderate n w) : Moderate (m + n) (v * w) := by
  intro hne
  obtain ⟨hvLow, hvHigh⟩ := hv (left_ne_zero_of_mul hne)
  obtain ⟨hwLow, hwHigh⟩ := hw (right_ne_zero_of_mul hne)
  rw [abs_mul, pow_add]
  constructor
  · calc (1 : ℚ) = 1 * 1 := (one_mul 1).symm
      _ ≤ |v| * 2 ^ m * (|w| * 2 ^ n) := mul_le_mul hvLow hwLow zero_le_one (by positivity)
      _ = |v| * |w| * (2 ^ m * 2 ^ n) := by ring
  · exact mul_le_mul hvHigh hwHigh (abs_nonneg w) (by positivity)

theorem inv (hv : Moderate n v) : Moderate n v⁻¹ := by
  intro hne
  have hne' : v ≠ 0 := by rintro rfl; exact hne inv_zero
  obtain ⟨hlow, hhigh⟩ := hv hne'
  have hpos := abs_pos.2 hne'
  rw [abs_inv]
  constructor
  · rwa [inv_mul_eq_div, one_le_div hpos]
  · rwa [inv_le_iff_one_le_mul₀ hpos, mul_comm]

theorem div (hv : Moderate m v) (hw : Moderate n w) : Moderate (m + n) (v / w) := by
  rw [div_eq_mul_inv]
  exact hv.mul hw.inv

theorem mono (hv : Moderate m v) (h : m ≤ n) : Moderate n v := by
  intro hne
  obtain ⟨hlow, hhigh⟩ := hv hne
  have hpow : (2 : ℚ) ^ m ≤ 2 ^ n := pow_le_pow_right₀ (by norm_num) h
  exact ⟨hlow.trans (mul_le_mul_of_nonneg_left hpow (abs_nonneg v)), hhigh.trans hpow⟩

/-- A rounding less than doubles a number and more than halves it. -/
theorem rounded (hv : Moderate n v) (h : RoundsTo v w) : Moderate (n + 1) w := by
  obtain ⟨⟨r, hr, rfl⟩, -⟩ := h
  have hpos := hr.pos
  obtain ⟨hhigh, hlow⟩ := hr
  rw [pow_one] at hhigh hlow
  have hfactor := roundingFactor_lt_two
  have htwo : r ≤ 2 := by linarith
  have hhalf : 1 ≤ r * 2 := hlow.trans (mul_le_mul_of_nonneg_left hfactor.le hpos.le)
  have hone : Moderate 1 r := fun _ => by rw [abs_of_pos hpos, pow_one]; exact ⟨hhalf, htwo⟩
  exact hv.mul hone

/-- A moderate number is far from the smallest doubles. -/
theorem low (hv : Moderate n v) (hn : n ≤ 200) (hne : v ≠ 0) : (2 : ℚ) ^ (-1000 : ℤ) ≤ |v| := by
  obtain ⟨hlow, -⟩ := hv.mono hn hne
  have hneg : (2 : ℚ) ^ (-200 : ℤ) = (2 ^ 200)⁻¹ := zpow_neg 2 200
  calc (2 : ℚ) ^ (-1000 : ℤ) ≤ 2 ^ (-200 : ℤ) := zpow_le_zpow_right₀ (by norm_num) (by norm_num)
    _ ≤ |v| := by rwa [hneg, inv_le_iff_one_le_mul₀ (by positivity)]

theorem inRange (hv : Moderate n v) (hn : n ≤ 200) (hne : v ≠ 0) : InRange |v| := by
  refine ⟨(zpow_le_zpow_right₀ (by norm_num) (by norm_num)).trans (hv.low hn hne), ?_⟩
  calc |v| ≤ 2 ^ (200 : ℤ) := (hv.mono hn hne).2
    _ < 2 ^ (1024 : ℤ) := zpow_lt_zpow_right₀ (by norm_num) (by norm_num)

end Moderate

/-! ## 2. Operations -/

theorem signOf_mul {p q : ℚ} (hp : p ≠ 0) (hq : q ≠ 0) :
    signOf (p * q < 0) = signOf (p < 0) * signOf (q < 0) := by
  rcases hp.lt_or_gt with hp | hp <;> rcases hq.lt_or_gt with hq | hq <;>
    simp only [mul_neg_iff, hp, hq, not_lt_of_gt hp, not_lt_of_gt hq] <;> rfl

theorem signOf_div {p q : ℚ} (hp : p ≠ 0) (hq : q ≠ 0) :
    signOf (p / q < 0) = signOf (p < 0) / signOf (q < 0) := by
  rcases hp.lt_or_gt with hp | hp <;> rcases hq.lt_or_gt with hq | hq <;>
    simp only [div_neg_iff, hp, hq, not_lt_of_gt hp, not_lt_of_gt hq] <;> rfl

theorem signOf_neg {p : ℚ} (hp : p ≠ 0) : signOf (-p < 0) = -signOf (p < 0) := by
  rcases hp.lt_or_gt with hp | hp <;>
    simp only [neg_neg_iff_pos, hp, not_lt_of_gt hp] <;> rfl

/-- A product is rounded once. -/
theorem HasMagnitude.isRounding_mul {x y : UnpackedFloat} {s t : Sign} {p q : ℚ}
    (hx : HasMagnitude x s p) (hy : HasMagnitude y t q) (hlow : (2 : ℚ) ^ (-1000 : ℤ) ≤ p * q) :
    IsRounding (UnpackedFloat.mul Format.binary64 x y) (s * t) (p * q) := by
  obtain ⟨m₁, e₁, hpos₁, rfl, hm₁, rfl⟩ := hx
  obtain ⟨m₂, e₂, hpos₂, rfl, hm₂, rfl⟩ := hy
  have hproduct : ((m₁ * m₂ : ℕ) : ℚ) * 2 ^ (e₁ + e₂) = m₁ * 2 ^ e₁ * (m₂ * 2 ^ e₂) := by
    rw [zpow_add₀ two_ne_zero]
    push_cast
    ring
  have hlong : 2 ^ 52 ≤ m₁ * m₂ := hm₁.1.trans (Nat.le_mul_of_pos_right _ hpos₂)
  have hexponent : -1000 < (m₁ * m₂).log2 + 1 + (e₁ + e₂) := by
    have hhigh : ((m₁ * m₂ : ℕ) : ℚ) < 2 ^ (((m₁ * m₂).log2 + 1 : ℕ) : ℤ) := by
      rw [zpow_natCast]
      exact_mod_cast Nat.lt_log2_self
    have hvalue : ((m₁ * m₂ : ℕ) : ℚ) * 2 ^ (e₁ + e₂)
        < 2 ^ ((m₁ * m₂).log2 + 1 + (e₁ + e₂) : ℤ) := by
      rw [zpow_add₀ two_ne_zero ((m₁ * m₂).log2 + 1 : ℤ) (e₁ + e₂)]
      exact mul_lt_mul_of_pos_right hhigh (by positivity)
    rw [← hproduct] at hlow
    exact (zpow_lt_zpow_iff_right₀ (by norm_num : (1 : ℚ) < 2)).1 (hlow.trans_lt hvalue)
  exact ⟨_, _, _, _, hlong, by omega, .of_exact _, hproduct, rfl⟩

/-- A whole number that does not fit 53 bits is rounded once. -/
theorem isRounding_ofNat {n : ℕ} (hn : 2 ^ 53 ≤ n) :
    ∃ u, Float.ofNat n = .ofModel (.pack u) ∧ IsRounding u .positive n := by
  refine ⟨UnpackedFloat.ofScientific Format.binary64 n 0, ?_, ?_⟩
  · change Float.ofScientific n false 0 = _
    rw [Float.ofScientific, dif_neg (by omega)]
    rfl
  · have hpos : 0 < n := by omega
    have hlong : 2 ^ 52 ≤ n * 2 ^ 53 := by omega
    have hlog := log2_of_le hlong
    have hround : UnpackedFloat.ofScientific Format.binary64 n 0
        = roundWithAccuracy Format.binary64 .positive (n * 2 ^ 53) (-53) .exact := by
      have hbits : (2 : ℤ) ^ Format.binary64.exponentBits = 2 ^ 11 := rfl
      rw [UnpackedFloat.ofScientific, dif_neg hpos.ne', hbits, if_neg (by norm_num),
        if_neg (by omega), if_pos le_rfl, UnpackedFloat.mul]
      have hten : 10 ^ (0 : ℤ).toNat = 1 := rfl
      have hwidth : Format.binary64.mantissaBits = 53 := rfl
      rw [hwidth, hten, Nat.shiftLeft_eq, mul_one, add_zero]
      rfl
    refine ⟨_, _, _, _, hlong, by omega, .of_exact _, ?_, hround⟩
    have hunit : (2 : ℚ) ^ (-53 : ℤ) = (2 ^ 53)⁻¹ := zpow_neg 2 53
    rw [hunit, Nat.cast_mul, Nat.cast_pow, Nat.cast_ofNat, mul_inv_cancel_right₀ (by positivity)]

namespace HasValue

variable {x y : UnpackedFloat} {p q : ℚ}

theorem mul (hx : HasValue x p) (hy : HasValue y q) (h : Moderate 200 (p * q)) :
    ∃ r, HasValue (UnpackedFloat.mul Format.binary64 x y) r ∧ RoundsTo (p * q) r := by
  rcases hx with ⟨rfl, s, rfl⟩ | ⟨hp, hx⟩
  · rw [zero_mul]
    refine ⟨0, .inl ⟨rfl, ?_⟩, .refl 0⟩
    rcases hy with ⟨-, t, rfl⟩ | ⟨-, m, e, hpos, rfl, -, -⟩ <;> exact ⟨_, rfl⟩
  rcases hy with ⟨rfl, t, rfl⟩ | ⟨hq, hy⟩
  · rw [mul_zero]
    obtain ⟨m, e, hpos, rfl, -, -⟩ := hx
    exact ⟨0, .inl ⟨rfl, _, rfl⟩, .refl 0⟩
  have hne := mul_ne_zero hp hq
  have hround := hx.isRounding_mul hy (by rw [← abs_mul]; exact h.low le_rfl hne)
  rw [← signOf_mul hp hq, ← abs_mul] at hround
  obtain ⟨r, hr, hto⟩ := hround.roundsTo (abs_pos.2 hne)
  exact hasValue_of_roundsTo hne hr hto

theorem div (hx : HasValue x p) (hy : HasValue y q) (hq : q ≠ 0) (h : Moderate 200 (p / q)) :
    ∃ r, HasValue (UnpackedFloat.div Format.binary64 x y) r ∧ RoundsTo (p / q) r := by
  have hy := (hy.resolve_left fun h => hq h.1).2
  rcases hx with ⟨rfl, s, rfl⟩ | ⟨hp, hx⟩
  · rw [zero_div]
    obtain ⟨m, e, hpos, rfl, -, -⟩ := hy
    exact ⟨0, .inl ⟨rfl, _, rfl⟩, .refl 0⟩
  have hne := div_ne_zero hp hq
  have hround := hx.isRounding_div hy (by rw [← abs_div]; exact h.low le_rfl hne)
  rw [← signOf_div hp hq, ← abs_div] at hround
  obtain ⟨r, hr, hto⟩ := hround.roundsTo (abs_pos.2 hne)
  exact hasValue_of_roundsTo hne hr hto

theorem neg (hx : HasValue x p) : HasValue x.neg (-p) := by
  rcases hx with ⟨rfl, s, rfl⟩ | ⟨hp, hx⟩
  · exact .inl ⟨neg_zero, -s, rfl⟩
  · refine .inr ⟨neg_ne_zero.2 hp, ?_⟩
    rw [signOf_neg hp, abs_neg]
    exact hx.neg

theorem unpack_pack (hx : HasValue x p) (h : Moderate 200 p) :
    HasValue (Float.Model.pack x).unpack p := by
  rcases hx with ⟨rfl, s, rfl⟩ | ⟨hp, hx⟩
  · refine .inl ⟨rfl, s, ?_⟩
    rw [DiceOdds.unpack_pack]
    exact unpack_packedZero
  · exact .inr ⟨hp, hx.unpack_pack (h.inRange le_rfl hp)⟩

end HasValue

/-! ## 3. Doubles -/

/-- The double carries this number, and the number is moderate. -/
structure Carries (x : Float) (n : ℕ) (v : ℚ) : Prop where
  value : HasValue x.toModel.unpack v
  moderate : Moderate n v

namespace Carries

variable {x y : Float} {m n : ℕ} {p q : ℚ}

theorem mul (hx : Carries x m p) (hy : Carries y n q) (h : m + n < 200) :
    ∃ r, Carries (x * y) (m + n + 1) r ∧ RoundsTo (p * q) r := by
  have hmoderate := hx.moderate.mul hy.moderate
  obtain ⟨r, hr, hto⟩ := hx.value.mul hy.value (hmoderate.mono h.le)
  have hrounded := hmoderate.rounded hto
  exact ⟨r, ⟨hr.unpack_pack (hrounded.mono h), hrounded⟩, hto⟩

theorem div (hx : Carries x m p) (hy : Carries y n q) (hq : q ≠ 0) (h : m + n < 200) :
    ∃ r, Carries (x / y) (m + n + 1) r ∧ RoundsTo (p / q) r := by
  have hmoderate := hx.moderate.div hy.moderate
  obtain ⟨r, hr, hto⟩ := hx.value.div hy.value hq (hmoderate.mono h.le)
  have hrounded := hmoderate.rounded hto
  exact ⟨r, ⟨hr.unpack_pack (hrounded.mono h), hrounded⟩, hto⟩

theorem ofNat {n : ℕ} (hn : n < 2 ^ 64) :
    ∃ r, Carries (Float.ofNat n) 65 r ∧ RoundsTo n r := by
  have hmoderate : Moderate 64 (n : ℚ) := by
    intro hne
    have hone : (1 : ℚ) ≤ n := by exact_mod_cast Nat.pos_of_ne_zero (by exact_mod_cast hne)
    have hle : (n : ℚ) ≤ 2 ^ 64 := by exact_mod_cast hn.le
    rw [Nat.abs_cast]
    exact ⟨by linarith, hle⟩
  rcases Nat.eq_zero_or_pos n with rfl | hpos
  · exact ⟨0, ⟨.inl ⟨rfl, _, rfl⟩, fun h => absurd rfl h⟩, by rw [Nat.cast_zero]; exact .refl 0⟩
  have hne : (n : ℚ) ≠ 0 := by exact_mod_cast hpos.ne'
  have hsign : signOf ((n : ℚ) < 0) = .positive := by simp [signOf]
  rcases Nat.lt_or_ge n (2 ^ 53) with hsmall | hlarge
  · refine ⟨n, ⟨.inr ⟨hne, ?_⟩, hmoderate.mono (by norm_num)⟩, .refl _⟩
    rw [hsign, Nat.abs_cast]
    exact hasMagnitude_ofNat hpos hsmall
  · obtain ⟨u, hu, hround⟩ := isRounding_ofNat hlarge
    obtain ⟨q, hq, hto⟩ := hround.roundsTo (by exact_mod_cast hpos)
    obtain ⟨r, hr, hto⟩ := hasValue_of_roundsTo hne (by rwa [hsign]) (by rwa [Nat.abs_cast])
    have hrounded := hmoderate.rounded hto
    rw [hu]
    exact ⟨r, ⟨hr.unpack_pack (hrounded.mono (by norm_num)), hrounded⟩, hto⟩

theorem ofInt {n : ℤ} (hn : n.natAbs < 2 ^ 64) :
    ∃ r, Carries (Float.ofInt n) 65 r ∧ RoundsTo n r := by
  cases n with
  | ofNat n => exact ofNat hn
  | negSucc n =>
    obtain ⟨r, ⟨hr, hmoderate⟩, hto⟩ := ofNat hn
    refine ⟨-r, ⟨hr.neg.unpack_pack (hmoderate.neg.mono (by norm_num)), hmoderate.neg⟩, ?_⟩
    rw [Int.cast_negSucc]
    exact hto.neg

end Carries

/-! ## 4. The nearest whole number -/

/-- A half is added and the fraction cut off. -/
theorem Binary64.nearestNat_eq (b : Binary64) :
    (b.nearestNat : ℤ) = ⌊(b.mantissa : ℚ) * 2 ^ b.exponent + 1 / 2⌋ := by
  obtain ⟨negative, m, e⟩ := b
  cases e with
  | ofNat k =>
    have hvalue : (m : ℚ) * 2 ^ (Int.ofNat k) = ((m * 2 ^ k : ℕ) : ℤ) := by
      rw [Int.ofNat_eq_natCast, zpow_natCast]
      push_cast
      ring
    change ((m * 2 ^ k : ℕ) : ℤ) = _
    dsimp only
    rw [hvalue]
    symm
    rw [Int.floor_eq_iff]
    constructor <;> linarith
  | negSucc k =>
    have hvalue : (m : ℚ) * 2 ^ (Int.negSucc k) + 1 / 2
        = ((m + 2 ^ k : ℕ) : ℤ) / ((2 ^ (k + 1) : ℕ) : ℚ) := by
      rw [zpow_negSucc]
      push_cast
      field_simp
      ring
    change (((m + 2 ^ k) / 2 ^ (k + 1) : ℕ) : ℤ) = _
    dsimp only
    rw [hvalue, Rat.floor_intCast_div_natCast]
    rfl

/-- The number that a double is rounded to is the one its value is rounded to. -/
theorem Carries.nearest? {x : Float} {n : ℕ} {v : ℚ} (h : Carries x n v) (hn : n ≤ 200) :
    Weight.nearest? x = some (nearestOfRat v) := by
  have hpacked : Float.ofModel (.pack x.toModel.unpack) = x := Float.ofBits_toBits x
  change (Binary64.ofFloat? x).map Binary64.nearestInt = _
  rcases h.value with ⟨rfl, s, hzero⟩ | ⟨hne, hmagnitude⟩
  · rw [← hpacked, hzero]
    cases s <;> decide +kernel
  · obtain ⟨b, hb, hnegative, hvalue⟩ := ofFloat?_pack hmagnitude (h.moderate.inRange hn hne)
    rw [← hpacked, hb, Option.map_some, Binary64.nearestInt, hnegative, Binary64.nearestNat_eq,
      hvalue, ← nearestOfRat_eq_floor (abs_nonneg v)]
    rcases hne.lt_or_gt with hlt | hgt
    · rw [if_pos (decide_eq_true hlt), abs_of_neg hlt, nearestOfRat_neg, neg_neg]
    · rw [if_neg (by simpa using hgt.le), abs_of_pos hgt]

end DiceOdds
