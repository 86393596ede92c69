import DiceOdds.Proofs.Doubles.Rounding

/-!
# Doubles that count something

Weights that are built from `1` by sums and products never fall below `1`: the exact result is at
least `1`, and `1` is a double itself, so rounding cannot go below it.

## Why infinity is included

A sum that grows past every finite double is infinite, and infinity is more than `1`.  So nothing
has to be said about the size of the numbers; only a zero or an undefined value would be no count.
-/

namespace DiceOdds

open Float.Model Float.Model.UnpackedFloat

/-! ## 1. The shape of a count -/

/-- The value is infinite, or has a full mantissa in units that are not too small. -/
def UnpackedAtLeastOne (x : UnpackedFloat) : Prop :=
  x = .infinity .positive
    ∨ ∃ m e hpos, x = .finite .positive m e hpos ∧ FullMantissa m ∧ -52 ≤ e

/-- The double is at least `1`. -/
def AtLeastOne (x : Float) : Prop := UnpackedAtLeastOne x.toModel.unpack

theorem unpack_pack (x : UnpackedFloat) :
    (Float.Model.pack x).unpack
      = UnpackedFloat.unpack Format.binary64 (UnpackedFloat.pack Format.binary64 x) := rfl

theorem UnpackedAtLeastOne.atLeastOne {x : UnpackedFloat} (h : UnpackedAtLeastOne x) :
    AtLeastOne (.ofModel (.pack x)) := by
  rw [AtLeastOne, unpack_pack]
  rcases h with rfl | ⟨m, e, hpos, rfl, hm, he⟩
  · exact .inl (unpack_packedInfinity .positive)
  · rw [unpack_pack_full hpos hm (by omega)]
    split
    · exact .inr ⟨m, e, hpos, rfl, hm, he⟩
    · exact .inl rfl

theorem atLeastOne_one : AtLeastOne 1 :=
  .inr ⟨2 ^ 52, -52, by norm_num, rfl, ⟨by norm_num, by norm_num⟩, le_rfl⟩

theorem AtLeastOne.pos {x : Float} (h : AtLeastOne x) : 0 < x := by
  have hzero : (0 : Float).toModel.unpack = .zero .positive := rfl
  have hlt : UnpackedFloat.lt (0 : Float).toModel.unpack x.toModel.unpack = true := by
    rw [hzero]
    rcases h with h | ⟨m, e, hpos, h, -, -⟩ <;> rw [h] <;> rfl
  exact decide_eq_true hlt

/-! ## 2. Sums and products -/

theorem log2_of_le {m : ℕ} {k : ℕ} (hm : 2 ^ k ≤ m) : k ≤ m.log2 :=
  (Nat.le_log2 (by rintro rfl; exact absurd hm (by simp))).2 hm

/-- An exact result of at least `1` is still at least `1` when it has been rounded. -/
theorem unpackedAtLeastOne_round {m : ℕ} {e : ℤ} (hm : 2 ^ 52 ≤ m) (he : 0 ≤ m.log2 + e)
    (a : Accuracy) :
    UnpackedAtLeastOne (roundWithAccuracy Format.binary64 .positive m e a) := by
  have hlog := log2_of_le hm
  obtain ⟨m', e', hpos, heq, hfull, hcases⟩ :=
    roundWithAccuracy_eq hm (by omega : -1022 ≤ m.log2 + e) .positive a
  refine .inr ⟨m', e', hpos, heq, hfull, ?_⟩
  rcases hcases with ⟨-, rfl⟩ | ⟨-, rfl⟩ <;> omega

theorem AtLeastOne.mul {x y : Float} (hx : AtLeastOne x) (hy : AtLeastOne y) :
    AtLeastOne (x * y) := by
  refine UnpackedAtLeastOne.atLeastOne (x := UnpackedFloat.mul _ x.toModel.unpack y.toModel.unpack) ?_
  rcases hx with hx | ⟨m₁, e₁, hpos₁, hx, hm₁, he₁⟩ <;>
    rcases hy with hy | ⟨m₂, e₂, hpos₂, hy, hm₂, he₂⟩ <;> rw [hx, hy]
  · exact .inl rfl
  · exact .inl rfl
  · exact .inl rfl
  · have hprod : 2 ^ 104 ≤ m₁ * m₂ := by
      calc 2 ^ 104 = 2 ^ 52 * 2 ^ 52 := by norm_num
        _ ≤ m₁ * m₂ := Nat.mul_le_mul hm₁.1 hm₂.1
    have hlog := log2_of_le hprod
    exact unpackedAtLeastOne_round (le_trans (by norm_num) hprod) (by omega) .exact

/-- A positive mantissa of more than 53 bits is not made longer before it is rounded. -/
theorem normalize_of_long {m : ℕ} {e : ℤ} (hm : 2 ^ 52 ≤ m) (he : -1022 ≤ m.log2 + e) :
    normalize Format.binary64 m e .positive
      = roundWithAccuracy Format.binary64 .positive m e .exact := by
  have hlog := log2_of_le hm
  have hpos : 0 < m := lt_of_lt_of_le (by norm_num) hm
  have hcompare : compare (m : ℤ) 0 = .gt := compare_gt_iff_gt.2 (by exact_mod_cast hpos)
  have hshift : (e - (m.log2 + e - 52)).toNat = 0 := by omega
  rw [UnpackedFloat.normalize, hcompare]
  dsimp only
  rw [Int.toNat_natCast, UnpackedFloat.round, targetExponent_eq he, decreaseExponent, hshift]
  simp

theorem AtLeastOne.add {x y : Float} (hx : AtLeastOne x) (hy : AtLeastOne y) :
    AtLeastOne (x + y) := by
  refine UnpackedAtLeastOne.atLeastOne (x := UnpackedFloat.add _ x.toModel.unpack y.toModel.unpack) ?_
  rcases hx with hx | ⟨m₁, e₁, hpos₁, hx, hm₁, he₁⟩ <;>
    rcases hy with hy | ⟨m₂, e₂, hpos₂, hy, hm₂, he₂⟩ <;> rw [hx, hy]
  · exact .inl rfl
  · exact .inl rfl
  · exact .inl rfl
  · obtain ⟨k₁, hk₁⟩ : ∃ k : ℕ, (e₁ - min e₁ e₂).toNat = k := ⟨_, rfl⟩
    obtain ⟨k₂, hk₂⟩ : ∃ k : ℕ, (e₂ - min e₁ e₂).toNat = k := ⟨_, rfl⟩
    have hsum : 2 ^ 53 ≤ m₁ * 2 ^ k₁ + m₂ * 2 ^ k₂ := by
      calc 2 ^ 53 = 2 ^ 52 * 1 + 2 ^ 52 * 1 := by norm_num
        _ ≤ m₁ * 2 ^ k₁ + m₂ * 2 ^ k₂ :=
          add_le_add (Nat.mul_le_mul hm₁.1 Nat.one_le_two_pow)
            (Nat.mul_le_mul hm₂.1 Nat.one_le_two_pow)
    have hlog := log2_of_le hsum
    have hadd : UnpackedFloat.add Format.binary64 (.finite .positive m₁ e₁ hpos₁)
        (.finite .positive m₂ e₂ hpos₂)
          = normalize Format.binary64 (m₁ * 2 ^ k₁ + m₂ * 2 ^ k₂ : ℕ) (min e₁ e₂) .positive := by
      simp only [UnpackedFloat.add, decreaseExponent, hk₁, hk₂, Sign.apply, Nat.shiftLeft_eq]
      push_cast
      rfl
    rw [hadd, normalize_of_long (le_trans (by norm_num) hsum) (by omega)]
    exact unpackedAtLeastOne_round (le_trans (by norm_num) hsum) (by omega) .exact

theorem AtLeastOne.zero_add {x : Float} (hx : AtLeastOne x) : AtLeastOne (0 + x) := by
  refine UnpackedAtLeastOne.atLeastOne
    (x := UnpackedFloat.add _ (0 : Float).toModel.unpack x.toModel.unpack) ?_
  have hzero : (0 : Float).toModel.unpack = .zero .positive := rfl
  rcases hx with hx | ⟨m, e, hpos, hx, hm, he⟩ <;> rw [hzero, hx]
  · exact .inl rfl
  · exact .inr ⟨m, e, hpos, rfl, hm, he⟩

end DiceOdds
