import DiceOdds.Proofs.Doubles.Values
import DiceOdds.Proofs.Critical.Threshold
import DiceOdds.Outcome

/-!
# Products and quotients on the grid

A product or a quotient of two outcomes is computed with six roundings of doubles and then one to
the grid.  The result is the exact number of hundredths, rounded to the nearest whole one, unless
that number lies closer than one part in `2 ^ 50` to the middle between two of them or to the end
of the grid.  A product of whole outcomes is exact as long as 53 bits are enough for it.

## Why the middles are apart

A half of a hundredth goes away from zero only if it is still a half when it is rounded.  It is
one if every number on the way is a double.  Most hundredths are none, so a product or a quotient
that is exactly a half can also arrive on the other side, and both neighbours occur.
-/

namespace DiceOdds

namespace Outcome

/-! ## 1. The end of the grid -/

/-- The value with this many hundredths, if it lies inside the grid on both sides. -/
def inside? (n : ℤ) : Option Outcome :=
  if n = least.hundredths then none else ofHundredths? n

theorem inside?_eq_some {n : ℤ} {c : Outcome} :
    inside? n = some c ↔ c.hundredths = n ∧ |n| < 2 ^ 63 := by
  have hleast : least.hundredths = -2 ^ 63 := rfl
  rw [inside?, abs_lt]
  split
  next heq => exact ⟨nofun, fun h => absurd h.2.1 (by omega)⟩
  next hne =>
    rw [ofHundredths?_eq_some]
    refine ⟨?_, And.left⟩
    rintro rfl
    have hlow := c.least_le
    have hhigh := c.lt_bound
    exact ⟨rfl, by omega, by omega⟩

theorem exists_inside? {n : ℤ} (h : |n| < 2 ^ 63) : ∃ c, inside? n = some c ∧ c.hundredths = n := by
  have hbounds := abs_lt.1 h
  exact ⟨⟨n, by omega, by omega⟩, inside?_eq_some.2 ⟨rfl, h⟩, rfl⟩

theorem inside?_eq_none {n : ℤ} (h : 2 ^ 63 ≤ |n|) : inside? n = none :=
  Option.eq_none_iff_forall_ne_some.2 fun _ hc => absurd (inside?_eq_some.1 hc).2 (not_lt.2 h)

/-! ## 2. From an exact number to the grid -/

/-- The exact number lies in the middle between two hundredths. -/
def IsTie (x : ℚ) : Prop := ∃ k : ℤ, x = k + 1 / 2

/-- What arrives as a double for an exact number of hundredths, when these are the exact numbers
on the way. -/
structure Arrives (steps : List ℚ) (x v : ℚ) : Prop where
  within : WithinRoundings 6 x v
  exact : (∀ s ∈ steps, IsDouble s) → v = x
  isDouble : IsDouble v

/-- What becomes of it on the grid: the nearest hundredth if no step was rounded or if the number
is not too close to a tie, one of its neighbours in any case, and nothing outside the grid. -/
structure NearlyRounded (steps : List ℚ) (x : ℚ) (result : Option Outcome) : Prop where
  exact : (∀ s ∈ steps, IsDouble s) → |nearestOfRat x| < 2 ^ 63 →
    ∃ c, result = some c ∧ c.hundredths = nearestOfRat x
  nearest : (∀ k : ℤ, |x| / 2 ^ 50 < |x - (k + 1 / 2)|) →
    ∃ c, result = some c ∧ c.hundredths = nearestOfRat x
  near : |x| < 2 ^ 63 - 2 ^ 14 →
    ∃ c, result = some c ∧ |(c.hundredths : ℚ) - x| ≤ 1 / 2 + |x| / 2 ^ 50
  none : 2 ^ 63 + 2 ^ 14 ≤ |x| → result = none

/-- Within a small error the nearest hundredth stays the same, unless a tie is as close. -/
theorem nearestOfRat_eq_of_clear {x v : ℚ} (herror : |v - x| ≤ |x| / 2 ^ 50)
    (hclear : ∀ k : ℤ, |x| / 2 ^ 50 < |x - (k + 1 / 2)|) : nearestOfRat v = nearestOfRat x := by
  have hnear := abs_le.1 (abs_nearestOfRat_sub_le x)
  have habove := hclear (nearestOfRat x)
  have hbelow := hclear (nearestOfRat x - 1)
  push_cast at hbelow
  generalize |x| / 2 ^ 50 = ε at herror habove hbelow
  rw [abs_of_nonpos (by linarith [hnear.1])] at habove
  rw [abs_of_nonneg (by linarith [hnear.2])] at hbelow
  rw [abs_le] at herror
  refine nearestOfRat_eq_of_abs_lt (abs_lt.2 ⟨?_, ?_⟩) <;> linarith [herror.1, herror.2]

/-- **Six roundings and the grid.** -/
theorem Arrives.nearlyRounded {steps : List ℚ} {x v : ℚ} (h : Arrives steps x v) :
    NearlyRounded steps x (inside? (nearestOfRat v)) := by
  have herror := h.within.abs_sub_le
  have hgrid := abs_nearestOfRat_sub_le v
  have hnear : |(nearestOfRat v : ℚ) - x| ≤ 1 / 2 + |x| / 2 ^ 50 :=
    (abs_sub_le _ v _).trans (add_le_add hgrid herror)
  have hsome (hx : |x| < 2 ^ 63 - 2 ^ 14) :
      ∃ c, inside? (nearestOfRat v) = some c ∧ c.hundredths = nearestOfRat v := by
    refine exists_inside? ?_
    have hlt : |(nearestOfRat v : ℚ)| < 2 ^ 63 := by
      have := abs_sub_abs_le_abs_sub (nearestOfRat v : ℚ) x
      norm_num at hx hnear ⊢
      linarith
    exact_mod_cast hlt
  constructor
  · intro hsteps hx
    rw [h.exact hsteps]
    exact exists_inside? hx
  · intro hclear
    have hsmall : |x| < 2 ^ 63 - 2 ^ 14 := by
      have hhalf := hclear (nearestOfRat (x - 1 / 2))
      have := abs_nearestOfRat_sub_le (x - 1 / 2)
      rw [abs_sub_comm, show x - 1 / 2 - nearestOfRat (x - 1 / 2)
        = x - (nearestOfRat (x - 1 / 2) + 1 / 2) by ring] at this
      norm_num at hhalf this ⊢
      linarith
    obtain ⟨c, hc, hvalue⟩ := hsome hsmall
    exact ⟨c, hc, hvalue.trans (nearestOfRat_eq_of_clear herror hclear)⟩
  · intro hx
    obtain ⟨c, hc, hvalue⟩ := hsome hx
    exact ⟨c, hc, by rwa [hvalue]⟩
  · intro hx
    refine inside?_eq_none (le_abs_nearestOfRat (n := 2 ^ 63) ?_)
    have := abs_sub_abs_le_abs_sub x v
    rw [abs_sub_comm] at this
    norm_num at hx herror ⊢
    linarith

/-! ## 3. Outcomes as doubles -/

theorem carries_hundred : Carries (Float.ofNat 100) 7 100 := by
  have hsign : signOf ((100 : ℚ) < 0) = .positive := by norm_num [signOf]
  refine ⟨.inr ⟨by norm_num, ?_⟩, fun _ => by norm_num⟩
  rw [hsign, abs_of_nonneg (by norm_num)]
  exact_mod_cast hasMagnitude_ofNat (n := 100) (by norm_num) (by norm_num)

/-- An outcome is carried after two roundings. -/
theorem carries_toWeight (a : Outcome) : ∃ v, Carries (a.toWeight : Float) 73 v
    ∧ WithinRoundings 2 (a.hundredths / 100) v
    ∧ (IsDouble a.hundredths → IsDouble (a.hundredths / 100) → v = a.hundredths / 100) := by
  obtain ⟨n, hlow, hhigh⟩ := a
  obtain ⟨r, hr, hto⟩ := Carries.ofInt (n := n) (by omega)
  obtain ⟨v, hv, hto'⟩ := hr.div carries_hundred (by norm_num) (by norm_num)
  have hwithin : WithinRoundings (1 + 0 + 1) ((n : ℚ) / 100) v :=
    (hto.within.div (.refl 0 100)).trans hto'.within
  refine ⟨v, hv, hwithin, fun h h' => ?_⟩
  dsimp only at h h' ⊢
  rw [hto.exact h] at hto'
  exact hto'.exact h'

/-- A weight is brought to the grid with one more rounding. -/
theorem ofWeight?_of_carries {y : Float} {n : ℕ} {v : ℚ} (h : Carries y n v) (hn : n < 190) :
    ∃ r, RoundsTo (v * 100) r ∧ IsDouble r ∧ ofWeight? y = inside? (nearestOfRat r) := by
  obtain ⟨r, hr, hto⟩ := h.mul carries_hundred (by omega)
  refine ⟨r, hto, hr.value.isDouble, ?_⟩
  have hnearest : Weight.nearest? (y * ((100 : ℕ) : Float)) = some (nearestOfRat r) :=
    hr.nearest? (by omega)
  rw [ofWeight?, hnearest]
  rfl

/-- The exact numbers that a product passes through. -/
def productSteps (a b : Outcome) : List ℚ :=
  [a.hundredths, a.hundredths / 100, b.hundredths, b.hundredths / 100,
    a.hundredths / 100 * (b.hundredths / 100), a.hundredths * b.hundredths / 100]

/-- The exact numbers that a quotient passes through. -/
def quotientSteps (a b : Outcome) : List ℚ :=
  [a.hundredths, a.hundredths / 100, b.hundredths, b.hundredths / 100,
    a.hundredths / 100 / (b.hundredths / 100), 100 * a.hundredths / b.hundredths]

theorem mul?_eq (a b : Outcome) :
    ∃ v, Arrives (productSteps a b) (a.hundredths * b.hundredths / 100) v
      ∧ a.mul? b = inside? (nearestOfRat v) := by
  obtain ⟨p, hp, hpa, hpExact⟩ := carries_toWeight a
  obtain ⟨q, hq, hqb, hqExact⟩ := carries_toWeight b
  obtain ⟨r, hr, hto⟩ := hp.mul hq (by norm_num)
  obtain ⟨v, hto', hdouble, hv⟩ := ofWeight?_of_carries hr (by norm_num)
  have hchain := (((hpa.mul hqb).trans hto.within).mul (.refl 0 100)).trans hto'.within
  have hscaled : (a.hundredths : ℚ) / 100 * (b.hundredths / 100) * 100
      = a.hundredths * b.hundredths / 100 := by ring
  refine ⟨v, ⟨by rwa [hscaled] at hchain, fun hsteps => ?_, hdouble⟩, hv⟩
  simp only [productSteps, List.forall_mem_cons] at hsteps
  obtain ⟨ha, ha', hb, hb', hproduct, hresult, -⟩ := hsteps
  rw [hpExact ha ha', hqExact hb hb'] at hto
  rw [hto.exact hproduct, hscaled] at hto'
  exact hto'.exact hresult

theorem div?_eq (a : Outcome) {b : Outcome} (hne : b.hundredths ≠ 0) :
    ∃ v, Arrives (quotientSteps a b) (100 * a.hundredths / b.hundredths) v
      ∧ a.div? b = inside? (nearestOfRat v) := by
  obtain ⟨p, hp, hpa, hpExact⟩ := carries_toWeight a
  obtain ⟨q, hq, hqb, hqExact⟩ := carries_toWeight b
  have hne' : (b.hundredths : ℚ) ≠ 0 := by exact_mod_cast hne
  have hqne : q ≠ 0 := by
    obtain ⟨t, ht, rfl⟩ := hqb
    exact mul_ne_zero (div_ne_zero hne' (by norm_num)) ht.pos.ne'
  obtain ⟨r, hr, hto⟩ := hp.div hq hqne (by norm_num)
  obtain ⟨v, hto', hdouble, hv⟩ := ofWeight?_of_carries hr (by norm_num)
  have hchain := (((hpa.div hqb).trans hto.within).mul (.refl 0 100)).trans hto'.within
  have hscaled : (a.hundredths : ℚ) / 100 / (b.hundredths / 100) * 100
      = 100 * a.hundredths / b.hundredths := by field_simp
  refine ⟨v, ⟨by rwa [hscaled] at hchain, fun hsteps => ?_, hdouble⟩, ?_⟩
  · simp only [quotientSteps, List.forall_mem_cons] at hsteps
    obtain ⟨ha, ha', hb, hb', hquotient, hresult, -⟩ := hsteps
    rw [hpExact ha ha', hqExact hb hb'] at hto
    rw [hto.exact hquotient, hscaled] at hto'
    exact hto'.exact hresult
  · rw [div?, if_neg hne]
    exact hv

/-- **Products** are the exact ones, nearly rounded. -/
theorem nearlyRounded_mul? (a b : Outcome) :
    NearlyRounded (productSteps a b) (a.hundredths * b.hundredths / 100) (a.mul? b) := by
  obtain ⟨v, hv, heq⟩ := mul?_eq a b
  rw [heq]
  exact hv.nearlyRounded

/-- **Quotients** are the exact ones, nearly rounded. -/
theorem nearlyRounded_div? (a : Outcome) {b : Outcome} (hne : b.hundredths ≠ 0) :
    NearlyRounded (quotientSteps a b) (100 * a.hundredths / b.hundredths) (a.div? b) := by
  obtain ⟨v, hv, heq⟩ := div?_eq a hne
  rw [heq]
  exact hv.nearlyRounded

/-! ## 4. Numbers that are no ties -/

theorem isTie_iff {m n : ℤ} (hn : n ≠ 0) {x : ℚ} (hx : x = m / (2 * n)) :
    IsTie x ↔ ∃ k, m = (2 * k + 1) * n := by
  have hn' : (n : ℚ) ≠ 0 := by exact_mod_cast hn
  refine exists_congr fun k => ?_
  have hhalf : (k : ℚ) + 1 / 2 = (2 * k + 1) * n / (2 * n) := by field_simp
  rw [hx, hhalf, div_left_inj' (mul_ne_zero two_ne_zero hn')]
  exact_mod_cast Iff.rfl

/-- A fraction is a tie, or away from all ties by what its denominator allows. -/
theorem clear_of_abs_lt {m n : ℤ} (hn : n ≠ 0) (hm : |m| < 2 ^ 50) {x : ℚ} (hx : x = m / (2 * n))
    (htie : ¬ IsTie x) (k : ℤ) : |x| / 2 ^ 50 < |x - (k + 1 / 2)| := by
  have hm' : |(m : ℚ)| < 2 ^ 50 := by exact_mod_cast hm
  have hn' : (n : ℚ) ≠ 0 := by exact_mod_cast hn
  have hpos : (0 : ℚ) < |2 * (n : ℚ)| := abs_pos.2 (mul_ne_zero two_ne_zero hn')
  have hne : m - (2 * k + 1) * n ≠ 0 :=
    fun hzero => htie ((isTie_iff hn hx).2 ⟨k, sub_eq_zero.1 hzero⟩)
  have hone : (1 : ℚ) ≤ |(m : ℚ) - (2 * k + 1) * n| := by exact_mod_cast Int.one_le_abs hne
  have hdistance : x - (k + 1 / 2) = (m - (2 * k + 1) * n) / (2 * n) := by
    rw [hx]
    field_simp
  rw [hdistance, hx, abs_div, abs_div, div_right_comm]
  refine div_lt_div_of_pos_right ?_ hpos
  rw [div_lt_iff₀ (by positivity)]
  linarith

/-! ## 5. Products of whole numbers -/

/-- Every step of a product of whole outcomes divides it, or is it. -/
theorem isDouble_of_mem_productSteps {a b : Outcome} {m n : ℤ} (ha : a.hundredths = 100 * m)
    (hb : b.hundredths = 100 * n) (hne : m * n ≠ 0) (h : IsDouble (100 * (m * n) : ℤ)) :
    ∀ s ∈ productSteps a b, IsDouble s := by
  have hdivides (d : ℤ) (hd : d ∣ 100 * (m * n)) : IsDouble d :=
    h.of_dvd (mul_ne_zero (by norm_num) hne) hd
  have hwhole (c : Outcome) (k : ℤ) (hc : c.hundredths = 100 * k) :
      (c.hundredths : ℚ) / 100 = k := by
    rw [hc, Int.cast_mul]
    exact mul_div_cancel_left₀ _ (by norm_num)
  have hresult : (a.hundredths : ℚ) * b.hundredths / 100 = (100 * (m * n) : ℤ) := by
    rw [ha, hb]
    push_cast
    ring
  simp only [productSteps, List.forall_mem_cons, List.not_mem_nil, false_implies, implies_true,
    and_true]
  rw [hresult, hwhole a m ha, hwhole b n hb, ha, hb, ← Int.cast_mul m n]
  exact ⟨hdivides _ ⟨n, by ring⟩, hdivides _ ⟨100 * n, by ring⟩, hdivides _ ⟨m, by ring⟩,
    hdivides _ ⟨100 * m, by ring⟩, hdivides _ ⟨100, by ring⟩, h⟩

/-- A product of whole outcomes that 53 bits are enough for is exact. -/
theorem mul?_of_isDouble {a b : Outcome} {m n : ℤ} (ha : a.hundredths = 100 * m)
    (hb : b.hundredths = 100 * n) (hfits : |100 * (m * n)| < 2 ^ 63)
    (h : IsDouble (100 * (m * n) : ℤ)) :
    ∃ c, a.mul? b = some c ∧ c.hundredths = 100 * (m * n) := by
  obtain ⟨v, hv, hmul⟩ := mul?_eq a b
  have hx : (a.hundredths : ℚ) * b.hundredths / 100 = (100 * (m * n) : ℤ) := by
    rw [ha, hb]
    push_cast
    ring
  rw [hx] at hv
  have hexact : v = (100 * (m * n) : ℤ) := by
    by_cases hzero : m * n = 0
    · -- nothing is known about the other factor, but zero stays zero
      obtain ⟨t, -, rfl⟩ := hv.within
      rw [hzero, mul_zero, Int.cast_zero, zero_mul]
    · exact hv.exact (isDouble_of_mem_productSteps ha hb hzero h)
  rw [hmul, hexact, nearestOfRat_intCast]
  exact exists_inside? hfits

/-- Rounding a double to a whole number leaves a double. -/
theorem isDouble_nearestOfRat {v : ℚ} (h : IsDouble v) : IsDouble (nearestOfRat v) := by
  rcases le_or_gt (2 ^ 52) |v| with hlarge | hsmall
  · obtain ⟨n, rfl⟩ := h.exists_int hlarge
    rwa [nearestOfRat_intCast]
  · refine isDouble_intCast ?_
    have hnear := abs_nearestOfRat_sub_le v
    have habs := abs_sub_abs_le_abs_sub (nearestOfRat v : ℚ) v
    have hlt : |(nearestOfRat v : ℚ)| < 2 ^ 53 := by
      norm_num at hsmall hnear ⊢
      linarith
    have hint : |nearestOfRat v| < 2 ^ 53 := by exact_mod_cast hlt
    rw [Int.abs_eq_natAbs] at hint
    exact_mod_cast hint

theorem isDouble_of_mul?_eq {a b c : Outcome} (h : a.mul? b = some c) : IsDouble c.hundredths := by
  obtain ⟨v, hv, hmul⟩ := mul?_eq a b
  rw [(inside?_eq_some.1 (hmul.symm.trans h)).1]
  exact isDouble_nearestOfRat hv.isDouble

/-- Hundredths of a whole number end in two zero bits, which are not stored. -/
theorem isDouble_of_abs_lt {k : ℤ} (h : |100 * k| < 2 ^ 55) : IsDouble (100 * k : ℤ) := by
  have hbits : (25 * k).natAbs < 2 ^ 53 := by
    rw [Int.abs_eq_natAbs] at h
    omega
  refine ⟨(25 * k).natAbs, 2, hbits, ?_⟩
  rw [Nat.cast_natAbs, Int.cast_abs, show (100 * k : ℤ) = 25 * k * 4 by ring, Int.cast_mul, abs_mul]
  norm_num

/-! ## 6. Products and quotients -/

/-- **Products and quotients.**  They are the exact ones, rounded to the nearest hundredth, unless
that is nearly a tie; a product of whole outcomes is exact just when 53 bits are enough for it. -/
theorem mul?_div?_nearlyRounded (a b : Outcome) :
    NearlyRounded (productSteps a b) (a.hundredths * b.hundredths / 100) (a.mul? b)
    ∧ (b.hundredths ≠ 0 →
        NearlyRounded (quotientSteps a b) (100 * a.hundredths / b.hundredths) (a.div? b))
    ∧ (|a.hundredths * b.hundredths| < 2 ^ 50 → ¬ IsTie (a.hundredths * b.hundredths / 100) →
        ∃ c, a.mul? b = some c
          ∧ c.hundredths = nearestOfRat (a.hundredths * b.hundredths / 100))
    ∧ (b.hundredths ≠ 0 → |200 * a.hundredths| < 2 ^ 50 →
        ¬ IsTie (100 * a.hundredths / b.hundredths) →
        ∃ c, a.div? b = some c
          ∧ c.hundredths = nearestOfRat (100 * a.hundredths / b.hundredths))
    ∧ ∀ m n : ℤ, a.hundredths = 100 * m → b.hundredths = 100 * n → |100 * (m * n)| < 2 ^ 63 →
        ((∃ c, a.mul? b = some c ∧ c.hundredths = 100 * (m * n)) ↔ IsDouble (100 * (m * n) : ℤ))
        ∧ (|100 * (m * n)| < 2 ^ 55 → ∃ c, a.mul? b = some c ∧ c.hundredths = 100 * (m * n)) := by
  refine ⟨nearlyRounded_mul? a b, nearlyRounded_div? a, fun hsmall htie => ?_,
    fun hne hsmall htie => ?_, fun m n ha hb hfits => ⟨⟨?_, mul?_of_isDouble ha hb hfits⟩, ?_⟩⟩
  · have hx : (a.hundredths : ℚ) * b.hundredths / 100
        = (a.hundredths * b.hundredths : ℤ) / (2 * (50 : ℤ)) := by
      push_cast
      ring
    exact (nearlyRounded_mul? a b).nearest (clear_of_abs_lt (by norm_num) hsmall hx htie)
  · have hx : 100 * (a.hundredths : ℚ) / b.hundredths
        = (200 * a.hundredths : ℤ) / (2 * b.hundredths) := by
      push_cast
      field_simp
      ring
    exact (nearlyRounded_div? a hne).nearest (clear_of_abs_lt hne hsmall hx htie)
  · rintro ⟨c, hc, hvalue⟩
    rw [← hvalue]
    exact isDouble_of_mul?_eq hc
  · intro hsmall
    exact mul?_of_isDouble ha hb hfits (isDouble_of_abs_lt hsmall)

/-- Seven by three: `7 · 3 = 21` and `7 / 3 = 2.33`, neither of them a tie. -/
theorem mul?_div?_nearlyRounded_seven_three :
    (¬ IsTie ((ofInt 7).hundredths * (ofInt 3).hundredths / 100)
      ∧ ¬ IsTie (100 * (ofInt 7).hundredths / (ofInt 3).hundredths))
    ∧ (ofInt 7).mul? (ofInt 3) = some (nearHundredths 2100)
    ∧ (ofInt 7).div? (ofInt 3) = some (nearHundredths 233)
    ∧ ∃ c, (ofInt 7).mul? (ofInt 3) = some c ∧ c.hundredths = 100 * (7 * 3) := by
  obtain ⟨-, -, hmul, hdiv, hwhole⟩ := mul?_div?_nearlyRounded (ofInt 7) (ofInt 3)
  have hseven : (ofInt 7).hundredths = 700 := rfl
  have hthree : (ofInt 3).hundredths = 300 := rfl
  have hproduct : ¬ IsTie ((ofInt 7).hundredths * (ofInt 3).hundredths / 100) := by
    rw [hseven, hthree, isTie_iff (m := 210000) (n := 50) (by norm_num) (by norm_num)]
    rintro ⟨k, hk⟩
    omega
  have hquotient : ¬ IsTie (100 * (ofInt 7).hundredths / (ofInt 3).hundredths) := by
    rw [hseven, hthree, isTie_iff (m := 140000) (n := 300) (by norm_num) (by norm_num)]
    rintro ⟨k, hk⟩
    omega
  obtain ⟨p, hp, hpNearest⟩ := hmul (by decide) hproduct
  obtain ⟨q, hq, hqNearest⟩ := hdiv (by decide) (by decide) hquotient
  have hp' : p = nearHundredths 2100 := Outcome.ext (hpNearest.trans (by decide +kernel))
  have hq' : q = nearHundredths 233 := Outcome.ext (hqNearest.trans (by decide +kernel))
  exact ⟨⟨hproduct, hquotient⟩, hp' ▸ hp, hq' ▸ hq, (hwhole 7 3 rfl rfl (by decide)).2 (by decide)⟩

/-- Ties and large products can be missed, and so can the end of the grid: `0.05 · 0.70` becomes
`0.03`, `0.09 / 0.40` becomes `0.22`, the square of `94906267` loses `0.68`, and a product just
below `2 ^ 63` hundredths is refused. -/
theorem mul?_div?_missed :
    ((nearHundredths 5).mul? (nearHundredths 70) = some (nearHundredths 3)
      ∧ nearestOfRat (5 * 70 / 100) = 4)
    ∧ ((nearHundredths 9).div? (nearHundredths 40) = some (nearHundredths 22)
      ∧ nearestOfRat (100 * 9 / 40) = 23)
    ∧ ((ofInt 94906267).mul? (ofInt 94906267) = some (nearHundredths 900719951587528832)
      ∧ 94906267 * 94906267 * 100 = 900719951587528900)
    ∧ ((nearHundredths 92233720368547758).mul? (ofInt 100) = none
      ∧ nearestOfRat (92233720368547758 * 10000 / 100) = 9223372036854775800) := by
  decide +kernel

end Outcome

end DiceOdds
