import DiceOdds.Proofs.Doubles.Quotient
import DiceOdds.Proofs.Rendering.Spelling
import DiceOdds.Outcome

/-!
# What the text of an outcome says

A text is read here as the number it writes out, with nothing rounded.  A whole outcome is written
from its hundredths and can be any size; every other one is written from a double.  Up to `2 ^ 46`
doubles lie less than half a hundredth from every multiple of it, so the text says what the outcome
is; beyond, neighbouring outcomes share a double.

## Why the bound is on the hundredths

`2 ^ 46` is where doubles become coarser than a hundredth.  The text is as good as the double that
it is made from, so the bound is the same for the texts, and it is the best one.
-/

namespace DiceOdds

/-! ## 1. Numbers written out -/

namespace Decimal

/-- The number that digits stand for, with or without a point among them. -/
def exactMagnitude? (text : List Char) : Option ℚ :=
  let whole := text.takeWhile Char.isDigit
  let rest := text.dropWhile Char.isDigit
  let fraction := rest.tail
  if whole = [] then none
  else if rest = [] then some (natOfDigits whole : ℚ)
  else if rest.head? = some '.' ∧ fraction ≠ [] ∧ fraction.all Char.isDigit then
    some ((natOfDigits (whole ++ fraction) : ℚ) / 10 ^ fraction.length)
  else none

/-- The number that a text stands for: digits, with a minus in front and a point among them. -/
def exactValue? (text : String) : Option ℚ :=
  if text.toList.head? = some '-' then (exactMagnitude? text.toList.tail).map Neg.neg
  else exactMagnitude? text.toList

variable {whole fraction : List Char}

theorem exactMagnitude?_whole (hne : whole ≠ []) (hwhole : ∀ c ∈ whole, c.isDigit = true) :
    exactMagnitude? whole = some (natOfDigits whole : ℚ) := by
  have htake : whole.takeWhile Char.isDigit = whole := List.takeWhile_eq_self_iff.2 hwhole
  have hdrop : whole.dropWhile Char.isDigit = [] := List.dropWhile_eq_nil_iff.2 hwhole
  rw [exactMagnitude?, htake, hdrop]
  simp [hne]

theorem exactMagnitude?_point (hne : whole ≠ []) (hwhole : ∀ c ∈ whole, c.isDigit = true)
    (hplaces : fraction ≠ []) (hfraction : ∀ c ∈ fraction, c.isDigit = true) :
    exactMagnitude? (whole ++ '.' :: fraction)
      = some ((natOfDigits (whole ++ fraction) : ℚ) / 10 ^ fraction.length) := by
  have htake : (whole ++ '.' :: fraction).takeWhile Char.isDigit = whole := by
    rw [List.takeWhile_append_of_pos hwhole, List.takeWhile_cons_of_neg (by decide), List.append_nil]
  have hdrop : (whole ++ '.' :: fraction).dropWhile Char.isDigit = '.' :: fraction := by
    rw [List.dropWhile_append_of_pos hwhole, List.dropWhile_cons_of_neg (by decide)]
  rw [exactMagnitude?, htake, hdrop]
  simpa [hne, hplaces] using hfraction

/-- A minus in front of a text changes the sign of its value. -/
theorem exactValue?_minus {text : List Char} {x : ℚ} (h : exactMagnitude? text = some x) :
    exactValue? (String.ofList ('-' :: text)) = some (-x) := by
  simp [exactValue?, h]

theorem exactValue?_digits (hne : whole ≠ []) (hwhole : ∀ c ∈ whole, c.isDigit = true)
    (rest : List Char) :
    exactValue? (String.ofList (whole ++ rest)) = exactMagnitude? (whole ++ rest) := by
  obtain ⟨c, cs, rfl⟩ := List.exists_cons_of_ne_nil hne
  have hminus : c ≠ '-' := by
    rintro rfl
    exact absurd (hwhole '-' List.mem_cons_self) (by decide)
  simp [exactValue?, hminus]

/-! ## 2. Digits -/

theorem natOfDigits_append_zeros (ds : List Char) (k : ℕ) :
    natOfDigits (ds ++ List.replicate k '0') = natOfDigits ds * 10 ^ k := by
  induction k with
  | zero => simp
  | succ k ih =>
    have hlast : natOfDigits (ds ++ List.replicate k '0' ++ ['0'])
        = 10 * natOfDigits (ds ++ List.replicate k '0') := by
      simp [natOfDigits]
    rw [List.replicate_succ', ← List.append_assoc, hlast, ih, pow_succ]
    ring

theorem natOfDigits_zeros_append (ds : List Char) (k : ℕ) :
    natOfDigits (List.replicate k '0' ++ ds) = natOfDigits ds := by
  induction k with
  | zero => rfl
  | succ k ih => exact ih

/-- The digits of a number in front of the point and behind it. -/
theorem toList_withPlaces (n places : ℕ) : ∃ whole fraction,
    (withPlaces n places).toList = whole ++ '.' :: fraction ∧ whole ≠ []
      ∧ (∀ c ∈ whole ++ fraction, c.isDigit = true) ∧ fraction.length = places
      ∧ natOfDigits (whole ++ fraction) = n := by
  have hlong : places + 1 ≤ (List.replicate (places + 1 - (Nat.toDigits 10 n).length) '0'
      ++ Nat.toDigits 10 n).length := by
    rw [List.length_append, List.length_replicate]
    omega
  have hdigits : ∀ c ∈ List.replicate (places + 1 - (Nat.toDigits 10 n).length) '0'
      ++ Nat.toDigits 10 n, c.isDigit = true := by
    intro c hc
    rcases List.mem_append.1 hc with hc | hc
    · rw [List.eq_of_mem_replicate hc]
      rfl
    · exact isDigit_of_mem_toDigits hc
  have hvalue := natOfDigits_zeros_append (Nat.toDigits 10 n)
    (places + 1 - (Nat.toDigits 10 n).length)
  rw [natOfDigits_toDigits] at hvalue
  rw [withPlaces]
  generalize List.replicate (places + 1 - (Nat.toDigits 10 n).length) '0'
    ++ Nat.toDigits 10 n = padded at hlong hdigits hvalue ⊢
  refine ⟨padded.take (padded.length - places), padded.drop (padded.length - places),
    String.toList_ofList, ?_, ?_, ?_, ?_⟩
  · refine List.ne_nil_of_length_pos ?_
    rw [List.length_take]
    omega
  · rwa [List.take_append_drop]
  · rw [List.length_drop]
    omega
  · rwa [List.take_append_drop]

end Decimal

/-! ## 3. Trimming -/

namespace Outcome

theorem trimPlaces_eq (text : List Char) :
    trimPlaces text = (text.rdropWhile (· = '0')).rdropWhile (· = '.') := by
  rw [trimPlaces, List.rdropWhile, List.rdropWhile, List.reverse_reverse]

/-- Trimming stops at a digit that is not zero. -/
theorem trimPlaces_append (front : List Char) {fraction : List Char}
    (hne : fraction.rdropWhile (· = '0') ≠ []) (hdigits : ∀ c ∈ fraction, c.isDigit = true) :
    trimPlaces (front ++ fraction) = front ++ fraction.rdropWhile (· = '0') := by
  have hzeros : (front ++ fraction).rdropWhile (· = '0')
      = front ++ fraction.rdropWhile (· = '0') := by
    have hstop : (fraction.reverse.dropWhile (· = '0')).isEmpty = false := by
      rw [List.isEmpty_eq_false_iff]
      exact fun h => hne (by rw [List.rdropWhile, h, List.reverse_nil])
    rw [List.rdropWhile, List.reverse_append, List.dropWhile_append, hstop, if_neg (by decide),
      List.reverse_append, List.reverse_reverse]
    rfl
  rw [trimPlaces_eq, hzeros, List.rdropWhile_eq_self_iff]
  intro hfull hpoint
  rw [List.getLast_append_of_ne_nil _ hne] at hpoint
  have hmem : '.' ∈ fraction := by
    rw [← of_decide_eq_true hpoint]
    exact (List.rdropWhile_prefix _ _).subset (List.getLast_mem hne)
  exact absurd (hdigits '.' hmem) (by decide)

/-- **Trimmed places.**  What is trimmed are zeros, so the value is that of all places. -/
theorem exactMagnitude?_trimmed {n places : ℕ} (hn : n % 10 ^ places ≠ 0) :
    ∃ whole fraction, (∀ front, trimPlaces (front ++ (Decimal.withPlaces n places).toList)
        = front ++ (whole ++ '.' :: fraction)) ∧ whole ≠ [] ∧ (∀ c ∈ whole, c.isDigit = true)
      ∧ Decimal.exactMagnitude? (whole ++ '.' :: fraction) = some ((n : ℚ) / 10 ^ places) := by
  obtain ⟨whole, fraction, htext, hne, hdigits, hlength, hvalue⟩ :=
    Decimal.toList_withPlaces n places
  have hwhole : ∀ c ∈ whole, c.isDigit = true := fun c hc => hdigits c (List.mem_append_left _ hc)
  have hfraction : ∀ c ∈ fraction, c.isDigit = true :=
    fun c hc => hdigits c (List.mem_append_right _ hc)
  have hzeros : fraction.rtakeWhile (· = '0')
      = List.replicate (fraction.rtakeWhile (· = '0')).length '0' :=
    List.eq_replicate_iff.2 ⟨rfl, fun c hc => by simpa using List.mem_rtakeWhile_imp hc⟩
  have hsplit : fraction.rdropWhile (· = '0') ++ fraction.rtakeWhile (· = '0') = fraction :=
    List.rdropWhile_append_rtakeWhile
  rw [hzeros] at hsplit
  generalize (fraction.rtakeWhile (· = '0')).length = k at hsplit
  have hscaled : Decimal.natOfDigits (whole ++ fraction.rdropWhile (· = '0')) * 10 ^ k = n := by
    rw [← Decimal.natOfDigits_append_zeros, List.append_assoc, hsplit, hvalue]
  have hplaces : (fraction.rdropWhile (· = '0')).length + k = places := by
    rw [← hlength, ← congrArg List.length hsplit, List.length_append, List.length_replicate]
  have hkept : fraction.rdropWhile (· = '0') ≠ [] := by
    intro hnil
    rw [hnil, List.length_nil, Nat.zero_add] at hplaces
    rw [← hscaled, hplaces, Nat.mul_mod_left] at hn
    exact hn rfl
  refine ⟨whole, fraction.rdropWhile (· = '0'), fun front => ?_, hne, hwhole, ?_⟩
  · have h := trimPlaces_append (front ++ whole ++ ['.']) hkept hfraction
    rw [htext]
    simpa using h
  · rw [Decimal.exactMagnitude?_point hne hwhole hkept fun c hc =>
      hfraction c ((List.rdropWhile_prefix _ _).subset hc), ← hscaled, ← hplaces, pow_add]
    push_cast
    rw [mul_div_mul_right _ _ (by positivity)]

/-! ## 4. Texts of outcomes -/

/-- The text is exact: it is that of a whole number, or the outcome is below `2 ^ 46`. -/
def PrintsExactly (a : Outcome) : Prop :=
  a.isIntegral = true ∨ a.hundredths.natAbs < 100 * 2 ^ 46

instance (a : Outcome) : Decidable a.PrintsExactly := inferInstanceAs (Decidable (_ ∨ _))

theorem exactValue?_toString (n : ℤ) : Decimal.exactValue? (toString n) = some (n : ℚ) := by
  have hread (k : ℕ) : Decimal.exactMagnitude? (Nat.toDigits 10 k) = some (k : ℚ) := by
    rw [Decimal.exactMagnitude?_whole Nat.toDigits_ne_nil fun _ => isDigit_of_mem_toDigits,
      natOfDigits_toDigits]
  cases n with
  | ofNat k =>
    have htext : toString (Int.ofNat k) = String.ofList (Nat.toDigits 10 k ++ []) := by
      rw [List.append_nil]
      rfl
    rw [htext, Decimal.exactValue?_digits Nat.toDigits_ne_nil fun _ => isDigit_of_mem_toDigits,
      List.append_nil, hread, Int.ofNat_eq_natCast, Int.cast_natCast]
  | negSucc k =>
    have htext : toString (Int.negSucc k) = String.ofList ('-' :: Nat.toDigits 10 (k + 1)) := by
      apply String.toList_injective
      rw [String.toList_ofList]
      change (("-" : String) ++ Nat.repr (k + 1)).toList = _
      simp
    rw [htext, Decimal.exactValue?_minus (hread (k + 1)), Int.cast_negSucc]

/-- The double of an outcome below `2 ^ 46` is written with the hundredths of the outcome. -/
theorem fixed_toWeight {a : Outcome} (hne : a.hundredths ≠ 0)
    (hlt : a.hundredths.natAbs < 100 * 2 ^ 46) :
    Decimal.fixed 2 a.toWeight = if a.hundredths < 0
      then "-" ++ Decimal.withPlaces a.hundredths.natAbs 2
      else Decimal.withPlaces a.hundredths.natAbs 2 := by
  have hnum := hasMagnitude_ofInt hne (by omega)
  have hden : HasMagnitude (Float.ofNat 100).toModel.unpack .positive (100 : ℕ) :=
    hasMagnitude_ofNat (by norm_num) (by norm_num)
  have hlow : (1 : ℚ) / 100 ≤ (a.hundredths.natAbs : ℚ) / (100 : ℕ) := by
    have : (1 : ℚ) ≤ a.hundredths.natAbs := by exact_mod_cast Int.natAbs_pos.2 hne
    push_cast
    linarith
  have hhigh : (a.hundredths.natAbs : ℚ) / (100 : ℕ) < 2 ^ (46 : ℤ) := by
    have : (a.hundredths.natAbs : ℚ) < 100 * 2 ^ 46 := by exact_mod_cast hlt
    rw [div_lt_iff₀ (by norm_num)]
    norm_num at this ⊢
    linarith
  have hsmall : (2 : ℚ) ^ (-1000 : ℤ) ≤ 1 / 100 :=
    le_trans (zpow_le_zpow_right₀ (by norm_num) (by norm_num : (-1000 : ℤ) ≤ -7)) (by norm_num)
  obtain ⟨r, hr, herror⟩ := hnum.div hden (hsmall.trans hlow) hhigh
  rw [abs_le] at herror
  norm_num at herror
  have hrange : InRange r := by
    constructor
    · refine le_trans (zpow_le_zpow_right₀ (by norm_num) (by norm_num : (-1022 : ℤ) ≤ -8)) ?_
      push_cast at hlow
      norm_num at hlow ⊢
      linarith [herror.1]
    · refine lt_of_lt_of_le ?_ (zpow_le_zpow_right₀ (by norm_num) (by norm_num : (47 : ℤ) ≤ 1024))
      push_cast at hhigh
      norm_num at hhigh ⊢
      linarith [herror.2]
  have hsign (negative : Bool) : signOf negative / .positive = signOf negative := by
    cases negative <;> rfl
  rw [hsign] at hr
  obtain ⟨b, hb, hnegative, hvalue⟩ := ofFloat?_pack hr hrange
  have hplaces : b.inPlaces 2 = a.hundredths.natAbs := by
    refine Binary64.inPlaces_eq ?_
    rw [hvalue, abs_lt]
    constructor <;> norm_num <;> linarith [herror.1, herror.2]
  have hfloat : Binary64.ofFloat? (a.toWeight : Float) = some b := hb
  rw [Decimal.fixed, hfloat]
  dsimp only
  rw [hplaces, hnegative]
  simp

/-- **The text of an outcome is its value.** -/
theorem exactValue?_text {a : Outcome} (h : a.PrintsExactly) :
    Decimal.exactValue? a.text = some ((a.hundredths : ℚ) / 100) := by
  by_cases hwhole : a.isIntegral = true
  · have hdvd : a.hundredths.tmod 100 = 0 := of_decide_eq_true hwhole
    have hsplit := Int.tmod_add_mul_tdiv a.hundredths 100
    rw [text, if_pos hwhole, exactValue?_toString]
    have : (a.hundredths : ℚ) = 100 * (a.hundredths.tdiv 100 : ℤ) := by
      exact_mod_cast (by omega : a.hundredths = 100 * a.hundredths.tdiv 100)
    rw [this, mul_div_cancel_left₀ _ (by norm_num)]
  · have hlt := h.resolve_left hwhole
    have hmod : a.hundredths.tmod 100 ≠ 0 := fun h => hwhole (decide_eq_true h)
    have hne : a.hundredths ≠ 0 := by
      intro h
      rw [h] at hmod
      exact hmod rfl
    have hplaces : a.hundredths.natAbs % 10 ^ 2 ≠ 0 := by
      have hden : (100 : ℤ).natAbs = 10 ^ 2 := rfl
      rw [← hden, ← Int.natAbs_tmod]
      exact Int.natAbs_ne_zero.2 hmod
    obtain ⟨whole, fraction, htrim, hwholeNe, hdigits, hvalue⟩ := exactMagnitude?_trimmed hplaces
    rw [text, if_neg hwhole, fixed_toWeight hne hlt]
    split
    next hneg =>
      have htext : trimPlaces ("-" ++ Decimal.withPlaces a.hundredths.natAbs 2).toList
          = '-' :: (whole ++ '.' :: fraction) := by
        rw [String.toList_append]
        exact htrim ['-']
      rw [htext, Decimal.exactValue?_minus hvalue, Nat.cast_natAbs, abs_of_neg hneg]
      push_cast
      norm_num
      ring
    next hneg =>
      have htext : trimPlaces (Decimal.withPlaces a.hundredths.natAbs 2).toList
          = whole ++ '.' :: fraction := by
        have hnil := htrim []
        rwa [List.nil_append, List.nil_append] at hnil
      rw [htext, Decimal.exactValue?_digits hwholeNe hdigits ('.' :: fraction), hvalue,
        Nat.cast_natAbs, abs_of_nonneg (not_lt.1 hneg)]
      norm_num

/-- Outcomes whose texts are exact are told apart by them. -/
theorem eq_of_text_eq {a b : Outcome} (ha : a.PrintsExactly) (hb : b.PrintsExactly)
    (h : a.text = b.text) : a = b := by
  have hvalue := exactValue?_text ha
  rw [h, exactValue?_text hb, Option.some.injEq, div_left_inj' (by norm_num)] at hvalue
  exact Outcome.ext (by exact_mod_cast hvalue.symm)

end Outcome

end DiceOdds
