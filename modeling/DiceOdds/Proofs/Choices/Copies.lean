import DiceOdds.Proofs.Choices.Grid

/-!
# Sums of copies, one copy after the other

Repeated squaring is compared with the obvious way to add up copies, one convolution for each of
them.  Both have a result for the same numbers of copies, and it is the same distribution.

## Why squaring cannot fail too early

The base is squared ahead of the sum, so a base is formed that has not been added yet.  It still is
a sum of at most as many copies as are asked for, because squaring stops when no digit is left.  Such
a sum lies between the least and the greatest sum of all copies, or nearer to zero than these, and
the grid has no gaps.  So the two extreme sums alone decide (`succeeds_sumOfCopies_iff_room`).
-/

namespace DiceOdds

open Outcome (exactSum OnGrid)

namespace Distribution

/-! ## 1. One copy at a time -/

/-- The sum of `n` copies, each of them added by a convolution of its own. -/
def repeatedSum {W : Type} [Weight W] (d : Distribution W) : ℕ → Except Exceeded (Distribution W)
  | 0 => .ok (point 0 1)
  | n + 1 => do (← d.repeatedSum n).convolve d

variable {d r s : Distribution ℚ} {low high : Outcome} {n : ℕ}

theorem positive_repeatedSum (h : d.repeatedSum n = .ok r) : r.Positive := by
  cases n with
  | zero =>
    cases h
    exact positive_point 0
  | succ n =>
    obtain ⟨sum, -, hr⟩ := bind_eq_ok.1 h
    exact positive_convolve hr

/-- The copies are drawn one after the other. -/
theorem sumOver_repeatedSum (hd : d.Nonneg) (h : d.repeatedSum n = .ok r) (F : ℤ → ℚ) :
    r.sumOver (fun v => F v.hundredths)
      = sumOverAll (List.replicate n d) fun vs => F (exactSum vs) := by
  induction n generalizing r F with
  | zero =>
    cases h
    simp [sumOverAll]
  | succ n ih =>
    obtain ⟨sum, hsum, hr⟩ := bind_eq_ok.1 h
    rw [sumOver_convolve (positive_repeatedSum hsum).nonneg hd hr,
      ih hsum fun m => d.sumOver fun b => F (m + b.hundredths), List.replicate_succ',
      sumOverAll_append]
    simp [sumOverAll, Outcome.exactSum_append]

/-! ## 2. Room for the extreme sums -/

theorem Between.exactSum {low high : ℤ} {vs : List Outcome}
    (h : ∀ v ∈ vs, Between low high 1 v.hundredths) :
    Between low high vs.length (exactSum vs) := by
  induction vs with
  | nil => simp [Between]
  | cons v vs ih =>
    obtain ⟨hv, hvs⟩ := List.forall_mem_cons.1 h
    rw [Outcome.exactSum_cons, List.length_cons, add_comm vs.length]
    exact hv.add (ih hvs)

/-- The least and the greatest outcome bound all of them. -/
theorem between_of_bounds (hlow : d.min? = some low) (hhigh : d.max? = some high) :
    ∀ p ∈ d.toList, Between low.hundredths high.hundredths 1 p.1.hundredths := by
  intro p hp
  rw [Between, Nat.cast_one, one_mul, one_mul]
  exact ⟨min?_le hlow hp, le_max? hhigh hp⟩

/-- **A sum of copies exists if and only if the two extreme sums lie on the grid.** -/
theorem succeeds_sumOfCopies_iff_room (hd : d.Positive) (hlow : d.min? = some low)
    (hhigh : d.max? = some high) (n : ℕ) :
    Succeeds (d.sumOfCopies n) ↔ Room low.hundredths high.hundredths n := by
  rw [succeeds_sumOfCopies_iff hd]
  constructor
  · intro h
    have hextreme : ∀ v ∈ d.toList.map Prod.fst, OnGrid (n * v.hundredths) := by
      intro v hv
      simpa [Outcome.exactSum] using h _ (isDraw_replicate hv n)
    exact ⟨hextreme low (mem_of_min? hlow), hextreme high (mem_of_max? hhigh)⟩
  · rintro hroom vs ⟨rfl, hvs⟩
    refine hroom.onGrid (.exactSum fun v hv => ?_)
    obtain ⟨p, hp, rfl⟩ := List.mem_map.1 (hvs v hv)
    exact between_of_bounds hlow hhigh p hp

/-- Adding one copy after the other meets no sum of more than all copies either. -/
theorem exists_repeatedSum {low high : ℤ} (hd : d.Positive)
    (hbetween : ∀ p ∈ d.toList, Between low high 1 p.1.hundredths) (hroom : Room low high n) :
    ∃ r, d.repeatedSum n = .ok r ∧ ∀ p ∈ r.toList, Between low high n p.1.hundredths := by
  induction n with
  | zero =>
    refine ⟨point 0 1, rfl, fun p hp => ?_⟩
    rw [toList_point, List.mem_singleton] at hp
    rw [hp]
    simp [Between]
  | succ n ih =>
    obtain ⟨sum, hsum, hsums⟩ := ih (hroom.mono n.le_succ)
    obtain ⟨r, hr, -, hrs⟩ :=
      exists_convolve hroom le_rfl (positive_repeatedSum hsum) hd hsums hbetween
    exact ⟨r, bind_eq_ok.2 ⟨sum, hsum, hr⟩, hrs⟩

/-! ## 3. The only error -/

theorem error_convolve {x y : Distribution ℚ} {e : Exceeded} (h : x.convolve y = .error e) :
    e = .value := by
  rw [convolve_eq] at h
  obtain ⟨a, -, b, -, hsum⟩ := exists_error_of_combine h
  cases hadd : a.add? b with
  | some c =>
    rw [hadd] at hsum
    cases hsum
  | none =>
    rw [hadd] at hsum
    exact (Except.error.inj hsum).symm

theorem error_addCopies (n : ℕ) {sum base : Distribution ℚ} {e : Exceeded}
    (h : addCopies sum base n = .error e) : e = .value := by
  induction n using Nat.strong_induction_on generalizing sum base with
  | _ n ih =>
  rcases eq_or_ne n 0 with rfl | hn
  · rw [addCopies, dif_pos rfl] at h
    cases h
  rw [addCopies_digit sum base hn, bind_eq_error] at h
  rcases h with hodd | ⟨odd, -, h⟩
  · split at hodd
    · exact error_convolve hodd
    · cases hodd
  split at h
  · cases h
  · rcases bind_eq_error.1 h with htwice | ⟨twice, -, h⟩
    · exact error_convolve htwice
    · exact ih (n / 2) (by omega) h

theorem sumOfCopies_eq_error_iff {e : Exceeded} :
    d.sumOfCopies n = .error e ↔ e = .value ∧ ¬ Succeeds (d.sumOfCopies n) := by
  constructor
  · intro h
    refine ⟨error_addCopies n h, ?_⟩
    rintro ⟨r, hr⟩
    rw [hr] at h
    cases h
  · rintro ⟨rfl, hfails⟩
    cases h : d.sumOfCopies n with
    | ok r => exact absurd ⟨r, h⟩ hfails
    | error e => rw [error_addCopies n h]

/-! ## 4. The same distribution -/

/-- Distributions that give the same sum to every function of the hundredths are equal. -/
theorem toList_eq_of_sumOver (hr : r.Positive) (hs : s.Positive)
    (h : ∀ F : ℤ → ℚ, r.sumOver (fun v => F v.hundredths) = s.sumOver fun v => F v.hundredths) :
    r.toList = s.toList := by
  refine toList_eq_of_weightOf hr hs fun v => ?_
  rw [weightOf_eq_sumOver_hundredths, weightOf_eq_sumOver_hundredths]
  exact h fun m => if m = v.hundredths then 1 else 0

theorem toList_sumOfCopies_eq (hd : d.Positive) (hr : d.sumOfCopies n = .ok r)
    (hs : d.repeatedSum n = .ok s) : r.toList = s.toList :=
  toList_eq_of_sumOver (positive_sumOfCopies hr) (positive_repeatedSum hs) fun F => by
    rw [sumOver_sumOfCopies hd.nonneg hr, sumOver_repeatedSum hd.nonneg hs]

/-- A sum of copies has no outcome beyond the extreme sums. -/
theorem between_sumOfCopies {low high : ℤ} (hd : d.Positive)
    (hbetween : ∀ p ∈ d.toList, Between low high 1 p.1.hundredths) (h : d.sumOfCopies n = .ok r) :
    ∀ p ∈ r.toList, Between low high n p.1.hundredths := by
  rw [← sumOver_lacks (positive_sumOfCopies h), sumOver_sumOfCopies hd.nonneg h,
    sumOverAll_replicate_eq_zero_iff hd n fun _ => lacks_nonneg _]
  rintro vs ⟨rfl, hvs⟩
  refine lacks_eq_zero.2 (.exactSum fun v hv => ?_)
  obtain ⟨p, hp, rfl⟩ := List.mem_map.1 (hvs v hv)
  exact hbetween p hp

/-- The copies may be added up in two parts. -/
theorem exists_convolve_sumOfCopies (hd : d.Positive) (hlow : d.min? = some low)
    (hhigh : d.max? = some high) {m n : ℕ} (h : d.sumOfCopies (m + n) = .ok r) :
    ∃ a b c, d.sumOfCopies m = .ok a ∧ d.sumOfCopies n = .ok b ∧ a.convolve b = .ok c
      ∧ c.toList = r.toList := by
  have hiff := succeeds_sumOfCopies_iff_room hd hlow hhigh
  have hbetween := between_of_bounds hlow hhigh
  have hroom := (hiff (m + n)).1 ⟨r, h⟩
  obtain ⟨a, ha⟩ := (hiff m).2 (hroom.mono (Nat.le_add_right m n))
  obtain ⟨b, hb⟩ := (hiff n).2 (hroom.mono (Nat.le_add_left n m))
  have hapos := positive_sumOfCopies ha
  have hbpos := positive_sumOfCopies hb
  obtain ⟨c, hc, hcpos, -⟩ := exists_convolve hroom le_rfl hapos hbpos
    (between_sumOfCopies hd hbetween ha) (between_sumOfCopies hd hbetween hb)
  refine ⟨a, b, c, ha, hb, hc, toList_eq_of_sumOver hcpos (positive_sumOfCopies h) fun F => ?_⟩
  have hrest : ∀ i : ℤ, b.sumOver (fun v => F (i + v.hundredths))
      = sumOverAll (List.replicate n d) fun vs => F (i + exactSum vs) :=
    fun i => sumOver_sumOfCopies hd.nonneg hb fun j => F (i + j)
  rw [sumOver_convolve hapos.nonneg hbpos.nonneg hc, sumOver_sumOfCopies hd.nonneg h,
    sumOver_sumOfCopies hd.nonneg ha fun i => b.sumOver fun v => F (i + v.hundredths),
    List.replicate_add, sumOverAll_append]
  simp only [hrest, Outcome.exactSum_append]

/-! ## 5. Repeated squaring -/

/-- **Repeated squaring is repeated convolution.**  It fails exactly when the least or the greatest
sum of all copies is off the grid, always for the same reason; otherwise it gives what adding one
copy after the other gives, and the copies may be divided into two parts in any way. -/
theorem sumOfCopies_repeats (hd : d.Positive) (hlow : d.min? = some low)
    (hhigh : d.max? = some high) :
    (∀ (n : ℕ) e, d.sumOfCopies n = .error e
        ↔ e = .value ∧ (¬ OnGrid (n * low.hundredths) ∨ ¬ OnGrid (n * high.hundredths)))
      ∧ (∀ n : ℕ, OnGrid (n * low.hundredths) → OnGrid (n * high.hundredths) →
        ∃ r s, d.sumOfCopies n = .ok r ∧ d.repeatedSum n = .ok s ∧ r.toList = s.toList)
      ∧ ∀ m n r, d.sumOfCopies (m + n) = .ok r →
        ∃ a b c, d.sumOfCopies m = .ok a ∧ d.sumOfCopies n = .ok b ∧ a.convolve b = .ok c
          ∧ c.toList = r.toList := by
  have hiff := succeeds_sumOfCopies_iff_room hd hlow hhigh
  refine ⟨fun n e => ?_, fun n hln hhn => ?_, fun m n r h =>
    exists_convolve_sumOfCopies hd hlow hhigh h⟩
  · rw [sumOfCopies_eq_error_iff, hiff, ← not_and_or]
    exact and_congr_right fun _ => not_congr ⟨fun h => ⟨h.low, h.high⟩, fun h => ⟨h.1, h.2⟩⟩
  · have hroom : Room low.hundredths high.hundredths n := ⟨hln, hhn⟩
    obtain ⟨r, hr⟩ := (hiff n).2 hroom
    obtain ⟨s, hs, -⟩ := exists_repeatedSum hd (between_of_bounds hlow hhigh) hroom
    exact ⟨r, s, hr, hs, toList_sumOfCopies_eq hd hr hs⟩

/-- Half of the least value or a little more than nothing. -/
def halfLeastOrCent : Distribution ℚ :=
  .ofList [(⟨-0x4000000000000000, by decide, by decide⟩, 1), (⟨1, by decide, by decide⟩, 2)]

/-- Two copies just fit, with the least value as their least sum; three do not. -/
theorem sumOfCopies_repeats_halfLeastOrCent :
    (halfLeastOrCent.Positive
      ∧ halfLeastOrCent.min? = some ⟨-0x4000000000000000, by decide, by decide⟩
      ∧ halfLeastOrCent.max? = some ⟨1, by decide, by decide⟩
      ∧ OnGrid ((2 : ℕ) * -0x4000000000000000) ∧ OnGrid ((2 : ℕ) * 1)
      ∧ ¬ OnGrid ((3 : ℕ) * -0x4000000000000000))
    ∧ (∃ r s, halfLeastOrCent.sumOfCopies 2 = .ok r ∧ halfLeastOrCent.repeatedSum 2 = .ok s
      ∧ r.toList = s.toList)
    ∧ halfLeastOrCent.sumOfCopies 3 = .error .value := by
  have hpos : halfLeastOrCent.Positive := positive_ofList _
  have hlow : halfLeastOrCent.min? = some ⟨-0x4000000000000000, by decide, by decide⟩ := by
    decide +kernel
  have hhigh : halfLeastOrCent.max? = some ⟨1, by decide, by decide⟩ := by decide +kernel
  have hfits : OnGrid ((2 : ℕ) * -0x4000000000000000) ∧ OnGrid ((2 : ℕ) * 1) := by decide
  have hleaves : ¬ OnGrid ((3 : ℕ) * -0x4000000000000000) := by decide
  obtain ⟨hfails, hrepeats, -⟩ := sumOfCopies_repeats hpos hlow hhigh
  exact ⟨⟨hpos, hlow, hhigh, hfits.1, hfits.2, hleaves⟩, hrepeats 2 hfits.1 hfits.2,
    (hfails 3 .value).2 ⟨rfl, .inl hleaves⟩⟩

end Distribution

end DiceOdds
