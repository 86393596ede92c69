import DiceOdds.Proofs.Rate.Neutral

/-!
# Mixtures that round to nothing

Rounding drops every outcome that has less than half a unit.  A part that spreads its share of the
total over many outcomes may lose all of them that way, and a mixture of such parts is empty,
although none of its parts is.

## Why the average decides

Some outcome of a part has at least the average weight.  So a part that is given at least half a
unit for each of its outcomes keeps one of them, whatever its weights are; only if no part is
(`Crowded`) can everything be lost.
-/

namespace DiceOdds.Distribution

variable {d : Distribution ℚ}

/-! ## 1. Rounding -/

theorem mem_toList_of_weightOf {v : Outcome} (h : d.weightOf v ≠ 0) :
    (v, d.weightOf v) ∈ d.toList := by
  by_cases hv : v ∈ d.weights
  · obtain ⟨w, hw⟩ := Option.isSome_iff_exists.1 (Std.TreeMap.isSome_getElem?_iff_mem.2 hv)
    have hmem : (v, w) ∈ d.toList := Std.TreeMap.mem_toList_iff_getElem?_eq_some.2 hw
    rwa [weightOf, mem_toList hmem]
  · exact absurd (getD_eq_zero hv) h

theorem Nonneg.sumOver_rounded (h : d.Nonneg) (f : Outcome → ℚ) :
    d.rounded.sumOver f = (d.toList.map fun p => Weight.round p.2 * f p.1).sum := by
  have hsum := foldl_measure
    (fun out (p : Outcome × ℚ) => Distribution.add out p.1 (Weight.round p.2))
    (fun d => d.sumOver f) (fun p => Weight.round p.2 * f p.1) d.toList empty
    fun out p hp => sumOver_add (round_nonneg (h p hp)) out p.1 f
  rw [sumOver_empty, zero_add] at hsum
  exact hsum

theorem Nonneg.total_rounded (h : d.Nonneg) :
    d.rounded.total = (d.toList.map fun p => Weight.round p.2).sum := by
  rw [total_eq_sumOver, h.sumOver_rounded]
  simp only [mul_one]

/-- An outcome with half a unit is kept. -/
theorem Nonneg.total_rounded_pos (h : d.Nonneg) {v : Outcome} (hhalf : 1 / 2 ≤ d.weightOf v) :
    0 < d.rounded.total := by
  have hmem := List.mem_map_of_mem (f := fun p : Outcome × ℚ => Weight.round p.2)
    (mem_toList_of_weightOf (v := v) (by linarith))
  rw [h.total_rounded]
  have hle := List.single_le_sum (fun w hw => by
    obtain ⟨p, hp, rfl⟩ := List.mem_map.1 hw
    exact round_nonneg (h p hp)) _ hmem
  exact zero_lt_one.trans_le ((one_le_round hhalf).trans hle)

/-! ## 2. Averages -/

theorem total_eq_sum (d : Distribution ℚ) : d.total = (d.toList.map Prod.snd).sum :=
  List.sum_eq_foldl.symm

theorem ne_nil_of_total_pos (h : 0 < d.total) : d.toList ≠ [] := by
  intro hnil
  rw [total_eq_sum, hnil] at h
  exact lt_irrefl _ h

theorem Positive.total_pos_of_ne_nil (h : d.Positive) (hne : d.toList ≠ []) : 0 < d.total := by
  rw [total_eq_sum]
  refine List.sum_pos _ (fun w hw => ?_) (by simpa using hne)
  obtain ⟨p, hp, rfl⟩ := List.mem_map.1 hw
  exact h p hp

/-- Some outcome has at least the average weight. -/
theorem exists_average_le (hne : d.toList ≠ []) : ∃ p ∈ d.toList, d.total ≤ d.size * p.2 := by
  by_contra! hless
  have hsize : d.size = d.toList.length := Std.TreeMap.length_toList.symm
  have hsum : (d.toList.map fun p => (d.size : ℚ) * p.2).sum
      < (d.toList.map fun _ => d.total).sum :=
    List.sum_lt_sum_of_ne_nil hne _ _ fun p hp => hless p hp
  rw [List.sum_map_mul_left, List.map_const', List.sum_replicate, nsmul_eq_mul, hsize] at hsum
  exact hsum.ne (by rw [total_eq_sum])

/-! ## 3. Mixtures -/

/-- No part of a mixture is given half a unit for each of its outcomes. -/
def Crowded (target : ℚ) (parts : List (ℚ × Distribution ℚ)) : Prop :=
  ∀ part ∈ parts, 2 * (target * part.1) < part.2.size

/-- What one part gives to an outcome stays there. -/
theorem weightOf_blend_le {parts : List (ℚ × Distribution ℚ)} {target : ℚ} (htarget : 0 ≤ target)
    (hparts : ∀ part ∈ parts, 0 ≤ part.1 ∧ part.2.Nonneg) {part : ℚ × Distribution ℚ}
    (hpart : part ∈ parts) (v : Outcome) :
    target * part.1 / part.2.total * part.2.weightOf v ≤ (blend parts target).weightOf v := by
  have hmem := List.mem_map_of_mem
    (f := fun part : ℚ × Distribution ℚ => target * part.1 / part.2.total * part.2.weightOf v) hpart
  have hle := List.single_le_sum (fun w hw => by
    obtain ⟨other, hother, rfl⟩ := List.mem_map.1 hw
    obtain ⟨hp, hnonneg⟩ := hparts other hother
    exact mul_nonneg (div_nonneg (mul_nonneg htarget hp) hnonneg.total_nonneg)
      (nonneg_iff.1 hnonneg v)) _ hmem
  rw [weightOf_eq_sumOver (blend parts target), sumOver_blend htarget hparts]
  simpa only [← weightOf_eq_sumOver] using hle

/-- **A mixture that is not crowded keeps an outcome.** -/
theorem total_mix_pos {parts : List (ℚ × Distribution ℚ)} {target : ℚ} (htarget : 0 ≤ target)
    (hparts : ∀ part ∈ parts, 0 ≤ part.1 ∧ part.2.Nonneg ∧ 0 < part.2.total)
    (h : ¬ Crowded target parts) : 0 < (mix parts target).total := by
  unfold Crowded at h
  push Not at h
  obtain ⟨part, hpart, hroom⟩ := h
  obtain ⟨hp, hnonneg, htotal⟩ := hparts part hpart
  obtain ⟨⟨v, w⟩, hv, haverage⟩ := exists_average_le (ne_nil_of_total_pos htotal)
  have hweight : part.2.weightOf v = w := mem_toList hv
  have hhalf : 1 / 2 ≤ target * part.1 / part.2.total * w := by
    have hw : 0 ≤ w := hnonneg _ hv
    have hshare : part.2.total ≤ 2 * (target * part.1) * w :=
      haverage.trans (mul_le_mul_of_nonneg_right hroom hw)
    rw [div_mul_eq_mul_div, div_le_div_iff₀ two_pos htotal]
    linarith
  have hblend := weightOf_blend_le htarget (fun part hpart => ⟨(hparts part hpart).1,
    (hparts part hpart).2.1⟩) hpart v
  rw [hweight] at hblend
  rw [mix_eq_rounded]
  exact (positive_blend parts target).nonneg.total_rounded_pos (hhalf.trans hblend)

end DiceOdds.Distribution
