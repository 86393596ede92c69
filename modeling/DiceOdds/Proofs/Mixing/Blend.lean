import DiceOdds.Proofs.Counting.Below
import DiceOdds.Proofs.Counting.Walk
import DiceOdds.Proofs.Nearest

/-!
# Mixtures before and after rounding

A mixture adds up its parts, each scaled to its share of a total, and then rounds every weight.
`blend` is the sum before rounding.  It is linear: what it gives to an outcome is the sum of what
the parts give.

## Why whole weights are singled out

Rounding is the only step of an evaluation that is not exact.  It does nothing to weights that are
whole already, so wherever a sum is known to be whole (`Whole`) the rounding can be left out
(`sumOver_rounded`).
-/

namespace DiceOdds

namespace Distribution

variable {d : Distribution ℚ}

/-! ## 1. Rounding -/

/-- Every weight is a whole number. -/
def Whole (d : Distribution ℚ) : Prop := ∀ v, ∃ n : ℕ, d.weightOf v = n

theorem Whole.nonneg (h : d.Whole) : d.Nonneg :=
  nonneg_iff.2 fun v => by
    obtain ⟨n, hn⟩ := h v
    exact hn ▸ Nat.cast_nonneg n

theorem Whole.mem (h : d.Whole) {p : Outcome × ℚ} (hp : p ∈ d.toList) : ∃ n : ℕ, p.2 = n :=
  mem_toList hp ▸ h p.1

/-- Only the stored weights matter. -/
theorem Whole.of_weights {ns : List ℕ} (h : d.toList.map Prod.snd = ns.map Nat.cast) : d.Whole := by
  have hmem : ∀ p ∈ d.toList, ∃ n : ℕ, p.2 = n := by
    intro p hp
    obtain ⟨n, -, hn⟩ := List.mem_map.1 (h ▸ List.mem_map_of_mem (f := Prod.snd) hp)
    exact ⟨n, hn.symm⟩
  intro v
  by_cases hv : v ∈ d.weights
  · obtain ⟨w, hw⟩ := Option.isSome_iff_exists.1 (Std.TreeMap.isSome_getElem?_iff_mem.2 hv)
    have hv : (v, w) ∈ d.toList := Std.TreeMap.mem_toList_iff_getElem?_eq_some.2 hw
    rw [weightOf, mem_toList hv]
    exact hmem _ hv
  · exact ⟨0, by rw [weightOf, getD_eq_zero hv, Nat.cast_zero]⟩

/-- Numbers of rolls are whole weights. -/
theorem Counts.whole {d : Distribution ℚ} {l : List (Option Outcome)} (h : d.Counts l) : d.Whole :=
  fun v => ⟨l.count (some v), h.weightOf_eq v⟩

/-- Whole weights stay as they are. -/
theorem Whole.sumOver_rounded (h : d.Whole) (f : Outcome → ℚ) :
    d.rounded.sumOver f = d.sumOver f := by
  have hsum := foldl_measure (fun out (p : Outcome × ℚ) => add out p.1 (Weight.round p.2))
    (fun d => d.sumOver f) (fun p => p.2 * f p.1) d.toList empty fun out p hp => by
      obtain ⟨n, hn⟩ := h.mem hp
      rw [hn, round_natCast]
      exact sumOver_add (Nat.cast_nonneg n) out p.1 f
  rw [sumOver_empty, zero_add] at hsum
  exact hsum

theorem Whole.weightOf_rounded (h : d.Whole) (v : Outcome) :
    d.rounded.weightOf v = d.weightOf v := by
  rw [weightOf_eq_sumOver, weightOf_eq_sumOver, h.sumOver_rounded]

theorem Whole.total_rounded (h : d.Whole) : d.rounded.total = d.total := by
  rw [total_eq_sumOver, h.sumOver_rounded, ← total_eq_sumOver]

theorem whole_empty : (empty : Distribution ℚ).Whole := fun v => ⟨0, by simp⟩

theorem Whole.add (h : d.Whole) (v : Outcome) (n : ℕ) : (d.add v n).Whole := by
  intro x
  obtain ⟨m, hm⟩ := h x
  rw [weightOf_add, hm]
  split
  · exact ⟨m + n, by push_cast; rfl⟩
  · exact ⟨m, rfl⟩

/-! ## 2. Parts of a mixture -/

/-- The parts of a mixture, each scaled to its share of `target`. -/
def blend (parts : List (ℚ × Distribution ℚ)) (target : ℚ) : Distribution ℚ :=
  parts.foldl (fun out part => out.addPart target part.1 part.2) empty

theorem mix_eq_rounded (parts : List (ℚ × Distribution ℚ)) (target : ℚ) :
    mix parts target = (blend parts target).rounded := rfl

theorem addScaled_zero (d other : Distribution ℚ) : d.addScaled other 0 = d :=
  foldl_invariant _ (· = d) other.toList rfl fun out p _ h => by
    have hadd : out.add p.1 (p.2 * 0) = out := by
      rw [mul_zero]
      exact if_neg (lt_irrefl _)
    exact hadd.trans h

/-- A part counts with its own shares of its share of the total; parts that are passed over have
none. -/
theorem sumOver_addPart {target p : ℚ} {part : Distribution ℚ} (htarget : 0 ≤ target) (hp : 0 ≤ p)
    (hpart : part.Nonneg) (out : Distribution ℚ) (f : Outcome → ℚ) :
    (out.addPart target p part).sumOver f
      = out.sumOver f + target * p / part.total * part.sumOver f := by
  unfold addPart
  split
  · exact sumOver_addScaled hpart (div_nonneg (mul_nonneg htarget hp) hpart.total_nonneg) out f
  · next hpass =>
    rcases hp.eq_or_lt with rfl | hp
    · simp
    · have hzero : part.total = 0 :=
        le_antisymm (not_lt.1 fun h => hpass ⟨hp, h⟩) hpart.total_nonneg
      rw [hzero, div_zero, zero_mul, add_zero]

/-- **The sum over a mixture is the sum over its parts**, each scaled to its share of the total. -/
theorem sumOver_blend {parts : List (ℚ × Distribution ℚ)} {target : ℚ} (htarget : 0 ≤ target)
    (hparts : ∀ part ∈ parts, 0 ≤ part.1 ∧ part.2.Nonneg) (f : Outcome → ℚ) :
    (blend parts target).sumOver f
      = (parts.map fun part => target * part.1 / part.2.total * part.2.sumOver f).sum := by
  have hsum := foldl_measure
    (fun out (part : ℚ × Distribution ℚ) => addPart target out part.1 part.2) (fun d => d.sumOver f)
    (fun part => target * part.1 / part.2.total * part.2.sumOver f) parts empty fun out part hpart =>
      sumOver_addPart htarget (hparts part hpart).1 (hparts part hpart).2 out f
  rw [sumOver_empty, zero_add] at hsum
  exact hsum

end Distribution

/-! ## 3. Conditionals -/

/-- The branches of a conditional, each with the probability of taking it. -/
def Evaluation.branches : Evaluation ℚ → List (ℚ × Distribution ℚ)
  | conditional result =>
    [(result.condition.successProbability, result.ifTrue),
      (1 - result.condition.successProbability, result.ifFalse)]
  | critical result =>
    [(result.probabilities.normalHit, result.normalHit),
      (result.probabilities.criticalHit, result.criticalHit),
      (result.probabilities.miss, result.miss)]
  | _ => []

/-- A conditional is the mixture of its branches, two or three. -/
theorem Node.distribution_conditional {s : Settings ℚ} {split : SplitCheck ℚ} {ctx : Context}
    {condition ifTrue ifFalse : Node} {e : Evaluation ℚ} {check : Check ℚ}
    (he : (conditional condition ifTrue ifFalse).walk s split ctx = .ok e)
    (hcheck : condition.walk s split ctx = .ok (.check check)) :
    e.distribution = .mix e.branches
      (s.mixing.targetTotal check.total (e.branches.map fun branch => branch.2.total)) := by
  obtain ⟨check', hcheck', ⟨shares, normalHit, criticalHit, miss, -, -, -, -, rfl⟩
    | ⟨yes, no, -, -, -, rfl⟩⟩ := walk_conditional_eq_ok he
  all_goals
    rw [hcheck] at hcheck'
    cases hcheck'
    rfl

end DiceOdds
