import DiceOdds.Proofs.Counting.Keep

/-!
# Choices

A computation with several independent values stands for all choices of one outcome of each of
them.  A choice weighs as much as the product of the weights of what is chosen, and an outcome of
the computation as much as all choices that lead to it.

## Why choices are listed

`sumOverAll` draws from one distribution after the other, which is how a computation meets its
values.  Written out as a list of choices it is an enumeration, and nothing in it depends on any
computation.  So statements about results are made with `choiceWeight`, and `sumOverAll_eq` turns
them into what the proofs work with.
-/

namespace DiceOdds.Distribution

open Outcome (exactSum)

/-! ## 1. All choices -/

/-- One outcome of each distribution, with its weight. -/
abbrev Choice := List (Outcome × ℚ)

namespace Choice

/-- The chosen outcomes. -/
def values (choice : Choice) : List Outcome := choice.map Prod.fst

/-- The product of the weights of what is chosen. -/
def weight (choice : Choice) : ℚ := (choice.map Prod.snd).prod

end Choice

/-- All choices of one outcome of each distribution. -/
def choices (items : List (Distribution ℚ)) : List Choice := (items.map toList).sections

/-- The weight of all choices whose outcomes have a property. -/
def choiceWeight (items : List (Distribution ℚ)) (property : List Outcome → Prop)
    [DecidablePred property] : ℚ :=
  (((choices items).filter fun choice => property choice.values).map Choice.weight).sum

variable {items : List (Distribution ℚ)}

/-- To draw from all distributions is to go through all choices. -/
theorem sumOverAll_eq (items : List (Distribution ℚ)) (f : List Outcome → ℚ) :
    sumOverAll items f
      = ((choices items).map fun choice => choice.weight * f choice.values).sum := by
  induction items generalizing f with
  | nil => simp [sumOverAll, choices, Choice.weight, Choice.values]
  | cons d ds ih =>
    rw [sumOverAll, choices, List.map_cons, sum_sections_cons]
    refine congrArg List.sum (List.map_congr_left fun p _ => ?_)
    dsimp only
    rw [ih, ← List.sum_map_mul_left]
    refine congrArg List.sum (List.map_congr_left fun choice _ => ?_)
    simp [Choice.weight, Choice.values, mul_assoc]

theorem choiceWeight_eq (items : List (Distribution ℚ)) (property : List Outcome → Prop)
    [DecidablePred property] :
    choiceWeight items property = sumOverAll items fun vs => if property vs then 1 else 0 := by
  rw [choiceWeight, sum_filter, sumOverAll_eq]
  simp

/-- The weight of an outcome, with outcomes as whole numbers of hundredths. -/
theorem weightOf_eq_sumOver_hundredths (d : Distribution ℚ) (v : Outcome) :
    d.weightOf v = d.sumOver fun x => if x.hundredths = v.hundredths then 1 else 0 := by
  rw [weightOf_eq_sumOver]
  refine sumOver_congr fun p _ => ?_
  by_cases h : p.1 = v
  · simp [h]
  · have hne : p.1.hundredths ≠ v.hundredths := fun e => h (Outcome.ext e)
    simp [h, hne]

/-! ## 2. Reordering -/

theorem sumOver_comm (d e : Distribution ℚ) (f : Outcome → Outcome → ℚ) :
    (d.sumOver fun v => e.sumOver fun u => f v u) = e.sumOver fun u => d.sumOver fun v => f v u := by
  simp only [sumOver, tableSum, ← List.sum_map_mul_left]
  rw [sum_map_sum_comm]
  refine congrArg List.sum (List.map_congr_left fun q _ => ?_)
  exact congrArg List.sum (List.map_congr_left fun p _ => by ring)

/-- What does not depend on the order of the chosen outcomes does not depend on the order of the
distributions either. -/
theorem sumOverAll_perm {items' : List (Distribution ℚ)} (h : items.Perm items')
    {f : List Outcome → ℚ} (hf : ∀ us vs, us.Perm vs → f us = f vs) :
    sumOverAll items f = sumOverAll items' f := by
  induction h generalizing f with
  | nil => rfl
  | cons d _ ih => exact sumOver_congr fun p _ => ih fun us vs h => hf _ _ (h.cons p.1)
  | swap d e ds =>
    simp only [sumOverAll]
    rw [sumOver_comm]
    refine sumOver_congr fun p _ => sumOver_congr fun q _ => ?_
    exact sumOverAll_congr fun vs _ => hf _ _ (List.Perm.swap p.1 q.1 vs)
  | trans _ _ ih₁ ih₂ => exact (ih₁ hf).trans (ih₂ hf)

end DiceOdds.Distribution
