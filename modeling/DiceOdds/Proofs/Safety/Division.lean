import DiceOdds.Proofs.Counting.Succeeds
import DiceOdds.Proofs.Doubles.Products
import DiceOdds.Evaluation.Split

/-!
# How a division fails

A division divides every value on its left by every value on its right, and fails as soon as one
of these quotients is missing.  It is missing if the divisor is zero, and also if it lies outside
the grid.  Both are reported as a division by zero; sums, differences and products that leave the
grid are reported as an overflow, and a division never is.

## Why the exact quotients come in

Whether a quotient lies on the grid is decided by doubles.  Except for the last `2 ^ 14` hundredths
before its end the exact quotient decides it as well, so the error can be told from the values
alone.
-/

namespace DiceOdds

/-! ## 1. One quotient -/

namespace Outcome

theorem div?_zero (a : Outcome) : a.div? 0 = none := if_pos rfl

/-- Far outside the grid there is no quotient. -/
theorem div?_eq_none {a b : Outcome} (hb : b ≠ 0)
    (h : 2 ^ 63 + 2 ^ 14 ≤ |(100 * a.hundredths / b.hundredths : ℚ)|) : a.div? b = none :=
  (nearlyRounded_div? a fun hzero => hb (Outcome.ext hzero)).none h

/-- A quotient is missing only at the end of the grid, or beyond. -/
theorem le_of_div?_eq_none {a b : Outcome} (hb : b ≠ 0) (h : a.div? b = none) :
    2 ^ 63 - 2 ^ 14 ≤ |(100 * a.hundredths / b.hundredths : ℚ)| := by
  by_contra hlt
  obtain ⟨c, hc, -⟩ := (nearlyRounded_div? a fun hzero => hb (Outcome.ext hzero)).near
    (not_le.1 hlt)
  rw [h] at hc
  cases hc

end Outcome

theorem Operation.apply_div_eq_error {part : Unit → String} {a b : Outcome} {e : EvalError} :
    Operation.apply .div part a b = .error e ↔ a.div? b = none ∧ e = .divisionByZero (part ()) := by
  unfold Operation.apply
  dsimp only
  cases a.div? b with
  | none => simp [eq_comm]
  | some c => simp

theorem Operation.succeeds_apply_div {part : Unit → String} {a b : Outcome} :
    Succeeds (Operation.apply .div part a b) ↔ a.div? b ≠ none := by
  unfold Operation.apply
  dsimp only
  cases a.div? b with
  | none => simp [Succeeds]
  | some c => simp

/-! ## 2. All quotients -/

variable {W : Type}

namespace Distribution

/-- The outcomes that occur. -/
def support (d : Distribution W) : List Outcome := d.toList.map Prod.fst

/-- Some quotient by a divisor other than zero lies outside the grid. -/
def LeavesGrid (x y : Distribution W) : Prop :=
  ∃ a ∈ x.support, ∃ b ∈ y.support, b ≠ 0 ∧ a.div? b = none

theorem leavesGrid_of_le {x y : Distribution W} {a b : Outcome} (ha : a ∈ x.support)
    (hb : b ∈ y.support) (hne : b ≠ 0)
    (h : 2 ^ 63 + 2 ^ 14 ≤ |(100 * a.hundredths / b.hundredths : ℚ)|) : x.LeavesGrid y :=
  ⟨a, ha, b, hb, hne, Outcome.div?_eq_none hne h⟩

theorem LeavesGrid.exists_le {x y : Distribution W} (h : x.LeavesGrid y) :
    ∃ a ∈ x.support, ∃ b ∈ y.support,
      b ≠ 0 ∧ 2 ^ 63 - 2 ^ 14 ≤ |(100 * a.hundredths / b.hundredths : ℚ)| := by
  obtain ⟨a, ha, b, hb, hne, hnone⟩ := h
  exact ⟨a, ha, b, hb, hne, Outcome.le_of_div?_eq_none hne hnone⟩

/-- A quotient is missing for one of two reasons. -/
theorem exists_div?_eq_none {x y : Distribution W} (hx : x.toList ≠ []) :
    (∃ a ∈ x.support, ∃ b ∈ y.support, a.div? b = none) ↔ 0 ∈ y.support ∨ x.LeavesGrid y := by
  constructor
  · rintro ⟨a, ha, b, hb, hnone⟩
    rcases eq_or_ne b 0 with rfl | hne
    · exact .inl hb
    · exact .inr ⟨a, ha, b, hb, hne, hnone⟩
  · rintro (hzero | ⟨a, ha, b, hb, -, hnone⟩)
    · obtain ⟨p, hp⟩ := List.exists_mem_of_ne_nil _ hx
      exact ⟨p.1, List.mem_map_of_mem hp, 0, hzero, Outcome.div?_zero p.1⟩
    · exact ⟨a, ha, b, hb, hnone⟩

variable [Weight W]

theorem succeeds_combine_div {x y : Distribution W} {part : Unit → String} :
    Succeeds (x.combine y (Operation.apply .div part))
      ↔ ¬ ∃ a ∈ x.support, ∃ b ∈ y.support, a.div? b = none := by
  rw [succeeds_combine_toList]
  simp only [support, List.mem_map, Operation.succeeds_apply_div]
  push Not
  exact ⟨fun h a ⟨p, hp, ha⟩ b ⟨q, hq, hb⟩ => ha ▸ hb ▸ h p hp q hq,
    fun h p hp q hq => h p.1 ⟨p, hp, rfl⟩ q.1 ⟨q, hq, rfl⟩⟩

/-- **Dividing fails in one way only.** -/
theorem combine_div_eq_error {x y : Distribution W} {part : Unit → String} {e : EvalError} :
    x.combine y (Operation.apply .div part) = .error e
      ↔ (∃ a ∈ x.support, ∃ b ∈ y.support, a.div? b = none) ∧ e = .divisionByZero (part ()) := by
  have hblame {e' : EvalError} (h : x.combine y (Operation.apply .div part) = .error e') :
      (∃ a ∈ x.support, ∃ b ∈ y.support, a.div? b = none) ∧ e' = .divisionByZero (part ()) := by
    obtain ⟨a, ha, b, hb, hop⟩ := exists_error_of_combine h
    obtain ⟨hnone, he⟩ := Operation.apply_div_eq_error.1 hop
    exact ⟨⟨a, ha, b, hb, hnone⟩, he⟩
  refine ⟨hblame, ?_⟩
  rintro ⟨hmissing, rfl⟩
  cases h : x.combine y (Operation.apply .div part) with
  | error e' => rw [(hblame h).2]
  | ok d => exact absurd hmissing (succeeds_combine_div.1 ⟨d, h⟩)

end Distribution

/-! ## 3. Division nodes -/

namespace Node

variable [Weight W] {s : Settings W} {ctx : Context} {left right : Node} {x y : Evaluation W}

/-- A division node divides the values of its sides, and then looks at the weights. -/
theorem evaluate_div_eq (hl : left.evaluate s ctx = .ok x) (hr : right.evaluate s ctx = .ok y) :
    (binary .div left right).evaluate s ctx = do
      let values ← x.distribution.combine y.distribution
        (Operation.apply .div fun _ => (binary .div left right).text)
      let checked ← orBlame values.checkWeights fun _ => (binary .div left right).text
      return .plain checked := by
  have hcombine (part : Unit → String) : Evaluation.combine .div x y part
      = x.distribution.combine y.distribution (Operation.apply .div part)
        >>= fun values => orBlame values.checkWeights part := by
    cases x <;> cases y <;> rfl
  rw [evaluate] at hl hr
  rw [evaluate, walk, ctx.pinnedValue?_of_definingId? rfl]
  dsimp only
  rw [hl, hr]
  change (Evaluation.combine .div x y fun _ => (binary .div left right).text)
    >>= (fun d => pure (Evaluation.plain d)) = _
  rw [hcombine, bind_assoc]

/-- A division node fails on a missing quotient, and otherwise only on its weights. -/
theorem evaluate_div_cases (hl : left.evaluate s ctx = .ok x) (hr : right.evaluate s ctx = .ok y)
    (hx : x.distribution.toList ≠ []) :
    ((0 ∈ y.distribution.support ∨ x.distribution.LeavesGrid y.distribution)
        ∧ (binary .div left right).evaluate s ctx
          = .error (.divisionByZero (binary .div left right).text))
      ∨ (¬ (0 ∈ y.distribution.support ∨ x.distribution.LeavesGrid y.distribution)
        ∧ ((∃ d, (binary .div left right).evaluate s ctx = .ok (.plain d))
          ∨ (binary .div left right).evaluate s ctx
            = .error (.weightOverflow (binary .div left right).text))) := by
  rw [evaluate_div_eq hl hr, ← Distribution.exists_div?_eq_none hx]
  cases hd : x.distribution.combine y.distribution
    (Operation.apply .div fun _ => (binary .div left right).text) with
  | error e =>
    obtain ⟨hmissing, rfl⟩ := Distribution.combine_div_eq_error.1 hd
    exact .inl ⟨hmissing, rfl⟩
  | ok d =>
    refine .inr ⟨Distribution.succeeds_combine_div.1 ⟨d, hd⟩, ?_⟩
    by_cases hfinite : Weight.isFinite d.total = true
    · have hcheck : d.checkWeights = .ok d := if_pos hfinite
      refine .inl ⟨d, ?_⟩
      change (orBlame d.checkWeights _ >>= _) = _
      rw [hcheck]
      rfl
    · have hcheck : d.checkWeights = .error .weight := if_neg hfinite
      refine .inr ?_
      change (orBlame d.checkWeights _ >>= _) = _
      rw [hcheck]
      rfl

/-- **How a division ends.**  It fails with a division by zero if a divisor is zero or a quotient
lies outside the grid, never with an overflow, and otherwise only if the weights are too large. -/
theorem evaluate_div_fails (hl : left.evaluate s ctx = .ok x) (hr : right.evaluate s ctx = .ok y)
    (hx : x.distribution.toList ≠ []) :
    ((binary .div left right).evaluate s ctx
          = .error (.divisionByZero (binary .div left right).text)
        ↔ 0 ∈ y.distribution.support ∨ x.distribution.LeavesGrid y.distribution)
      ∧ (∀ part, (binary .div left right).evaluate s ctx ≠ .error (.overflow part))
      ∧ (0 ∈ y.distribution.support → ∀ e, (binary .div left right).evaluate s ctx ≠ .ok e)
      ∧ (0 ∉ y.distribution.support → ¬ x.distribution.LeavesGrid y.distribution →
          (∃ d, (binary .div left right).evaluate s ctx = .ok (.plain d))
            ∨ (binary .div left right).evaluate s ctx
              = .error (.weightOverflow (binary .div left right).text))
      ∧ (∀ a ∈ x.distribution.support, ∀ b ∈ y.distribution.support, b ≠ 0 →
          2 ^ 63 + 2 ^ 14 ≤ |(100 * a.hundredths / b.hundredths : ℚ)| →
          x.distribution.LeavesGrid y.distribution)
      ∧ (x.distribution.LeavesGrid y.distribution →
          ∃ a ∈ x.distribution.support, ∃ b ∈ y.distribution.support,
            b ≠ 0 ∧ 2 ^ 63 - 2 ^ 14 ≤ |(100 * a.hundredths / b.hundredths : ℚ)|) := by
  have hfar : ∀ a ∈ x.distribution.support, ∀ b ∈ y.distribution.support, b ≠ 0 →
      2 ^ 63 + 2 ^ 14 ≤ |(100 * a.hundredths / b.hundredths : ℚ)| →
      x.distribution.LeavesGrid y.distribution :=
    fun a ha b hb => Distribution.leavesGrid_of_le ha hb
  rcases evaluate_div_cases hl hr hx with ⟨hmissing, heq⟩ | ⟨hnone, ⟨d, heq⟩ | heq⟩ <;> rw [heq]
  · exact ⟨iff_of_true rfl hmissing, nofun, fun _ => nofun,
      fun hzero hgrid => absurd hmissing (not_or.2 ⟨hzero, hgrid⟩), hfar,
      Distribution.LeavesGrid.exists_le⟩
  · exact ⟨iff_of_false nofun hnone, nofun, fun hzero => absurd (.inl hzero) hnone,
      fun _ _ => .inl ⟨d, rfl⟩, hfar, Distribution.LeavesGrid.exists_le⟩
  · exact ⟨iff_of_false nofun hnone, nofun, fun _ => nofun, fun _ _ => .inr rfl, hfar,
      Distribution.LeavesGrid.exists_le⟩

/-- `(d2-1)`, which is zero for one of two rolls. -/
def dieLessOne : Node := group (binary .sub (dice ⟨1, 2, false⟩ none none) (number 1.0))

theorem evaluate_div_fails_dieLessOne :
    ∃ x y : Evaluation ℚ, (number 5.0).evaluate {} {} = .ok x ∧ dieLessOne.evaluate {} {} = .ok y
      ∧ x.distribution.toList ≠ [] ∧ 0 ∈ y.distribution.support
      ∧ (binary .div (number 5.0) dieLessOne).evaluate ({} : Settings ℚ) {}
        = .error (.divisionByZero "5/(d2-1)") := by
  have hleft : (((number 5.0).evaluate ({} : Settings ℚ) {}).toOption.bind
      fun e => some e.distribution.toList).any (!·.isEmpty) = true := by decide +kernel
  have hright : ((dieLessOne.evaluate ({} : Settings ℚ) {}).toOption.bind
      fun e => some e.distribution.support).any (0 ∈ ·) = true := by decide +kernel
  have htext : (binary .div (number 5.0) dieLessOne).text = "5/(d2-1)" := by decide +kernel
  obtain ⟨x, values, hx, ⟨⟩, hvalues⟩ := exists_of_any hleft
  obtain ⟨y, support, hy, ⟨⟩, hzero⟩ := exists_of_any hright
  have hne : x.distribution.toList ≠ [] := by
    intro hnil
    rw [hnil] at hvalues
    cases hvalues
  have hmem := of_decide_eq_true hzero
  exact ⟨x, y, hx, hy, hne, hmem, htext ▸ (evaluate_div_fails hx hy hne).1.2 (.inl hmem)⟩

/-- **No zero to divide by.**  The quotient `10000000000000000/0.01` leaves the grid, and is
reported as a division by zero. -/
theorem evaluate_div_blamesZero :
    ∃ x y : Evaluation ℚ, (number 1e16).evaluate {} {} = .ok x
      ∧ (number 0.01).evaluate {} {} = .ok y
      ∧ x.distribution.support = [.nearHundredths (10 ^ 18)]
      ∧ y.distribution.support = [.nearHundredths 1]
      ∧ (Outcome.nearHundredths (10 ^ 18)).div? (.nearHundredths 1) = none
      ∧ (binary .div (number 1e16) (number 0.01)).evaluate ({} : Settings ℚ) {}
        = .error (.divisionByZero "10000000000000000/0.01") := by
  have hleft : (((number 1e16).evaluate ({} : Settings ℚ) {}).toOption.bind
      fun e => some e.distribution.support).any (· = [.nearHundredths (10 ^ 18)]) = true := by
    decide +kernel
  have hright : (((number 0.01).evaluate ({} : Settings ℚ) {}).toOption.bind
      fun e => some e.distribution.support).any (· = [.nearHundredths 1]) = true := by
    decide +kernel
  have hnone : (Outcome.nearHundredths (10 ^ 18)).div? (.nearHundredths 1) = none := by
    decide +kernel
  have htext : (binary .div (number 1e16) (number 0.01)).text = "10000000000000000/0.01" := by
    decide +kernel
  obtain ⟨x, _, hx, ⟨⟩, hleft⟩ := exists_of_any hleft
  obtain ⟨y, _, hy, ⟨⟩, hright⟩ := exists_of_any hright
  have hleft := of_decide_eq_true hleft
  have hright := of_decide_eq_true hright
  have hmissing : ∃ a ∈ x.distribution.support, ∃ b ∈ y.distribution.support, a.div? b = none :=
    ⟨_, hleft ▸ List.mem_singleton_self _, _, hright ▸ List.mem_singleton_self _, hnone⟩
  refine ⟨x, y, hx, hy, hleft, hright, hnone, ?_⟩
  rw [evaluate_div_eq hx hy, Distribution.combine_div_eq_error.2 ⟨hmissing, rfl⟩, htext]
  rfl

end Node

end DiceOdds
