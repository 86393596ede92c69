import DiceOdds.Proofs.Counting.Below
import DiceOdds.Proofs.Counting.Rolled

/-!
# What every result satisfies

Some things hold of all results, in every reading: with dice rolled or fixed, with or without
critical faces.  Stored weights are positive, only comparisons are evaluated to checks, and only
conditionals have branches.

## Why fixed values come first

A node whose value is fixed is that value, whatever else the node is.  Only literals and keeps of
one can be fixed, so this is a case of its own for these two and for no other construct.
-/

namespace DiceOdds

variable {s : Settings ℚ} {split : SplitCheck ℚ} {ctx : Context} {e : Evaluation ℚ}

/-! ## 1. What a successful step has done -/

namespace Node

/-- A node with a fixed value is that value. -/
theorem walk_of_pinnedValue? {W : Type} [Weight W] {s : Settings W} {split : SplitCheck W}
    {node : Node} {value : Except EvalError Outcome} (hvalue : ctx.pinnedValue? node = some value) :
    node.walk s split ctx = value >>= fun v => pure (.plain (.point v 1)) := by
  cases node with
  | function name args =>
    rw [ctx.pinnedValue?_of_definingId? rfl] at hvalue
    cases hvalue
  | _ =>
    rw [walk, hvalue]

theorem walk_eq_ok_of_pinnedValue? {node : Node} {value : Except EvalError Outcome}
    (hvalue : ctx.pinnedValue? node = some value) (h : node.walk s split ctx = .ok e) :
    ∃ v, value = .ok v ∧ e = .plain (.point v 1) := by
  rw [walk_of_pinnedValue? hvalue, bind_eq_ok] at h
  obtain ⟨v, hv, h⟩ := h
  exact ⟨v, hv, (pure_eq_ok.1 h).symm⟩

/-- Where no value is fixed, a reference is another roll of the dice. -/
theorem reference_eq_ok {id : UInt32} {critical : Bool} {x : Distribution ℚ}
    (hctx : ctx.pinned = none) (h : s.reference ctx id critical = .ok x) :
    ∃ d, s.registry.get? id.toNat = some d
      ∧ Distribution.dicePool d.count.toNat d.sides.toNat = .ok x := by
  unfold Settings.reference at h
  rw [hctx] at h
  split at h
  · cases h
  · cases hd : s.registry.get? id.toNat with
    | none => rw [hd] at h; cases h
    | some d =>
      rw [hd] at h
      exact ⟨d, rfl, orBlame_eq_ok.1 h⟩

end Node

theorem Settings.reference_eq_ok {pins : Pins} {id : UInt32} {critical : Bool} {d : Distribution ℚ}
    (hctx : ctx.pinned = some pins) (h : s.reference ctx id critical = .ok d) :
    ∃ v, pins.lookup id.toNat = some v ∧ d = .point v 1 := by
  unfold reference at h
  rw [hctx] at h
  split at h
  · cases h
  · cases hget : s.registry.get? id.toNat with
    | none => rw [hget] at h; cases h
    | some dice =>
      rw [hget] at h
      dsimp only at h
      cases hv : pins.lookup id.toNat with
      | none => rw [hv] at h; cases h
      | some v =>
        rw [hv] at h
        cases h
        exact ⟨v, rfl, rfl⟩

/-! ## 2. Stored weights are positive -/

theorem positive_die {d : Dice} {modifier : Option Modifier} {die : Distribution ℚ}
    (h : s.die ctx d modifier = .ok die) : die.Positive := by
  rcases modifier with _ | ⟨range, limit⟩ | ⟨kind, success, explode, limit⟩
  · cases h
    exact Distribution.positive_ofList _
  · obtain ⟨all, hall, h⟩ := bind_eq_ok.1 h
    rw [← pure_eq_ok.1 h]
    exact (Distribution.positive_run hall).filter _
  · exact Distribution.positive_run h

theorem positive_roll {node : Node} {x : Distribution ℚ} (h : s.roll ctx node = .ok x) :
    x.Positive := by
  obtain ⟨found, -, h⟩ := bind_eq_ok.1 h
  cases found with
  | none =>
    obtain rfl := pure_eq_ok.1 h
    exact Distribution.positive_empty
  | some pair => exact Distribution.positive_sumOfCopies (orBlame_eq_ok.1 h)

theorem positive_reference {id : UInt32} {critical : Bool} {x : Distribution ℚ}
    (h : s.reference ctx id critical = .ok x) : x.Positive := by
  cases hctx : ctx.pinned with
  | none =>
    obtain ⟨d, -, hsum⟩ := Node.reference_eq_ok hctx h
    exact Distribution.positive_sumOfCopies hsum
  | some pins =>
    obtain ⟨v, -, rfl⟩ := Settings.reference_eq_ok hctx h
    exact Distribution.positive_point v

/-- What is found for the single dice of a literal comes from a list of sums. -/
theorem positive_clampEachGivenTotal {die d : Distribution ℚ} {count : ℕ} {name : FunctionName}
    {threshold total : Outcome} (h : die.clampEachGivenTotal count name threshold total = .ok d) :
    d.Positive := by
  unfold Distribution.clampEachGivenTotal at h
  split at h
  · obtain ⟨states, -, h⟩ := bind_eq_ok.1 h
    obtain rfl := Except.ok.inj h
    exact Distribution.positive_ofList _
  · cases h
    exact Distribution.positive_empty

theorem positive_clampEach {name : FunctionName} {target : Node} {bound : Outcome}
    {clamped : Distribution ℚ} (h : s.clampEach ctx name target bound = .ok (some clamped)) :
    clamped.Positive := by
  unfold Settings.clampEach at h
  split at h
  · obtain ⟨pinned, hpinned, h⟩ := bind_eq_ok.1 h
    cases pinned with
    | some given =>
      obtain rfl : given = clamped := Option.some.inj (pure_eq_ok.1 h)
      unfold Settings.clampPinned at hpinned
      split at hpinned
      · cases hpinned
      · obtain ⟨found, -, hpinned⟩ := bind_eq_ok.1 hpinned
        cases found with
        | none => cases pure_eq_ok.1 hpinned
        | some pair =>
          obtain ⟨total, -, hpinned⟩ := bind_eq_ok.1 hpinned
          obtain ⟨sum, hsum, hpinned⟩ := bind_eq_ok.1 hpinned
          obtain rfl := Option.some.inj (pure_eq_ok.1 hpinned)
          exact positive_clampEachGivenTotal (orBlame_eq_ok.1 hsum)
    | none =>
      obtain ⟨found, -, h⟩ := bind_eq_ok.1 h
      cases found with
      | none => cases pure_eq_ok.1 h
      | some pair =>
        obtain ⟨sum, hsum, h⟩ := bind_eq_ok.1 h
        obtain rfl := Option.some.inj (pure_eq_ok.1 h)
        exact Distribution.positive_sumOfCopies (orBlame_eq_ok.1 hsum)
  · cases h

/-- Two values are combined as independent ones, or one of them is scaled by a check. -/
theorem evaluationCombine_eq_ok {operation : Operation} {l r : Evaluation ℚ}
    {part : Unit → String} {d : Distribution ℚ} (h : l.combine operation r part = .ok d) :
    l.distribution.combine r.distribution (operation.apply part) = .ok d
      ∨ (∃ scale : Outcome → Except EvalError Outcome, r.distribution.tryMap scale = .ok d)
      ∨ ∃ scale : Outcome → Except EvalError Outcome, l.distribution.tryMap scale = .ok d := by
  unfold Evaluation.combine at h
  dsimp only at h
  split at h
  · rw [scaleByCheck] at h
    exact .inr (.inl ⟨_, h⟩)
  · rw [scaleByCheck] at h
    exact .inr (.inr ⟨_, h⟩)
  · obtain ⟨values, hvalues, h⟩ := bind_eq_ok.1 h
    obtain rfl : values = d := by simpa using orBlame_eq_ok.1 h
    exact .inl hvalues

theorem positive_evaluationCombine {operation : Operation} {l r : Evaluation ℚ}
    {part : Unit → String} {d : Distribution ℚ} (h : l.combine operation r part = .ok d) :
    d.Positive := by
  rcases evaluationCombine_eq_ok h with h | ⟨_, h⟩ | ⟨_, h⟩
  · exact Distribution.positive_combine h
  · exact Distribution.positive_tryMap h
  · exact Distribution.positive_tryMap h

namespace Node

/-- **Every result has positive weights only.** -/
theorem positive_walk : ∀ (node : Node) {ctx : Context} {e : Evaluation ℚ},
    node.walk s split ctx = .ok e → e.distribution.Positive
  | number value, ctx, e, h => by
    obtain ⟨v, -, rfl⟩ := walk_number_eq_ok h
    exact Distribution.positive_point v
  | dice d id modifier, ctx, e, h => by
    cases hvalue : ctx.pinnedValue? (dice d id modifier) with
    | none =>
      obtain ⟨x, hx, rfl⟩ := walk_dice_eq_ok hvalue h
      exact positive_roll hx
    | some value =>
      obtain ⟨v, -, rfl⟩ := walk_eq_ok_of_pinnedValue? hvalue h
      exact Distribution.positive_point v
  | reference id critical, ctx, e, h => by
    obtain ⟨x, hx, rfl⟩ := walk_reference_eq_ok h
    exact positive_reference hx
  | keep kind count items, ctx, e, h => by
    cases hvalue : ctx.pinnedValue? (keep kind count items) with
    | none =>
      obtain ⟨_, _, d, -, -, hd, rfl⟩ := walk_keep_eq_ok hvalue h
      exact Distribution.positive_keep hd
    | some value =>
      obtain ⟨v, -, rfl⟩ := walk_eq_ok_of_pinnedValue? hvalue h
      exact Distribution.positive_point v
  | comparison relation left right, ctx, e, h => by
    obtain ⟨_, _, check, _, -, -, -, rfl⟩ := walk_comparison_any_eq_ok h
    exact Distribution.positive_bernoulli _ _
  | conditional condition ifTrue ifFalse, ctx, e, h => by
    obtain ⟨check, -, ⟨shares, _, _, _, -, -, -, -, rfl⟩ | ⟨_, _, -, -, -, rfl⟩⟩ :=
      walk_conditional_eq_ok h
    · exact Distribution.positive_rounded _
    · exact Distribution.positive_rounded _
  | binary operation left right, ctx, e, h => by
    obtain ⟨_, _, d, part, -, -, hd, rfl⟩ := walk_binary_eq_ok h
    exact positive_evaluationCombine hd
  | double inner, ctx, e, h => by
    obtain ⟨i, d, hi, rfl, hd⟩ := walk_double_eq_ok h
    split at hd
    · obtain ⟨part, hd⟩ := hd
      exact Distribution.positive_tryMap hd
    · have hpositive := positive_walk inner hi
      rwa [← hd] at hpositive
  | switch normal critical, ctx, e, h => by
    obtain ⟨i, hi, rfl⟩ := walk_switch_eq_ok h
    have hpositive : i.distribution.Positive := by
      split at hi
      · exact positive_walk critical hi
      · exact positive_walk normal hi
    exact hpositive
  | only inner, ctx, e, h => by
    have h := walk_only_eq_ok h
    split at h
    · obtain ⟨i, hi, rfl⟩ := h
      have hpositive := positive_walk inner hi
      exact hpositive
    · subst h
      exact Distribution.positive_point 0
  | function name args, ctx, e, h => by
    obtain ⟨target, threshold, values, bound, clamped?, rfl, -, -, hclamped, h⟩ :=
      walk_function_any_eq_ok h
    cases clamped? with
    | none =>
      obtain ⟨t, -, rfl⟩ := h
      exact Distribution.positive_map _ _
    | some clamped =>
      obtain rfl : e = .plain clamped := h
      exact positive_clampEach hclamped
  | group inner, ctx, e, h => by
    rw [walk_group] at h
    exact positive_walk inner h

/-! ## 3. Kinds of results -/

/-- Whether the node is neither a comparison nor a conditional, and not in parentheses. -/
def isPlain : Node → Bool
  | comparison _ _ _ | conditional _ _ _ | group _ => false
  | _ => true

theorem exists_plain_of_walk {node : Node} (hplain : node.isPlain = true)
    (h : node.walk s split ctx = .ok e) : ∃ d, e = .plain d := by
  cases node with
  | comparison relation left right => cases hplain
  | conditional condition ifTrue ifFalse => cases hplain
  | group inner => cases hplain
  | number value =>
    obtain ⟨v, -, rfl⟩ := walk_number_eq_ok h
    exact ⟨_, rfl⟩
  | dice d id modifier =>
    cases hvalue : ctx.pinnedValue? (dice d id modifier) with
    | none =>
      obtain ⟨x, -, rfl⟩ := walk_dice_eq_ok hvalue h
      exact ⟨x, rfl⟩
    | some value =>
      obtain ⟨v, -, rfl⟩ := walk_eq_ok_of_pinnedValue? hvalue h
      exact ⟨_, rfl⟩
  | reference id critical =>
    obtain ⟨x, -, rfl⟩ := walk_reference_eq_ok h
    exact ⟨x, rfl⟩
  | keep kind count items =>
    cases hvalue : ctx.pinnedValue? (keep kind count items) with
    | none =>
      obtain ⟨_, _, d, -, -, -, rfl⟩ := walk_keep_eq_ok hvalue h
      exact ⟨d, rfl⟩
    | some value =>
      obtain ⟨v, -, rfl⟩ := walk_eq_ok_of_pinnedValue? hvalue h
      exact ⟨_, rfl⟩
  | binary operation left right =>
    obtain ⟨_, _, d, _, -, -, -, rfl⟩ := walk_binary_eq_ok h
    exact ⟨d, rfl⟩
  | double inner =>
    obtain ⟨_, d, -, rfl, -⟩ := walk_double_eq_ok h
    exact ⟨d, rfl⟩
  | switch normal critical =>
    obtain ⟨_, -, rfl⟩ := walk_switch_eq_ok h
    exact ⟨_, rfl⟩
  | only inner =>
    have h := walk_only_eq_ok h
    split at h
    · obtain ⟨_, -, rfl⟩ := h
      exact ⟨_, rfl⟩
    · exact ⟨_, h⟩
  | function name args =>
    obtain ⟨_, _, _, _, clamped?, -, -, -, -, h⟩ := walk_function_any_eq_ok h
    cases clamped? with
    | some clamped => exact ⟨clamped, h⟩
    | none =>
      obtain ⟨_, -, rfl⟩ := h
      exact ⟨_, rfl⟩

/-- Only comparisons are evaluated to checks. -/
theorem exists_compare_of_walk {node : Node} {check : Check ℚ}
    (h : node.walk s split ctx = .ok (.check check)) :
    ∃ relation left right l r full, node.comparison? = some (relation, left, right)
      ∧ left.walk s split ctx = .ok l ∧ right.walk s split ctx = .ok r
      ∧ Check.compare relation l.distribution r.distribution = .ok full
      ∧ if s.rate.isSome && ctx.pinned.isNone && !ctx.restrictCritical then
          ∃ critical, split relation left right ctx full = .ok critical
            ∧ check = { full with critical }
        else check = full := by
  induction node using stripGroups.induct with
  | case1 inner ih =>
    rw [walk_group] at h
    exact ih h
  | case2 node hnode =>
    cases node with
    | comparison relation left right =>
      obtain ⟨l, r, full, hl, hr, hfull, h⟩ := walk_comparison_eq_ok h
      refine ⟨relation, left, right, l, r, full, rfl, hl, hr, hfull, ?_⟩
      simpa only [Evaluation.check.injEq] using h
    | group inner => exact absurd rfl (hnode inner)
    | conditional condition ifTrue ifFalse =>
      obtain ⟨_, -, ⟨_, _, _, _, -, -, -, -, h⟩ | ⟨_, _, -, -, -, h⟩⟩ := walk_conditional_eq_ok h
      · cases h
      · cases h
    | _ =>
      obtain ⟨d, h⟩ := exists_plain_of_walk rfl h
      cases h

theorem isComparison_of_walk {node : Node} {check : Check ℚ}
    (h : node.walk s split ctx = .ok (.check check)) : node.isComparison = true := by
  obtain ⟨relation, left, right, -, -, -, hsides, -⟩ := exists_compare_of_walk h
  rw [isComparison, hsides, Option.isSome_some]

/-- Neither answer of a check has a negative weight. -/
theorem nonneg_of_walk {node : Node} {check : Check ℚ}
    (h : node.walk s split ctx = .ok (.check check)) : 0 ≤ check.success ∧ 0 ≤ check.failure := by
  obtain ⟨relation, left, right, l, r, full, -, hl, hr, hfull, h⟩ := exists_compare_of_walk h
  have hfullweights := Distribution.nonneg_compare (positive_walk left hl).nonneg
    (positive_walk right hr).nonneg hfull
  split at h
  · obtain ⟨critical, -, rfl⟩ := h
    exact hfullweights
  · rw [h]
    exact hfullweights

/-- Where values are fixed or critical faces left out, no check is split. -/
theorem unsplit_of_walk {node : Node} {check : Check ℚ}
    (h : node.walk s split ctx = .ok (.check check))
    (hoff : (s.rate.isSome && ctx.pinned.isNone && !ctx.restrictCritical) = false) :
    check.critical = none := by
  obtain ⟨relation, left, right, l, r, full, -, -, -, hfull, h⟩ := exists_compare_of_walk h
  rw [hoff, if_neg Bool.false_ne_true] at h
  rw [h]
  exact Check.unsplit_compare hfull

theorem unsplit_of_pinned {node : Node} {check : Check ℚ} (hctx : ctx.pinned.isSome = true)
    (h : node.walk s split ctx = .ok (.check check)) : check.critical = none := by
  refine unsplit_of_walk h ?_
  rw [Option.isNone_eq_false_iff.2 hctx, Bool.and_false, Bool.false_and]

/-- Where values are fixed, the two branches of a conditional are evaluated as they are. -/
theorem walk_conditional_pinned {condition ifTrue ifFalse : Node} (hctx : ctx.pinned.isSome = true)
    (h : (conditional condition ifTrue ifFalse).walk s split ctx = .ok e) :
    ∃ check yes no, condition.walk s split ctx = .ok (.check check)
      ∧ ifTrue.walk s split ctx = .ok yes ∧ ifFalse.walk s split ctx = .ok no
      ∧ e = .conditional (.ofBranches s.mixing condition.text check yes no) := by
  obtain ⟨check, hcheck, ⟨shares, _, _, _, hsplit, -⟩ | ⟨yes, no, -, hy, hn, he⟩⟩ :=
    walk_conditional_eq_ok h
  · rw [unsplit_of_pinned hctx hcheck] at hsplit
    cases hsplit
  · exact ⟨check, yes, no, hcheck, hy, hn, he⟩

end Node

end DiceOdds
