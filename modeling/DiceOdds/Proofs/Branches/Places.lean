import DiceOdds.Proofs.Branches.Tree
import DiceOdds.Evaluation.Reuse

/-!
# Places in the branches

Where values are fixed no check is split, so the branches of a node and the conditions in them are
the same in every such reading.  Their places, the paths with the texts of the conditions, can be
read off the tree alone.
-/

namespace DiceOdds

/-! ## 1. The places of a node -/

deriving instance DecidableEq for NestedKey

/-- The place seen from one level further up. -/
def NestedKey.under (key : NestedKey) (step : BranchStep) : NestedKey :=
  ⟨step :: key.path, key.condition⟩

/-- The place of a condition. -/
def NestedCondition.key (entry : NestedCondition ℚ) : NestedKey := ⟨entry.path, entry.condition⟩

theorem NestedKey.under_injective {step step' : BranchStep} {key other : NestedKey}
    (h : key.under step = other.under step') : step = step' ∧ key = other := by
  obtain ⟨path, condition⟩ := key
  obtain ⟨path', condition'⟩ := other
  rw [under, under, NestedKey.mk.injEq, List.cons.injEq] at h
  obtain ⟨⟨rfl, rfl⟩, rfl⟩ := h
  exact ⟨rfl, rfl⟩

namespace Node

/-- The places of the conditions in the branches of a node where no check is split. -/
def places : Node → List NestedKey
  | conditional condition ifTrue ifFalse => ⟨[], condition.text⟩ ::
      (ifTrue.places.map (·.under .true) ++ ifFalse.places.map (·.under .false))
  | group inner => inner.places
  | _ => []

theorem places_of_leaf {node : Node} (h : node.hasBranches = false) : node.places = [] := by
  cases node with
  | conditional condition ifTrue ifFalse => cases h
  | group inner => cases h
  | _ => rfl

/-- What is there besides the root lies in one of two branches. -/
theorem mem_places_conditional {condition ifTrue ifFalse : Node} {place : NestedKey} :
    place ∈ (conditional condition ifTrue ifFalse).places ↔ place = ⟨[], condition.text⟩
      ∨ (∃ inner ∈ ifTrue.places, place = inner.under .true)
      ∨ ∃ inner ∈ ifFalse.places, place = inner.under .false := by
  simp only [places, List.mem_cons, List.mem_append, List.mem_map, eq_comm]

/-- No path occurs twice. -/
theorem eq_of_mem_places {node : Node} {place other : NestedKey} (hp : place ∈ node.places)
    (ho : other ∈ node.places) (hpath : place.path = other.path) : place = other := by
  induction node using branch_induction generalizing place other with
  | leaf node hleaf =>
    rw [places_of_leaf hleaf] at hp
    cases hp
  | group inner ih => exact ih hp ho hpath
  | conditional condition ifTrue ifFalse iht ihf =>
    rcases mem_places_conditional.1 hp with rfl | ⟨inner, hi, rfl⟩ | ⟨inner, hi, rfl⟩ <;>
      rcases mem_places_conditional.1 ho with rfl | ⟨inner', hi', rfl⟩ | ⟨inner', hi', rfl⟩ <;>
      simp only [NestedKey.under, reduceCtorEq, List.cons.injEq, true_and, false_and] at hpath
    · rfl
    · rw [iht hi hi' hpath]
    · rw [ihf hi hi' hpath]

/-- Every place but the root lies behind another one, on one side of it. -/
theorem parent_of_mem_places {node : Node} {place : NestedKey} (h : place ∈ node.places)
    {path : List BranchStep} {step : BranchStep} (hpath : place.path = path ++ [step]) :
    (∃ parent ∈ node.places, parent.path = path) ∧ (step = .true ∨ step = .false) := by
  induction node using branch_induction generalizing place path with
  | leaf node hleaf =>
    rw [places_of_leaf hleaf] at h
    cases h
  | group inner ih => exact ih h hpath
  | conditional condition ifTrue ifFalse iht ihf =>
    have hroot : (⟨[], condition.text⟩ : NestedKey)
        ∈ (conditional condition ifTrue ifFalse).places := mem_places_conditional.2 (.inl rfl)
    rcases mem_places_conditional.1 h with rfl | ⟨inner, hi, rfl⟩ | ⟨inner, hi, rfl⟩
    · exact absurd hpath.symm (List.append_ne_nil_of_right_ne_nil _ (List.cons_ne_nil _ _))
    · rcases List.cons_eq_append_iff.1 hpath with ⟨rfl, hone⟩ | ⟨rest, rfl, hrest⟩
      · exact ⟨⟨_, hroot, rfl⟩, .inl (List.cons.inj hone).1⟩
      · obtain ⟨⟨parent, hparent, rfl⟩, hstep⟩ := iht hi hrest
        exact ⟨⟨_, mem_places_conditional.2 (.inr (.inl ⟨parent, hparent, rfl⟩)), rfl⟩, hstep⟩
    · rcases List.cons_eq_append_iff.1 hpath with ⟨rfl, hone⟩ | ⟨rest, rfl, hrest⟩
      · exact ⟨⟨_, hroot, rfl⟩, .inr (List.cons.inj hone).1⟩
      · obtain ⟨⟨parent, hparent, rfl⟩, hstep⟩ := ihf hi hrest
        exact ⟨⟨_, mem_places_conditional.2 (.inr (.inr ⟨parent, hparent, rfl⟩)), rfl⟩, hstep⟩

/-! ## 2. Evaluations with fixed values -/

variable {s : Settings ℚ} {split : SplitCheck ℚ} {ctx : Context} {e : Evaluation ℚ}

/-- **With fixed values, the conditions are those of the places**, in the same order. -/
theorem keys_walk (hctx : ctx.pinned.isSome = true) {node : Node}
    (h : node.walk s split ctx = .ok e) : e.nested.map NestedCondition.key = node.places := by
  induction node using branch_induction generalizing e with
  | leaf node hleaf =>
    rw [Evaluation.nested_eq_nil (not_isConditional_of_walk hleaf h), places_of_leaf hleaf,
      List.map_nil]
  | group inner ih =>
    rw [walk_group] at h
    exact ih h
  | conditional condition ifTrue ifFalse iht ihf =>
    obtain ⟨check, yes, no, -, hy, hn, rfl⟩ := walk_conditional_pinned hctx h
    have hunder : ∀ (branch : Evaluation ℚ) (step : BranchStep) (reach : ℚ),
        (branch.nestedUnder step reach).map NestedCondition.key
          = (branch.nested.map NestedCondition.key).map (·.under step) := by
      intro branch step reach
      rw [Evaluation.nestedUnder, List.map_map, List.map_map]
      rfl
    rw [Evaluation.nested, ConditionalResult.ofBranches, List.map_cons, List.map_append, hunder,
      hunder, iht hy, ihf hn]
    rfl

/-- With fixed values, the conditions are a tree in which whatever is not a success is a failure. -/
theorem tree_pinned (hctx : ctx.pinned.isSome = true) {node : Node}
    (h : node.walk s split ctx = .ok e) : e.nested = []
      ∨ ProbabilityTree NestedCondition.twoWayProbability? e.nested := by
  cases he : e.isConditional with
  | false => exact .inl (Evaluation.nested_eq_nil he)
  | true =>
    refine .inr (tree_walk (fun _ _ _ => rfl) node h (fun check hmeets => ?_) he)
    clear h he
    induction hmeets with
    | condition hcheck => exact ruleFits_twoWayProbability? (unsplit_of_pinned hctx hcheck)
    | ifTrue _ _ _ ih => exact ih hctx
    | hit _ _ _ _ ih => exact ih hctx
    | ifFalse _ ih => exact ih hctx
    | group _ ih => exact ih hctx

/-- The probability of a condition that is not negative in either answer. -/
theorem successProbability_mem {check : Check ℚ} (hs : 0 ≤ check.success) (hf : 0 ≤ check.failure) :
    0 ≤ check.successProbability ∧ check.successProbability ≤ 1 := by
  have htotal : check.total = check.success + check.failure := rfl
  rw [Check.successProbability, Check.share_eq]
  exact ⟨div_nonneg hs (by linarith), div_le_one_of_le₀ (by linarith) (by linarith)⟩

/-- With fixed values, all probabilities lie between `0` and `1`. -/
theorem bounds_pinned (hctx : ctx.pinned.isSome = true) {node : Node}
    (h : node.walk s split ctx = .ok e) : ∀ entry ∈ e.nested, 0 ≤ entry.parentProbability
      ∧ 0 ≤ entry.successProbability ∧ entry.successProbability ≤ 1 := by
  induction node using branch_induction generalizing e with
  | leaf node hleaf =>
    rw [Evaluation.nested_eq_nil (not_isConditional_of_walk hleaf h)]
    exact List.forall_mem_nil _
  | group inner ih =>
    rw [walk_group] at h
    exact ih h
  | conditional condition ifTrue ifFalse iht ihf =>
    obtain ⟨check, yes, no, hcheck, hy, hn, rfl⟩ := walk_conditional_pinned hctx h
    obtain ⟨hp, hp1⟩ := successProbability_mem (nonneg_of_walk hcheck).1 (nonneg_of_walk hcheck).2
    rw [Evaluation.nested, ConditionalResult.ofBranches]
    intro entry hentry
    rcases List.mem_cons.1 hentry with rfl | hentry
    · exact ⟨zero_le_one, hp, hp1⟩
    rcases List.mem_append.1 hentry with hentry | hentry
    · obtain ⟨inner, hinner, rfl⟩ := List.mem_map.1 hentry
      obtain ⟨hreach, hbounds⟩ := iht hy inner hinner
      exact ⟨mul_nonneg hreach hp, hbounds⟩
    · obtain ⟨inner, hinner, rfl⟩ := List.mem_map.1 hentry
      obtain ⟨hreach, hbounds⟩ := ihf hn inner hinner
      exact ⟨mul_nonneg hreach (sub_nonneg.2 hp1), hbounds⟩

end Node

end DiceOdds
