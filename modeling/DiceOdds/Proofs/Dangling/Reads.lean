import DiceOdds.Proofs.Safety.Progress
import DiceOdds.Report

/-!
# Where an evaluation looks

A walk evaluates all parts of a node, apart from those that belong to the other reading: on a
critical hit the first part of `|a|b|` is not looked at, and otherwise neither are the second part
and what stands in `[e]`.  A reference that is looked at has to name dice of the registry.

## One step at a time

`Node.partsRead` lists the parts of one node that a walk looks at.  A walk that succeeds has
succeeded for each of them (`Node.walk_partsRead`), unless it takes the dice of a literal directly,
which refers to nothing.  `Node.Reads` follows these steps down to any depth.
-/

namespace DiceOdds

variable {W : Type} [Weight W] {s : Settings W} {split : SplitCheck W} {ctx : Context}

/-! ## 1. Parts that are looked at -/

namespace Node

/-- The parts of a node that are evaluated, on a critical hit or not. -/
def partsRead (critical : Bool) : Node → List Node
  | switch a b => if critical then [b] else [a]
  | only inner => if critical then [inner] else []
  | node => node.parts

/-- The second node is a part of the first one that is evaluated with it. -/
inductive Reads (critical : Bool) : Node → Node → Prop where
  | self (node : Node) : Reads critical node node
  | part {node part n : Node} (hpart : part ∈ node.partsRead critical) (h : Reads critical part n) :
      Reads critical node n

theorem partsRead_subset (critical : Bool) (node : Node) : node.partsRead critical ⊆ node.parts := by
  intro part hpart
  cases node with
  | switch a b =>
    rw [partsRead] at hpart
    split at hpart <;> simp_all [parts]
  | only inner =>
    rw [partsRead] at hpart
    split at hpart <;> simp_all [parts]
  | _ => exact hpart

theorem Reads.mem_subterms {critical : Bool} {node n : Node} (h : node.Reads critical n) :
    n ∈ node.subterms := by
  induction h with
  | self node => exact mem_subterms_self node
  | part hpart _ ih => exact subterms_subset_of_mem_parts (partsRead_subset _ _ hpart) ih

theorem hasReference_of_mem {node : Node} {id : UInt32} {mark : Bool}
    (h : reference id mark ∈ node.subterms) : node.hasReference = true :=
  List.any_eq_true.2 ⟨_, h, rfl⟩

/-! ## 2. One step of a walk -/

/-- Dice that are taken directly refer to nothing. -/
theorem hasReference_of_die? {node : Node} {found : Distribution W × ℕ}
    (h : node.die? s ctx = .ok (some found)) : node.hasReference = false := by
  induction node using stripGroups.induct with
  | case1 inner ih =>
    have := ih h
    simpa [hasReference, subterms] using this
  | case2 node hnode =>
    cases node with
    | group inner => exact absurd rfl (hnode inner)
    | dice d id modifier => rfl
    | _ => cases h

/-- A node whose value is fixed is made of dice alone. -/
theorem hasReference_of_pinnedValue? {node : Node} {value : Except EvalError Outcome}
    (h : ctx.pinnedValue? node = some value) : node.hasReference = false := by
  have hid : ∃ id, node.definingId? = some id := by
    unfold Context.pinnedValue? at h
    split at h
    · exact ⟨_, ‹_›⟩
    · cases h
  obtain ⟨id, hid⟩ := hid
  cases node with
  | dice d i modifier => rfl
  | keep kind count items =>
    unfold definingId? at hid
    split at hid
    · next item heq =>
      rw [(keep.inj heq).2.2]
      cases item with
      | dice d i modifier => rfl
      | _ => cases hid
    · cases hid
  | _ => cases hid

theorem hasReference_of_clampEach {name : FunctionName} {target : Node} {threshold : Outcome}
    {clamped : Distribution W} (h : s.clampEach ctx name target threshold = .ok (some clamped)) :
    target.hasReference = false := by
  unfold Settings.clampEach at h
  split at h
  · obtain ⟨pinned?, hpinned, h⟩ := bind_eq_ok.1 h
    cases pinned? with
    | some pinned =>
      unfold Settings.clampPinned at hpinned
      split at hpinned
      · cases hpinned
      · next hvalue => exact hasReference_of_pinnedValue? hvalue
    | none =>
      obtain ⟨found, hfound, h⟩ := bind_eq_ok.1 h
      cases found with
      | none => cases h
      | some found => exact hasReference_of_die? hfound
  · cases h

theorem hasReference_of_onlyDie? {items : List Node} {found : Distribution W × ℕ}
    (h : onlyDie? s ctx items = .ok (some found)) {item : Node} (hitem : item ∈ items) :
    item.hasReference = false := by
  match items, h with
  | [single], h =>
    obtain rfl : item = single := List.mem_singleton.1 hitem
    exact hasReference_of_die? h

/-- All items of a list are evaluated. -/
theorem exists_walk_of_walkAll {nodes : List Node} {ds : List (Distribution W)}
    (h : walkAll s split nodes ctx = .ok ds) {node : Node} (hnode : node ∈ nodes) :
    ∃ e, node.walk s split ctx = .ok e := by
  induction nodes generalizing ds with
  | nil => cases hnode
  | cons first rest ih =>
    rw [walkAll] at h
    obtain ⟨e, he, h⟩ := bind_eq_ok.1 h
    obtain ⟨others, hothers, -⟩ := bind_eq_ok.1 h
    rcases List.mem_cons.1 hnode with rfl | hnode
    · exact ⟨e, he⟩
    · exact ih hothers hnode

/-- A part that is evaluated in the reading of the whole, or dice that are taken directly. -/
def LookedAt (s : Settings W) (split : SplitCheck W) (ctx : Context) (part : Node) : Prop :=
  part.hasReference = false
    ∨ ∃ ctx' e', ctx'.criticalBranch = ctx.criticalBranch ∧ part.walk s split ctx' = .ok e'

theorem LookedAt.of_walk {part : Node} {e : Evaluation W} (h : part.walk s split ctx = .ok e) :
    part.LookedAt s split ctx := .inr ⟨ctx, e, rfl, h⟩

variable {part : Node} {e : Evaluation W}

/-- A keep looks at all of its items. -/
theorem lookedAt_of_keep {kind : KeepKind} {count : UInt32} {items : List Node}
    (hpinned : ctx.pinnedValue? (keep kind count items) = none)
    (h : (keep kind count items).walk s split ctx = .ok e) (hpart : part ∈ items) :
    part.LookedAt s split ctx := by
  obtain ⟨only?, values, _, honly, hvalues, -⟩ := walk_keep_eq_ok hpinned h
  cases only? with
  | some only => exact .inl (hasReference_of_onlyDie? honly hpart)
  | none =>
    obtain ⟨e', he'⟩ := exists_walk_of_walkAll hvalues hpart
    exact .of_walk he'

/-- A function looks at its threshold and at the values that it limits. -/
theorem lookedAt_of_function {name : FunctionName} {args : List Node}
    (h : (function name args).walk s split ctx = .ok e) (hpart : part ∈ args) :
    part.LookedAt s split ctx := by
  obtain ⟨target, threshold, _, _, clamped?, rfl, hvalues, -, hclamped, h⟩ :=
    walk_function_any_eq_ok h
  rcases List.mem_pair.1 hpart with rfl | rfl
  · cases clamped? with
    | some clamped => exact .inl (hasReference_of_clampEach hclamped)
    | none =>
      obtain ⟨t, ht, -⟩ := h
      exact .of_walk ht
  · exact .of_walk hvalues

/-- A conditional looks at its condition and at both of its branches, the first one perhaps in both
readings and so also in the one that is asked for. -/
theorem lookedAt_of_conditional {condition ifTrue ifFalse : Node}
    (h : (conditional condition ifTrue ifFalse).walk s split ctx = .ok e)
    (hpart : part ∈ [condition, ifTrue, ifFalse]) : part.LookedAt s split ctx := by
  simp only [List.mem_cons, List.not_mem_nil, or_false] at hpart
  obtain ⟨check, hc, ⟨_, normal, critical, miss, -, hnormal, hcritical, hmiss, -⟩
    | ⟨yes, no, -, hyes, hno, -⟩⟩ := walk_conditional_eq_ok h
  · rcases hpart with rfl | rfl | rfl
    · exact .of_walk hc
    · cases hb : ctx.criticalBranch with
      | false => exact .inr ⟨_, normal, hb.symm, hnormal⟩
      | true => exact .inr ⟨_, critical, hb.symm, hcritical⟩
    · exact .of_walk hmiss
  · rcases hpart with rfl | rfl | rfl
    · exact .of_walk hc
    · exact .of_walk hyes
    · exact .of_walk hno

/-- Of two readings, the one that is asked for is looked at. -/
theorem lookedAt_of_switch {normal critical : Node}
    (h : (switch normal critical).walk s split ctx = .ok e)
    (hpart : part ∈ (switch normal critical).partsRead ctx.criticalBranch) :
    part.LookedAt s split ctx := by
  obtain ⟨i, hi, -⟩ := walk_switch_eq_ok h
  rw [partsRead] at hpart
  split at hi
  · next hcritical =>
    rw [if_pos hcritical] at hpart
    obtain rfl : part = critical := List.mem_singleton.1 hpart
    exact .of_walk hi
  · next hnormal =>
    rw [if_neg hnormal] at hpart
    obtain rfl : part = normal := List.mem_singleton.1 hpart
    exact .of_walk hi

/-- What counts only on a critical hit is looked at only then. -/
theorem lookedAt_of_only {inner : Node} (h : (only inner).walk s split ctx = .ok e)
    (hpart : part ∈ (only inner).partsRead ctx.criticalBranch) : part.LookedAt s split ctx := by
  have h := walk_only_eq_ok h
  rw [partsRead] at hpart
  split at h
  · next hcritical =>
    obtain ⟨i, hi, -⟩ := h
    rw [if_pos hcritical] at hpart
    obtain rfl : part = inner := List.mem_singleton.1 hpart
    exact .of_walk hi
  · next hnormal =>
    rw [if_neg hnormal] at hpart
    cases hpart

/-- **A walk that succeeds has looked at every part that it reads.** -/
theorem walk_partsRead {node : Node} (h : node.walk s split ctx = .ok e)
    (hpart : part ∈ node.partsRead ctx.criticalBranch) : part.LookedAt s split ctx := by
  have hmem : part ∈ node.parts := partsRead_subset _ _ hpart
  cases hpinned : ctx.pinnedValue? node with
  | some value =>
    exact .inl (hasReference_of_mem_parts (hasReference_of_pinnedValue? hpinned) hmem)
  | none =>
  cases node with
  | number | dice | reference => cases hmem
  | keep kind count items => exact lookedAt_of_keep hpinned h hmem
  | conditional condition ifTrue ifFalse => exact lookedAt_of_conditional h hmem
  | function name args => exact lookedAt_of_function h hmem
  | switch normal critical => exact lookedAt_of_switch h hpart
  | only inner => exact lookedAt_of_only h hpart
  | comparison relation left right =>
    obtain ⟨_, _, _, hl, hr, -⟩ := walk_comparison_eq_ok h
    rcases List.mem_pair.1 hmem with rfl | rfl
    · exact .of_walk hl
    · exact .of_walk hr
  | binary operation left right =>
    obtain ⟨_, _, _, _, hl, hr, -⟩ := walk_binary_eq_ok h
    rcases List.mem_pair.1 hmem with rfl | rfl
    · exact .of_walk hl
    · exact .of_walk hr
  | double inner =>
    obtain ⟨i, _, hi, -⟩ := walk_double_eq_ok h
    obtain rfl : part = inner := List.mem_singleton.1 hmem
    exact .of_walk hi
  | group inner =>
    rw [walk_group] at h
    obtain rfl : part = inner := List.mem_singleton.1 hmem
    exact .of_walk h

/-! ## 3. A whole walk -/

theorem registered_of_reference {id : UInt32} {mark : Bool} {d : Distribution W}
    (h : s.reference ctx id mark = .ok d) : (s.registry.get? id.toNat).isSome = true := by
  unfold Settings.reference at h
  split at h
  · cases h
  · cases hget : s.registry.get? id.toNat with
    | none => rw [hget] at h; cases h
    | some dice => rfl

/-- **All references that a walk looks at name dice of the registry.** -/
theorem Reads.registered {critical : Bool} {node : Node} {id : UInt32} {mark : Bool}
    (hreads : node.Reads critical (reference id mark)) (hctx : ctx.criticalBranch = critical)
    {e : Evaluation W} (h : node.walk s split ctx = .ok e) :
    (s.registry.get? id.toNat).isSome = true := by
  generalize hn : reference id mark = n at hreads
  induction hreads generalizing ctx e with
  | self node =>
    subst hn
    obtain ⟨d, hd, -⟩ := walk_reference_eq_ok h
    exact registered_of_reference hd
  | part hpart hreads ih =>
    subst hctx
    rcases walk_partsRead h hpart with hnone | ⟨ctx', e', hctx', he'⟩
    · have hsome := hasReference_of_mem (hn ▸ hreads.mem_subterms)
      rw [hnone] at hsome
      cases hsome
    · exact ih hctx' he' hn

/-- The same for the values of a node. -/
theorem Reads.registered_of_values {critical : Bool} {node : Node} {id : UInt32} {mark : Bool}
    (hreads : node.Reads critical (reference id mark)) (hctx : ctx.criticalBranch = critical)
    {d : Distribution W} (h : node.values s ctx = .ok d) :
    (s.registry.get? id.toNat).isSome = true := by
  obtain ⟨e, he, -⟩ := bind_eq_ok.1 h
  exact hreads.registered hctx he

end Node

end DiceOdds
