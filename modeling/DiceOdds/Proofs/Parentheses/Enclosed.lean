import DiceOdds.Proofs.Critical.Marks
import DiceOdds.Proofs.Reuse.Pinned

/-!
# Parts in parentheses

`Enclosed` relates a tree to the same tree with some of its parts in more parentheses.  Whatever is
asked about a tree is asked through parentheses, with one exception: which node stands for the value
of some dice is read off the node itself.

## Why dice may be hidden

A keep acts on the single dice of a literal in parentheses as it does without them, but it does not
stand for their value any more; and a limit on each die does not find the id of the dice.  As long
as no value is fixed neither matters.  Where values are, parentheses that hide dice are left out.
-/

namespace DiceOdds

namespace Node

/-! ## 1. More parentheses -/

/-- The second tree is the first one with some parts in more parentheses.  Dice are hidden from a
keep or a limit on each die only if `mayHide` says so. -/
inductive Enclosed (mayHide : Bool) : Node → Node → Prop where
  | number (value : Float) : Enclosed mayHide (number value) (number value)
  | dice (d : Dice) (id : Option ℕ) (modifier : Option Modifier) :
      Enclosed mayHide (dice d id modifier) (dice d id modifier)
  | reference (id : UInt32) (critical : Bool) :
      Enclosed mayHide (reference id critical) (reference id critical)
  | keep (kind : KeepKind) (count : UInt32) {items items' : List Node}
      (hlength : items.length = items'.length)
      (h : ∀ {item item'}, (item, item') ∈ items.zip items' → Enclosed mayHide item item')
      (hdice : mayHide = true
        ∨ (keep kind count items').hidesDice = (keep kind count items).hidesDice) :
      Enclosed mayHide (keep kind count items) (keep kind count items')
  | comparison (relation : Relation) {left left' right right' : Node}
      (hl : Enclosed mayHide left left') (hr : Enclosed mayHide right right') :
      Enclosed mayHide (comparison relation left right) (comparison relation left' right')
  | conditional {condition condition' ifTrue ifTrue' ifFalse ifFalse' : Node}
      (hc : Enclosed mayHide condition condition') (ht : Enclosed mayHide ifTrue ifTrue')
      (hf : Enclosed mayHide ifFalse ifFalse') :
      Enclosed mayHide (conditional condition ifTrue ifFalse)
        (conditional condition' ifTrue' ifFalse')
  | binary (operation : Operation) {left left' right right' : Node}
      (hl : Enclosed mayHide left left') (hr : Enclosed mayHide right right') :
      Enclosed mayHide (binary operation left right) (binary operation left' right')
  | double {inner inner' : Node} (h : Enclosed mayHide inner inner') :
      Enclosed mayHide (double inner) (double inner')
  | switch {normal normal' critical critical' : Node} (hn : Enclosed mayHide normal normal')
      (hc : Enclosed mayHide critical critical') :
      Enclosed mayHide (switch normal critical) (switch normal' critical')
  | only {inner inner' : Node} (h : Enclosed mayHide inner inner') :
      Enclosed mayHide (only inner) (only inner')
  | function (name : FunctionName) {args args' : List Node}
      (hlength : args.length = args'.length)
      (h : ∀ {arg arg'}, (arg, arg') ∈ args.zip args' → Enclosed mayHide arg arg')
      (hdice : mayHide = true
        ∨ (function name args').hidesDice = (function name args).hidesDice) :
      Enclosed mayHide (function name args) (function name args')
  | group {inner inner' : Node} (h : Enclosed mayHide inner inner') :
      Enclosed mayHide (group inner) (group inner')
  | enclose {node node' : Node} (h : Enclosed mayHide node node') :
      Enclosed mayHide node (group node')

namespace Enclosed

variable {mayHide : Bool} {node node' : Node}

theorem refl (node : Node) : Enclosed mayHide node node := by
  induction node using parts_induction with
  | h node ih =>
  have hsame : ∀ nodes : List Node, (∀ n ∈ nodes, Enclosed mayHide n n) →
      ∀ {n n'}, (n, n') ∈ nodes.zip nodes → Enclosed mayHide n n' := by
    intro nodes hnodes n n' hmem
    obtain ⟨i, hi, hget⟩ := List.mem_iff_getElem.1 hmem
    rw [List.getElem_zip, Prod.mk.injEq] at hget
    obtain ⟨rfl, rfl⟩ := hget
    exact hnodes _ (List.getElem_mem _)
  cases node with
  | number value => exact .number value
  | dice d id modifier => exact .dice d id modifier
  | reference id critical => exact .reference id critical
  | keep kind count items => exact .keep kind count rfl (hsame items ih) (.inr rfl)
  | comparison relation left right =>
    exact .comparison relation (ih left (by simp [parts])) (ih right (by simp [parts]))
  | conditional condition ifTrue ifFalse =>
    exact .conditional (ih condition (by simp [parts])) (ih ifTrue (by simp [parts]))
      (ih ifFalse (by simp [parts]))
  | binary operation left right =>
    exact .binary operation (ih left (by simp [parts])) (ih right (by simp [parts]))
  | double inner => exact .double (ih inner (by simp [parts]))
  | switch normal critical =>
    exact .switch (ih normal (by simp [parts])) (ih critical (by simp [parts]))
  | only inner => exact .only (ih inner (by simp [parts]))
  | function name args => exact .function name rfl (hsame args ih) (.inr rfl)
  | group inner => exact .group (ih inner (by simp [parts]))

/-- Without parentheses around them, the trees are still related. -/
theorem stripGroups (h : Enclosed mayHide node node') :
    Enclosed mayHide node.stripGroups node'.stripGroups := by
  induction h with
  | number value => exact .number value
  | dice d id modifier => exact .dice d id modifier
  | reference id critical => exact .reference id critical
  | keep kind count hlength h hdice => exact .keep kind count hlength h hdice
  | comparison relation hl hr => exact .comparison relation hl hr
  | conditional hc ht hf => exact .conditional hc ht hf
  | binary operation hl hr => exact .binary operation hl hr
  | double h => exact .double h
  | switch hn hc => exact .switch hn hc
  | only h => exact .only h
  | function name hlength h hdice => exact .function name hlength h hdice
  | group _ ih => exact ih
  | enclose _ ih => exact ih

/-- Two related trees are built alike, but for parentheses. -/
theorem parts_rec {P : Node → Node → Prop}
    (node : ∀ a b, Enclosed mayHide a b → (∀ inner, b ≠ .group inner) →
      List.Forall₂ P a.parts b.parts → P a b)
    (group : ∀ a b, P a b → P (.group a) (.group b)) (enclose : ∀ a b, P a b → P a (.group b))
    {a b : Node} (h : Enclosed mayHide a b) : P a b := by
  induction h with
  | number value => exact node _ _ (.number value) (fun _ h => by cases h) .nil
  | dice d id modifier => exact node _ _ (.dice d id modifier) (fun _ h => by cases h) .nil
  | reference id critical => exact node _ _ (.reference id critical) (fun _ h => by cases h) .nil
  | keep kind count hlength h hdice ih =>
    exact node _ _ (.keep kind count hlength h hdice) (fun _ h => by cases h)
      (List.forall₂_iff_zip.2 ⟨hlength, ih⟩)
  | comparison relation hl hr ihl ihr =>
    exact node _ _ (.comparison relation hl hr) (fun _ h => by cases h)
      (.cons ihl (.cons ihr .nil))
  | conditional hc ht hf ihc iht ihf =>
    exact node _ _ (.conditional hc ht hf) (fun _ h => by cases h)
      (.cons ihc (.cons iht (.cons ihf .nil)))
  | binary operation hl hr ihl ihr =>
    exact node _ _ (.binary operation hl hr) (fun _ h => by cases h) (.cons ihl (.cons ihr .nil))
  | double h ih => exact node _ _ (.double h) (fun _ h => by cases h) (.cons ih .nil)
  | switch hn hc ihn ihc =>
    exact node _ _ (.switch hn hc) (fun _ h => by cases h) (.cons ihn (.cons ihc .nil))
  | only h ih => exact node _ _ (.only h) (fun _ h => by cases h) (.cons ih .nil)
  | function name hlength h hdice ih =>
    exact node _ _ (.function name hlength h hdice) (fun _ h => by cases h)
      (List.forall₂_iff_zip.2 ⟨hlength, ih⟩)
  | group _ ih => exact group _ _ ih
  | enclose _ ih => exact enclose _ _ ih

end Enclosed

/-! ## 2. Questions about all parts -/

theorem stripGroups_ne_group (node inner : Node) : node.stripGroups ≠ group inner := by
  induction node using stripGroups.induct with
  | case1 node ih => exact ih
  | case2 node hnode =>
    cases node with
    | group node => exact absurd rfl (hnode node)
    | _ =>
      intro h
      cases h

namespace Enclosed

variable {mayHide : Bool} {node node' : Node}

/-- What is found in a tree is found in the other one, if parentheses do not count. -/
theorem filterMap_subterms {β : Type} {f : Node → Option β}
    (hgroup : ∀ inner, f (.group inner) = none)
    (hf : ∀ a b, Enclosed mayHide a b → (∀ inner, b ≠ .group inner) → f b = f a)
    (h : Enclosed mayHide node node') :
    node'.subterms.filterMap f = node.subterms.filterMap f := by
  refine parts_rec (P := fun a b => b.subterms.filterMap f = a.subterms.filterMap f)
    (fun a b h hb hparts => ?_) (fun a b ih => ?_) (fun a b ih => ?_) h
  · have hall : (subtermsAll b.parts).filterMap f = (subtermsAll a.parts).filterMap f := by
      generalize a.parts = as, b.parts = bs at hparts
      induction hparts with
      | nil => rfl
      | cons hpart _ ih => rw [subtermsAll, subtermsAll, List.filterMap_append,
          List.filterMap_append, hpart, ih]
    rw [subterms_eq_parts, subterms_eq_parts, List.filterMap_cons, List.filterMap_cons,
      hf a b h hb, hall]
  · rw [subterms, subterms, List.filterMap_cons_none (hgroup _),
      List.filterMap_cons_none (hgroup _), ih]
  · rw [subterms, List.filterMap_cons_none (hgroup _), ih]

theorem any_subterms {p : Node → Bool} (hgroup : ∀ inner, p (.group inner) = false)
    (hp : ∀ a b, Enclosed mayHide a b → (∀ inner, b ≠ .group inner) → p b = p a)
    (h : Enclosed mayHide node node') : node'.subterms.any p = node.subterms.any p := by
  have hfound : ∀ nodes : List Node, nodes.any p
      = (nodes.filterMap fun n => if p n then some () else none).any fun _ => true := by
    intro nodes
    rw [List.any_filterMap]
    refine congrArg (List.any nodes) (funext fun n => ?_)
    cases p n <;> rfl
  rw [hfound, hfound, h.filterMap_subterms (fun inner => by rw [hgroup]; rfl)
    fun a b hab hb => by rw [hp a b hab hb]]

theorem hasCriticalWrapper (h : Enclosed mayHide node node') :
    node'.hasCriticalWrapper = node.hasCriticalWrapper :=
  h.any_subterms (fun _ => rfl) fun a b hab hb => by
    cases hab with
    | group => exact absurd rfl (hb _)
    | enclose => exact absurd rfl (hb _)
    | _ => rfl

theorem hasCriticalDice (h : Enclosed mayHide node node') :
    node'.hasCriticalDice = node.hasCriticalDice :=
  h.any_subterms (fun _ => rfl) fun a b hab hb => by
    cases hab with
    | group => exact absurd rfl (hb _)
    | enclose => exact absurd rfl (hb _)
    | _ => rfl

theorem leftmostId? (h : Enclosed mayHide node node') : node'.leftmostId? = node.leftmostId? := by
  rw [Node.leftmostId?, Node.leftmostId?, ← List.head?_filterMap, ← List.head?_filterMap,
    h.filterMap_subterms (fun _ => rfl) fun a b hab hb => by
      cases hab with
      | group => exact absurd rfl (hb _)
      | enclose => exact absurd rfl (hb _)
      | _ => rfl]

theorem criticalIds (h : Enclosed mayHide node node') : node'.criticalIds = node.criticalIds := by
  have hall : ∀ {items items' : List Node},
      List.Forall₂ (fun a b : Node => b.criticalIds = a.criticalIds) items items' →
        criticalIdsAll items' = criticalIdsAll items := by
    intro items items' hitems
    induction hitems with
    | nil => rfl
    | cons hitem _ ih => rw [criticalIdsAll, criticalIdsAll, hitem, ih]
  induction h with
  | keep kind count hlength h hdice ih =>
    rw [Node.criticalIds, Node.criticalIds, hall (List.forall₂_iff_zip.2 ⟨hlength, ih⟩)]
  | comparison relation _ _ ihl ihr => rw [Node.criticalIds, Node.criticalIds, ihl, ihr]
  | binary operation _ _ ihl ihr => rw [Node.criticalIds, Node.criticalIds, ihl, ihr]
  | group _ ih => rw [Node.criticalIds, Node.criticalIds, ih]
  | enclose _ ih => rw [Node.criticalIds, ih]
  | _ => rfl

/-- Conditions are comparisons in any number of parentheses. -/
theorem comparison? (h : Enclosed mayHide node node') :
    node.comparison? = none ∧ node'.comparison? = none
      ∨ ∃ relation left right left' right', node.comparison? = some (relation, left, right)
        ∧ node'.comparison? = some (relation, left', right') ∧ Enclosed mayHide left left'
        ∧ Enclosed mayHide right right' := by
  unfold Node.comparison?
  have hstrip := h.stripGroups
  have hne := node'.stripGroups_ne_group
  generalize node.stripGroups = a, node'.stripGroups = b at hstrip hne
  cases hstrip with
  | comparison relation hl hr => exact .inr ⟨relation, _, _, _, _, rfl, rfl, hl, hr⟩
  | group => exact absurd rfl (hne _)
  | enclose => exact absurd rfl (hne _)
  | _ => exact .inl ⟨rfl, rfl⟩

theorem isComparison (h : Enclosed mayHide node node') :
    node'.isComparison = node.isComparison := by
  rw [Node.isComparison, Node.isComparison]
  obtain ⟨hnone, hnone'⟩ | ⟨_, _, _, _, _, hsome, hsome', -, -⟩ := h.comparison?
  · rw [hnone, hnone']
  · rw [hsome, hsome']
    rfl

end Enclosed

/-! ## 3. Marks -/

theorem isSome_strippedPool?_withoutMarks (node : Node) :
    node.withoutMarks.strippedPool?.isSome = node.strippedPool?.isSome := by
  induction node using stripGroups.induct with
  | case1 inner ih =>
    rw [withoutMarks]
    exact ih
  | case2 node hnode =>
    cases node with
    | group inner => exact absurd rfl (hnode inner)
    | _ => rfl

/-- Marks hide no dice. -/
theorem hidesDice_withoutMarks (node : Node) : node.withoutMarks.hidesDice = node.hidesDice := by
  cases node with
  | keep kind count items =>
    rcases items with _ | ⟨item, _ | ⟨_, _⟩⟩
    · rfl
    · cases item with
      | group inner => exact inner.isSome_strippedPool?_withoutMarks
      | _ => rfl
    · cases item <;> rfl
  | function name args =>
    rcases args with _ | ⟨target, _ | ⟨threshold, _ | ⟨_, _⟩⟩⟩
    · rfl
    · cases target <;> rfl
    · cases target with
      | group inner => exact congrArg (name.perDie && ·) inner.isSome_strippedPool?_withoutMarks
      | _ => rfl
    · cases target <;> rfl
  | _ => rfl

theorem hidesDice_eq {node node' : Node} (h : node'.withoutMarks = node.withoutMarks) :
    node'.hidesDice = node.hidesDice := by
  rw [← node'.hidesDice_withoutMarks, h, node.hidesDice_withoutMarks]

namespace Enclosed

variable {mayHide : Bool} {node node' : Node}

theorem markLeftmostIn? {items items' : List Node}
    (h : List.Forall₂ (fun item item' => Enclosed mayHide item item'
      ∧ Option.Rel (Enclosed mayHide) item.markLeftmost? item'.markLeftmost?) items items') :
    Option.Rel (List.Forall₂ (Enclosed mayHide)) (Node.markLeftmostIn? items)
      (Node.markLeftmostIn? items') := by
  induction h with
  | nil => exact .none
  | @cons item item' rest rest' hitem hrest ih =>
    obtain ⟨hitem, hmarked⟩ := hitem
    rw [Node.markLeftmostIn?, Node.markLeftmostIn?]
    generalize item.markLeftmost? = m, item'.markLeftmost? = m' at hmarked
    cases hmarked with
    | some hm => exact .some (.cons hm (hrest.imp fun _ _ h => h.1))
    | none =>
      generalize Node.markLeftmostIn? rest = m, Node.markLeftmostIn? rest' = m' at ih
      cases ih with
      | some hm => exact .some (.cons hitem hm)
      | none => exact .none

/-- Trees that are made of related marked parts. -/
theorem markedParts {items items' : List Node} {make : List Node → Node}
    (hlength : items.length = items'.length)
    (h : ∀ {item item'}, (item, item') ∈ items.zip items' → Enclosed mayHide item item'
      ∧ Option.Rel (Enclosed mayHide) item.markLeftmost? item'.markLeftmost?)
    (hmake : ∀ {marked marked'}, withoutMarksAll marked = withoutMarksAll items →
      withoutMarksAll marked' = withoutMarksAll items' →
      List.Forall₂ (Enclosed mayHide) marked marked' →
      Enclosed mayHide (make marked) (make marked')) :
    Option.Rel (Enclosed mayHide) ((Node.markLeftmostIn? items).map make)
      ((Node.markLeftmostIn? items').map make) := by
  have hitems := markLeftmostIn? (List.forall₂_iff_zip.2 ⟨hlength, h⟩)
  cases hm : Node.markLeftmostIn? items with
  | none =>
    rw [hm] at hitems
    generalize Node.markLeftmostIn? items' = m' at hitems
    cases hitems
    exact .none
  | some marked =>
    cases hm' : Node.markLeftmostIn? items' with
    | none =>
      rw [hm, hm'] at hitems
      cases hitems
    | some marked' =>
      rw [hm, hm'] at hitems
      cases hitems with
      | some hmarked =>
        exact .some (hmake (withoutMarksAll_markLeftmostIn? items hm)
          (withoutMarksAll_markLeftmostIn? items' hm') hmarked)

theorem markedPart {part part' : Node} {make make' : Node → Node}
    (h : Option.Rel (Enclosed mayHide) part.markLeftmost? part'.markLeftmost?)
    (hmake : ∀ {marked marked'}, Enclosed mayHide marked marked' →
      Enclosed mayHide (make marked) (make' marked')) :
    Option.Rel (Enclosed mayHide) (part.markLeftmost?.map make)
      (part'.markLeftmost?.map make') := by
  generalize part.markLeftmost? = m, part'.markLeftmost? = m' at h
  cases h with
  | some h => exact .some (hmake h)
  | none => exact .none

/-- The first dice are marked in both trees. -/
theorem markLeftmost? (h : Enclosed mayHide node node') :
    Option.Rel (Enclosed mayHide) node.markLeftmost? node'.markLeftmost? := by
  induction h with
  | number value => exact .none
  | dice d id modifier => exact .some (.dice _ id modifier)
  | reference id critical => exact .none
  | @keep kind count items items' hlength h hdice ih =>
    refine markedParts hlength (fun hp => ⟨h hp, ih hp⟩) fun {marked marked'} hm hm' hmarked => ?_
    obtain ⟨hlength, hzip⟩ := List.forall₂_iff_zip.1 hmarked
    refine .keep kind count hlength hzip (hdice.imp_right fun hdice => ?_)
    have hdice₁ : (Node.keep kind count marked).hidesDice
        = (Node.keep kind count items).hidesDice :=
      hidesDice_eq (congrArg (Node.keep kind count) hm)
    have hdice₂ : (Node.keep kind count marked').hidesDice
        = (Node.keep kind count items').hidesDice :=
      hidesDice_eq (congrArg (Node.keep kind count) hm')
    rw [hdice₁, hdice₂, hdice]
  | @comparison relation left left' right right' hl hr ihl ihr =>
    rw [Node.markLeftmost?, Node.markLeftmost?]
    generalize left.markLeftmost? = m, left'.markLeftmost? = m' at ihl
    cases ihl with
    | some hm => exact .some (.comparison relation hm hr)
    | none => exact markedPart ihr fun hm => .comparison relation hl hm
  | @conditional condition condition' ifTrue ifTrue' _ _ hc ht hf ihc iht ihf =>
    rw [Node.markLeftmost?, Node.markLeftmost?]
    generalize condition.markLeftmost? = m, condition'.markLeftmost? = m' at ihc
    cases ihc with
    | some hm => exact .some (.conditional hm ht hf)
    | none =>
      generalize ifTrue.markLeftmost? = m, ifTrue'.markLeftmost? = m' at iht
      cases iht with
      | some hm => exact .some (.conditional hc hm hf)
      | none => exact markedPart ihf fun hm => .conditional hc ht hm
  | @binary operation left left' right right' hl hr ihl ihr =>
    rw [Node.markLeftmost?, Node.markLeftmost?]
    generalize left.markLeftmost? = m, left'.markLeftmost? = m' at ihl
    cases ihl with
    | some hm => exact .some (.binary operation hm hr)
    | none => exact markedPart ihr fun hm => .binary operation hl hm
  | double _ ih => exact markedPart ih fun hm => .double hm
  | @switch normal normal' _ _ hn hc ihn ihc =>
    rw [Node.markLeftmost?, Node.markLeftmost?]
    generalize normal.markLeftmost? = m, normal'.markLeftmost? = m' at ihn
    cases ihn with
    | some hm => exact .some (.switch hm hc)
    | none => exact markedPart ihc fun hm => .switch hn hm
  | only _ ih => exact markedPart ih fun hm => .only hm
  | @function name args args' hlength h hdice ih =>
    refine markedParts hlength (fun hp => ⟨h hp, ih hp⟩) fun {marked marked'} hm hm' hmarked => ?_
    obtain ⟨hlength, hzip⟩ := List.forall₂_iff_zip.1 hmarked
    refine .function name hlength hzip (hdice.imp_right fun hdice => ?_)
    have hdice₁ : (Node.function name marked).hidesDice = (Node.function name args).hidesDice :=
      hidesDice_eq (congrArg (Node.function name) hm)
    have hdice₂ : (Node.function name marked').hidesDice = (Node.function name args').hidesDice :=
      hidesDice_eq (congrArg (Node.function name) hm')
    rw [hdice₁, hdice₂, hdice]
  | group _ ih => exact markedPart ih fun hm => .group hm
  | @enclose node node' _ ih =>
    have hgroup : (Node.group node').markLeftmost? = node'.markLeftmost?.map .group := by
      rw [Node.markLeftmost?]
    rw [hgroup]
    generalize node.markLeftmost? = m, node'.markLeftmost? = m' at ih
    cases ih with
    | some hm => exact .some (.enclose hm)
    | none => exact .none

end Enclosed

/-! ## 4. Dice -/

namespace Enclosed

variable {mayHide : Bool} {node node' : Node}

theorem strippedPool? (h : Enclosed mayHide node node') :
    node'.strippedPool? = node.strippedPool? := by
  unfold Node.strippedPool?
  have hstrip := h.stripGroups
  have hne := node'.stripGroups_ne_group
  generalize node.stripGroups = a, node'.stripGroups = b at hstrip hne
  cases hstrip with
  | group => exact absurd rfl (hne _)
  | enclose => exact absurd rfl (hne _)
  | _ => rfl

theorem literalId? (h : Enclosed mayHide node node') (hne : ∀ inner, node' ≠ .group inner) :
    node'.literalId? = node.literalId? := by
  cases h with
  | group => exact absurd rfl (hne _)
  | enclose => exact absurd rfl (hne _)
  | _ => rfl

/-- Dice that the only item of a keep is are not hidden. -/
theorem literalId?_only {kind : KeepKind} {count : UInt32} {item item' : Node}
    (h : Enclosed false item item')
    (hdice : (Node.keep kind count [item']).hidesDice = (Node.keep kind count [item]).hidesDice) :
    item'.literalId? = item.literalId? := by
  by_cases hgroup : ∃ inner, item' = .group inner
  · obtain ⟨inner, rfl⟩ := hgroup
    cases item with
    | dice d id modifier =>
      have hpool : inner.strippedPool? = some ⟨d, modifier⟩ := h.strippedPool?
      have hfalse : inner.strippedPool?.isSome = false := hdice
      rw [hpool] at hfalse
      cases hfalse
    | _ => rfl
  · exact h.literalId? fun inner hinner => hgroup ⟨inner, hinner⟩

/-- A node in more parentheses stands for the value of the same dice, unless they get hidden. -/
theorem definingId? (h : Enclosed false node node') (hne : ∀ inner, node' ≠ .group inner) :
    node'.definingId? = node.definingId? := by
  cases h with
  | @keep kind count items items' hlength h hdice =>
    rcases items with _ | ⟨item, _ | ⟨_, _⟩⟩ <;> rcases items' with _ | ⟨item', _ | ⟨_, _⟩⟩ <;>
      simp only [List.length_cons, List.length_nil, Nat.add_eq_right, Nat.add_eq_zero_iff,
        Nat.right_eq_add, reduceCtorEq, Nat.reduceAdd, and_false] at hlength
    · rfl
    · exact literalId?_only (h (List.mem_singleton_self _))
        (hdice.resolve_left Bool.false_ne_true)
    · rfl
  | group => exact absurd rfl (hne _)
  | enclose => exact absurd rfl (hne _)
  | _ => rfl

/-- Whatever stands for the value of dice contains no parentheses. -/
theorem eq_of_definingId? (h : Enclosed mayHide node node') {id : ℕ}
    (hid : node'.definingId? = some id) : node = node' := by
  cases h with
  | dice d id modifier => rfl
  | @keep kind count items items' hlength h hdice =>
    rcases items' with _ | ⟨item', _ | ⟨_, _⟩⟩
    · cases hid
    · obtain ⟨item, rfl⟩ := List.length_eq_one_iff.1 hlength
      have hitem := h (List.mem_singleton_self _)
      cases item' with
      | dice d id modifier =>
        cases hitem
        rfl
      | _ => cases hid
    · cases hid
  | _ => cases hid

theorem definition? (h : Enclosed false node node') (id : ℕ) :
    node'.definition? id = node.definition? id := by
  have hfind : ∀ nodes : List Node, nodes.find? (fun n => n.definingId? = some id)
      = (nodes.filterMap (Option.guard fun n => n.definingId? = some id)).head? := by
    intro nodes
    rw [List.head?_filterMap, List.findSome?_guard]
  rw [Node.definition?, Node.definition?, hfind, hfind,
    h.filterMap_subterms (fun _ => rfl) fun a b hab hne => ?_]
  have hsame := hab.definingId? hne
  by_cases hid : b.definingId? = some id
  · rw [hab.eq_of_definingId? hid]
  · have hid' : a.definingId? ≠ some id := hsame ▸ hid
    simp only [Option.guard, decide_eq_true_eq, hid, hid', if_false]

end Enclosed

end Node

end DiceOdds
