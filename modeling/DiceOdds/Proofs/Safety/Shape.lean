import DiceOdds.Proofs.Critical.Marks
import DiceOdds.Proofs.Reuse.Registry
import DiceOdds.Evaluation.Split

/-!
# The shape of trees

What an evaluation relies on without asking: the condition of a conditional is a comparison, a
function has two arguments, and every id belongs to dice of the registry.

## Why marks and ids are taken off

The grammar gives a tree its shape, but what is evaluated is another tree: numbered, if it refers to
dice, and with a marked literal, if a check without critical dice is split.  Neither a number nor a
mark is part of the shape, so a tree that is the same without them has the same shape.
-/

namespace DiceOdds

namespace Node

/-! ## 1. References in parts -/

theorem hasReference_of_mem_subterms {node n : Node} (h : node.hasReference = false)
    (hn : n ∈ node.subterms) : n.hasReference = false := by
  rw [hasReference, List.any_eq_false] at h ⊢
  exact fun m hm => h m (subterms_subset_of_mem hn hm)

theorem hasReference_of_mem_parts {node part : Node} (h : node.hasReference = false)
    (hpart : part ∈ node.parts) : part.hasReference = false :=
  hasReference_of_mem_subterms h (subterms_subset_of_mem_parts hpart part.mem_subterms_self)

/-! ## 2. Shape -/

/-- What the grammar says of a node by itself. -/
def IsShaped : Node → Prop
  | conditional condition _ _ => condition.isComparison = true
  | function _ args => args.length = 2
  | _ => True

/-- The id that a node names: that of its dice, or of the dice that it refers to. -/
def namedId? : Node → Option ℕ
  | reference id _ => some id.toNat
  | node => node.literalId?

/-- A tree of the grammar in which all ids belong to dice of the registry. -/
structure Wellformed (registry : Registry) (node : Node) : Prop where
  shaped : ∀ n ∈ node.subterms, n.IsShaped
  registered : ∀ n ∈ node.subterms, ∀ id, n.namedId? = some id → (registry.get? id).isSome = true

theorem Wellformed.of_mem {registry : Registry} {node n : Node} (h : node.Wellformed registry)
    (hn : n ∈ node.subterms) : n.Wellformed registry where
  shaped m hm := h.shaped m (subterms_subset_of_mem hn hm)
  registered m hm := h.registered m (subterms_subset_of_mem hn hm)

theorem Wellformed.part {registry : Registry} {node part : Node} (h : node.Wellformed registry)
    (hpart : part ∈ node.parts) : part.Wellformed registry :=
  h.of_mem (subterms_subset_of_mem_parts hpart part.mem_subterms_self)

/-- The dice that a node stands for are in the registry. -/
theorem Wellformed.registered_definingId {registry : Registry} {node : Node}
    (h : node.Wellformed registry) {id : ℕ} (hid : node.definingId? = some id) :
    (registry.get? id).isSome = true := by
  cases hstands : node.standsForDice with
  | false =>
    rw [definingId?_of_not_standsForDice hstands] at hid
    cases hid
  | true =>
    cases node with
    | dice d i modifier => exact h.registered _ (mem_subterms_self _) id hid
    | keep kind count items =>
      obtain ⟨p, hp⟩ := Option.isSome_iff_exists.1 hstands
      obtain ⟨i, rfl⟩ := eq_of_literalItem? hp
      exact h.registered (.dice p.dice i p.modifier) (by simp [subterms, subtermsAll]) id hid
    | _ => cases hstands

/-! ## 3. Marks -/

theorem withoutMarksAll_eq_map (nodes : List Node) :
    withoutMarksAll nodes = nodes.map withoutMarks := by
  induction nodes with
  | nil => rfl
  | cons node rest ih => rw [withoutMarksAll, ih, List.map_cons]

theorem parts_withoutMarks (node : Node) :
    node.withoutMarks.parts = node.parts.map withoutMarks := by
  cases node <;> simp [withoutMarks, parts, withoutMarksAll_eq_map]

/-- Taking off marks changes each part for itself. -/
theorem subterms_withoutMarks (node : Node) :
    node.withoutMarks.subterms = node.subterms.map withoutMarks := by
  induction node using parts_induction with
  | h node ih =>
  have hall : ∀ nodes : List Node,
      (∀ n ∈ nodes, n.withoutMarks.subterms = n.subterms.map withoutMarks) →
      subtermsAll (nodes.map withoutMarks) = (subtermsAll nodes).map withoutMarks := by
    intro nodes hnodes
    induction nodes with
    | nil => rfl
    | cons n rest ih =>
      obtain ⟨hn, hrest⟩ := List.forall_mem_cons.1 hnodes
      rw [List.map_cons, subtermsAll, subtermsAll, hn, ih hrest, List.map_append]
  rw [subterms_eq_parts, subterms_eq_parts, parts_withoutMarks, hall _ ih, List.map_cons]

theorem isShaped_withoutMarks (node : Node) : node.withoutMarks.IsShaped ↔ node.IsShaped := by
  cases node with
  | conditional condition ifTrue ifFalse =>
    rw [withoutMarks, IsShaped, IsShaped, isComparison_withoutMarks]
  | function name args =>
    rw [withoutMarks, IsShaped, IsShaped, withoutMarksAll_eq_map, List.length_map]
  | _ => exact Iff.rfl

theorem namedId?_withoutMarks (node : Node) : node.withoutMarks.namedId? = node.namedId? := by
  cases node <;> rfl

theorem wellformed_withoutMarks {registry : Registry} {node : Node} :
    node.withoutMarks.Wellformed registry ↔ node.Wellformed registry := by
  constructor
  · intro h
    refine ⟨fun n hn => ?_, fun n hn id hid => ?_⟩
    · refine n.isShaped_withoutMarks.1 (h.shaped _ ?_)
      exact node.subterms_withoutMarks ▸ List.mem_map_of_mem hn
    · refine h.registered n.withoutMarks ?_ id (n.namedId?_withoutMarks.trans hid)
      exact node.subterms_withoutMarks ▸ List.mem_map_of_mem hn
  · intro h
    refine ⟨fun m hm => ?_, fun m hm id hid => ?_⟩ <;>
      rw [subterms_withoutMarks] at hm <;> obtain ⟨n, hn, rfl⟩ := List.mem_map.1 hm
    · exact n.isShaped_withoutMarks.2 (h.shaped n hn)
    · exact h.registered n hn id (n.namedId?_withoutMarks.symm.trans hid)

/-- A tree with a marked literal has the shape that it had before. -/
theorem Wellformed.mark {registry : Registry} {node marked : Node} (h : node.Wellformed registry)
    (hmark : node.markLeftmost? = some marked) : marked.Wellformed registry := by
  rw [← wellformed_withoutMarks, withoutMarks_markLeftmost? node hmark, wellformed_withoutMarks]
  exact h

/-- The sides of a check keep their shape when their deciding dice are marked. -/
theorem Wellformed.decidingSides {registry : Registry} {left right left' right' : Node}
    (hl : left.Wellformed registry) (hr : right.Wellformed registry)
    (h : decidingSides? left right = some (left', right')) :
    left'.Wellformed registry ∧ right'.Wellformed registry := by
  unfold decidingSides? at h
  split at h
  · cases h
    exact ⟨hl, hr⟩
  · split at h
    · next marked hmark =>
      cases h
      exact ⟨hl.mark hmark, hr⟩
    · obtain ⟨marked, hmark, h⟩ := Option.map_eq_some_iff.1 h
      cases h
      exact ⟨hl, hr.mark hmark⟩

/-! ## 4. Trees of the grammar -/

/-- Ids do not make a comparison. -/
theorem isComparison_withoutIds (node : Node) :
    node.withoutIds.isComparison = node.isComparison := by
  induction node using stripGroups.induct with
  | case1 inner ih =>
    rw [withoutIds]
    exact ih
  | case2 node hnode =>
    cases node with
    | group inner => exact absurd rfl (hnode inner)
    | _ => rfl

theorem isShaped_withoutIds (node : Node) : node.withoutIds.IsShaped ↔ node.IsShaped := by
  cases node with
  | conditional condition ifTrue ifFalse =>
    rw [withoutIds, IsShaped, IsShaped, isComparison_withoutIds]
  | function name args =>
    rw [withoutIds, IsShaped, IsShaped, withoutIdsAll_eq_map, List.length_map]
  | _ => exact Iff.rfl

end Node

/-- Trees of the grammar have its shape. -/
theorem Derives.isShaped {l : Level} {w : List Lexeme} {a : Node} (h : Derives l w a) :
    ∀ n ∈ a.subterms, n.IsShaped := by
  have hnode : ∀ {node : Node}, node.IsShaped →
      (∀ part ∈ node.parts, ∀ n ∈ part.subterms, n.IsShaped) →
      ∀ n ∈ node.subterms, n.IsShaped := by
    intro node hself hparts n hn
    rw [Node.subterms_eq_parts, List.mem_cons] at hn
    rcases hn with rfl | hn
    · exact hself
    · obtain ⟨part, hpart, hn⟩ := Node.mem_subtermsAll.1 hn
      exact hparts part hpart n hn
  induction h with
  | number | dice | reference | modified => exact hnode trivial (List.forall_mem_nil _)
  | keep kind count _ _ iha ihparts =>
    refine hnode trivial (List.forall_mem_cons.2 ⟨iha, fun part hpart => ?_⟩)
    obtain ⟨p, hp, rfl⟩ := List.mem_map.1 hpart
    exact ihparts p hp
  | function name _ _ iha ihb => exact hnode rfl (by simpa [Node.parts] using ⟨iha, ihb⟩)
  | group _ ih | double _ ih | only _ ih => exact hnode trivial (by simpa [Node.parts] using ih)
  | ofAtom _ ih | ofFactor _ ih | ofMultiplicative _ ih | ofAdditive _ ih | ofComparison _ ih =>
    exact ih
  | switch _ _ iha ihb | product _ _ _ iha ihb | sum _ _ _ iha ihb | comparison _ _ _ iha ihb =>
    exact hnode trivial (by simpa [Node.parts] using ⟨iha, ihb⟩)
  | conditional _ hcond _ _ ihc iha ihb =>
    exact hnode hcond (by simpa [Node.parts] using ⟨ihc, iha, ihb⟩)

/-! ## 5. Formulas -/

namespace Formula

/-- A formula has the shape of its tree before it was numbered. -/
theorem isShaped_ofNode {root : Node} (h : ∀ n ∈ root.withoutIds.subterms, n.IsShaped) :
    ∀ n ∈ (ofNode root).root.subterms, n.IsShaped := by
  intro n hn
  refine n.isShaped_withoutIds.1 (h _ ?_)
  rw [← withoutIds_ofNode, Node.subterms_withoutIds]
  exact List.mem_map_of_mem hn

/-- The id of a literal is one of the registry. -/
theorem registered_literalId {root : Node} (hnum : root.Numbered) {registry : Registry}
    (hlen : registry.length = root.groups.length) {n : Node} (hn : n ∈ root.subterms) {id : ℕ}
    (hid : n.literalId? = some id) : (registry.get? id).isSome = true := by
  have hliteral : n ∈ root.literalNodes := by
    refine List.mem_filter.2 ⟨hn, ?_⟩
    cases n with
    | dice d i modifier => rfl
    | _ => cases hid
  rw [Node.literalNodes_eq_groups] at hliteral
  obtain ⟨g, hg, rfl⟩ := List.mem_map.1 hliteral
  obtain ⟨k, hk, rfl⟩ := List.mem_iff_getElem.1 hg
  rw [hnum.literal_eq hk] at hid
  obtain rfl : k + 1 = id := Option.some.inj hid
  refine Option.isSome_iff_exists.2 ⟨registry[k], Registry.get?_eq_some.2 ⟨k, rfl, ?_⟩⟩
  exact List.getElem?_eq_getElem (hlen ▸ hk)

/-- There is one literal in each group. -/
theorem length_literals (node : Node) : node.literals.length = node.groups.length := by
  have hliteral : Node.literal? = fun n => n.pool?.map Pool.dice := by
    funext n
    cases n <;> rfl
  rw [Node.literals, hliteral, ← List.map_filterMap, List.length_map, ← Node.pools,
    ← Node.groups_pools, List.length_map]

/-- The formula of a text is that of a tree of the grammar. -/
theorem exists_derives_of_ofText {text : String} {f : Formula} (h : ofText text = .ok f) :
    ∃ w root, Derives .conditional w root ∧ f = ofNode root := by
  unfold ofText at h
  split at h
  · cases h
  · next ts _ =>
    rw [ofTokens] at h
    cases hroot : Node.ofTokens ts with
    | error e => rw [hroot] at h; cases h
    | ok root =>
      rw [hroot] at h
      cases h
      exact ⟨_, root, Node.ofTokens_eq_ok_iff.1 hroot, rfl⟩

/-- **A formula is well-formed** if its references lie within its dice. -/
theorem wellformed_of_ofText {text : String} {f : Formula} (h : ofText text = .ok f)
    (hrefs : ∀ id critical, Node.reference id critical ∈ f.root.subterms →
      1 ≤ id.toNat ∧ id.toNat ≤ f.root.literals.length) : f.root.Wellformed f.registry := by
  obtain ⟨w, root, hd, rfl⟩ := exists_derives_of_ofText h
  refine ⟨isShaped_ofNode (hd.withoutIds_eq.symm ▸ hd.isShaped), fun n hn id hid => ?_⟩
  cases href : root.hasReference with
  | false =>
    obtain ⟨-, hliterals⟩ := ofNode_of_not_hasReference hd href
    cases n with
    | reference i critical =>
      rw [ofNode, if_neg (by simp [href])] at hn
      rw [Node.hasReference, List.any_eq_false] at href
      exact absurd rfl (href _ hn)
    | _ => cases (hliterals _ hn).symm.trans hid
  | true =>
    have hlen : (ofNode root).registry.length = (ofNode root).root.groups.length := by
      rw [ofNode, if_pos href]
      exact length_registry_withIds root
    have hnum : (ofNode root).root.Numbered := by
      rw [ofNode, if_pos href]
      exact root.numbered_withIds
    cases n with
    | reference i critical =>
      obtain ⟨hone, hle⟩ := hrefs i critical hn
      obtain rfl : i.toNat = id := Option.some.inj hid
      rw [length_literals, ← hlen] at hle
      obtain ⟨k, hk⟩ := Nat.exists_eq_add_of_le' hone
      refine Option.isSome_iff_exists.2
        ⟨(ofNode root).registry[k], Registry.get?_eq_some.2 ⟨k, hk, ?_⟩⟩
      exact List.getElem?_eq_getElem (by omega)
    | _ => exact registered_literalId hnum hlen hn hid

end Formula

end DiceOdds
