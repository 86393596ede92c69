import DiceOdds.Proofs.Counting.Value

/-!
# Groups and leaves

Dice that belong together are a group: the dice of a literal, seen through the node that stands for
their value.  The nodes next to the dice, where it matters which single dice there are, are the
leaves of a formula; all other constructs combine parts that are independent of each other.
-/

namespace DiceOdds

/-! ## 1. Literals and what stands for them -/

/-- A literal of a formula, with the node that stands for the value of its dice: the literal
itself, or the keep that has it as its only item. -/
structure Group where
  node : Node
  pool : Pool

/-- The value of a group on one roll of its dice. -/
def Group.value? (g : Group) (cell : PoolRoll) : Option Outcome :=
  g.node.valueOn (fun _ => none) [cell]

/-- What a group looks like. -/
inductive Group.Wellformed : Group → Prop where
  | dice (d : Dice) (id : Option ℕ) (modifier : Option Modifier) :
      Wellformed ⟨.dice d id modifier, ⟨d, modifier⟩⟩
  | keep (kind : KeepKind) (count : UInt32) (d : Dice) (id : Option ℕ)
      (modifier : Option Modifier) :
      Wellformed ⟨.keep kind count [.dice d id modifier], ⟨d, modifier⟩⟩

namespace Node

/-- The dice of a literal that is the only item. -/
def literalItem? : List Node → Option Pool
  | [item] => item.pool?
  | _ => none

mutual

/-- All literals with the nodes that stand for them, in source order. -/
def groups : Node → List Group
  | number _ => []
  | dice d id modifier => [⟨dice d id modifier, ⟨d, modifier⟩⟩]
  | reference _ _ => []
  | keep kind count items => match literalItem? items with
    | some p => [⟨keep kind count items, p⟩]
    | none => groupsAll items
  | comparison _ left right => left.groups ++ right.groups
  | conditional condition ifTrue ifFalse => condition.groups ++ ifTrue.groups ++ ifFalse.groups
  | binary _ left right => left.groups ++ right.groups
  | double inner => inner.groups
  | switch normal critical => normal.groups ++ critical.groups
  | only inner => inner.groups
  | function _ args => groupsAll args
  | group inner => inner.groups

/-- The same for a list of nodes. -/
def groupsAll : List Node → List Group
  | [] => []
  | node :: rest => node.groups ++ groupsAll rest

end

-- the equations are made here, once for everything that unfolds them
attribute [grind =] groups groupsAll

theorem strippedPool?_of_pool? {node : Node} {p : Pool} (h : node.pool? = some p) :
    node.strippedPool? = some p := by
  cases node with
  | dice d id modifier => exact h
  | _ => cases h

theorem onlyPool?_of_literalItem? {items : List Node} {p : Pool} (h : literalItem? items = some p) :
    onlyPool? items = some p := by
  match items, h with
  | [item], h => exact strippedPool?_of_pool? h

/-- The only item with dice of its own is a literal. -/
theorem eq_of_literalItem? {items : List Node} {p : Pool} (h : literalItem? items = some p) :
    ∃ id, items = [dice p.dice id p.modifier] := by
  match items, h with
  | [item], h =>
    cases item with
    | dice d id modifier =>
      cases h
      exact ⟨id, rfl⟩
    | _ => cases h

theorem literalItem?_of_onlyPool? {items : List Node} (h : onlyPool? items = none) :
    literalItem? items = none := by
  cases hitem : literalItem? items with
  | none => rfl
  | some p => rw [onlyPool?_of_literalItem? hitem] at h; cases h

/-- A keep that is no group stands for no dice. -/
theorem definingId?_keep {kind : KeepKind} {count : UInt32} {items : List Node}
    (h : literalItem? items = none) : (keep kind count items).definingId? = none := by
  match items with
  | [] => rfl
  | [item] =>
    cases item with
    | dice d id modifier => cases h
    | _ => rfl
  | _ :: _ :: _ => rfl

/-! ## 2. Parts of a node -/

theorem mem_subterms_self (node : Node) : node ∈ node.subterms := by
  cases node <;> simp [subterms]

theorem mem_subtermsAll {nodes : List Node} {n : Node} :
    n ∈ subtermsAll nodes ↔ ∃ node ∈ nodes, n ∈ node.subterms := by
  induction nodes with
  | nil => simp [subtermsAll]
  | cons node rest ih => simp [subtermsAll, ih]

/-- The nodes that a node is directly made of. -/
def parts : Node → List Node
  | number _ | dice _ _ _ | reference _ _ => []
  | keep _ _ items => items
  | comparison _ left right => [left, right]
  | conditional condition ifTrue ifFalse => [condition, ifTrue, ifFalse]
  | binary _ left right => [left, right]
  | double inner => [inner]
  | switch normal critical => [normal, critical]
  | only inner => [inner]
  | function _ args => args
  | group inner => [inner]

theorem sizeOf_lt_of_mem_parts {node part : Node} (h : part ∈ node.parts) :
    sizeOf part < sizeOf node := by
  cases node with
  | keep kind count items =>
    have hlt : sizeOf part < sizeOf items := List.sizeOf_lt_of_mem h
    simp only [keep.sizeOf_spec]
    omega
  | function name args =>
    have hlt : sizeOf part < sizeOf args := List.sizeOf_lt_of_mem h
    simp only [function.sizeOf_spec]
    omega
  | number value => cases h
  | dice d id modifier => cases h
  | reference id critical => cases h
  | _ =>
    simp only [parts, List.mem_cons, List.not_mem_nil, or_false] at h
    grind

/-- What holds of a node whenever it holds of its parts holds of all nodes. -/
theorem parts_induction {P : Node → Prop} (h : ∀ node, (∀ part ∈ node.parts, P part) → P node)
    (node : Node) : P node :=
  h node fun part hpart =>
    have := sizeOf_lt_of_mem_parts hpart
    parts_induction h part
termination_by sizeOf node

theorem subterms_eq_parts (node : Node) : node.subterms = node :: subtermsAll node.parts := by
  cases node <;> simp [subterms, subtermsAll, parts]

/-- The parts of a part are parts. -/
theorem subterms_subset_of_mem_parts {node part : Node} (h : part ∈ node.parts) :
    part.subterms ⊆ node.subterms := by
  intro n hn
  rw [subterms_eq_parts]
  exact List.mem_cons_of_mem _ (mem_subtermsAll.2 ⟨part, h, hn⟩)

/-- The parts of a part are parts, however deep it stands. -/
theorem subterms_subset_of_mem {node n : Node} (h : n ∈ node.subterms) :
    n.subterms ⊆ node.subterms := by
  induction node using parts_induction with
  | h node ih =>
  rw [subterms_eq_parts, List.mem_cons] at h
  rcases h with rfl | h
  · exact List.Subset.refl _
  · obtain ⟨part, hpart, h⟩ := mem_subtermsAll.1 h
    exact List.Subset.trans (ih part hpart h) (subterms_subset_of_mem_parts hpart)

/-- What is inside the parentheses of a node is one of its parts. -/
theorem stripGroups_mem_subterms (node : Node) : node.stripGroups ∈ node.subterms := by
  induction node using stripGroups.induct with
  | case1 inner ih =>
    rw [subterms]
    exact List.mem_cons_of_mem _ ih
  | case2 node hnode =>
    rw [stripGroups]
    · exact node.mem_subterms_self
    · exact hnode

/-- A comparison in parentheses is a part of the node. -/
theorem mem_subterms_of_comparison? {node left right : Node} {relation : Relation}
    (h : node.comparison? = some (relation, left, right)) :
    comparison relation left right ∈ node.subterms := by
  have hstrip := node.stripGroups_mem_subterms
  unfold comparison? at h
  split at h
  · next heq =>
    cases h
    rwa [heq] at hstrip
  · cases h

/-! ## 3. Nodes next to the dice -/

/-- Nodes that are not made of independent parts: dice, references, and what acts on the single
dice of a literal. -/
inductive Leaf : Node → Prop where
  | dice (d : Dice) (id : Option ℕ) (modifier : Option Modifier) : Leaf (.dice d id modifier)
  | reference (id : UInt32) (critical : Bool) : Leaf (.reference id critical)
  | keep (kind : KeepKind) (count : UInt32) {items : List Node} {p : Pool}
      (h : onlyPool? items = some p) : Leaf (.keep kind count items)
  | function (name : FunctionName) {target : Node} (bound : Float) {p : Pool}
      (h : eachPool? name target = some p) : Leaf (.function name [target, .number bound])

/-- Formulas built from leaves by constructs that combine independent parts. -/
inductive Built (leaf : Node → Prop) : Node → Prop where
  | leaf {node : Node} (h : leaf node) : Built leaf node
  | number (value : Float) : Built leaf (.number value)
  | keep (kind : KeepKind) (count : UInt32) {items : List Node} (honly : onlyPool? items = none)
      (h : ∀ item ∈ items, Built leaf item) : Built leaf (.keep kind count items)
  | binary (operation : Operation) {left right : Node} (hl : Built leaf left)
      (hr : Built leaf right) : Built leaf (.binary operation left right)
  | function (name : FunctionName) {target : Node} (bound : Float)
      (heach : eachPool? name target = none) (h : Built leaf target) :
      Built leaf (.function name [target, .number bound])
  | group {inner : Node} (h : Built leaf inner) : Built leaf (.group inner)

theorem mem_groupsAll {nodes : List Node} {g : Group} :
    g ∈ groupsAll nodes ↔ ∃ node ∈ nodes, g ∈ node.groups := by
  induction nodes with
  | nil => simp [groupsAll]
  | cons node rest ih => simp [groupsAll, ih]

/-- Every arithmetic formula is built from its leaves; the groups of a leaf are groups of the
formula. -/
theorem Arithmetic.built {leaf : Node → Prop} {node : Node} (h : node.Arithmetic)
    (hleaf : ∀ n ∈ node.subterms, n.groups ⊆ node.groups → n.Leaf → leaf n) :
    node.Built leaf := by
  induction h with
  | number value => exact .number value
  | dice d id modifier =>
    exact .leaf (hleaf _ (mem_subterms_self _) (List.Subset.refl _) (.dice d id modifier))
  | reference id critical =>
    exact .leaf (hleaf _ (mem_subterms_self _) (List.Subset.refl _) (.reference id critical))
  | @keep kind count items _ ih =>
    cases honly : onlyPool? items with
    | some p =>
      exact .leaf (hleaf _ (mem_subterms_self _) (List.Subset.refl _) (.keep kind count honly))
    | none =>
      refine .keep kind count honly fun item hitem => ih item hitem fun n hn hg => hleaf n ?_ ?_
      · rw [subterms]
        exact List.mem_cons_of_mem _ (mem_subtermsAll.2 ⟨item, hitem, hn⟩)
      · rw [groups, literalItem?_of_onlyPool? honly]
        exact fun g h => mem_groupsAll.2 ⟨item, hitem, hg h⟩
  | @binary operation left right _ _ ihl ihr =>
    refine .binary operation (ihl fun n hn hg => hleaf n ?_ ?_) (ihr fun n hn hg => hleaf n ?_ ?_)
    · rw [subterms]
      exact List.mem_cons_of_mem _ (List.mem_append_left _ hn)
    · rw [groups]
      exact fun g h => List.mem_append_left _ (hg h)
    · rw [subterms]
      exact List.mem_cons_of_mem _ (List.mem_append_right _ hn)
    · rw [groups]
      exact fun g h => List.mem_append_right _ (hg h)
  | @function name target bound _ ih =>
    cases heach : eachPool? name target with
    | some p =>
      exact .leaf (hleaf _ (mem_subterms_self _) (List.Subset.refl _) (.function name bound heach))
    | none =>
      refine .function name bound heach (ih fun n hn hg => hleaf n ?_ ?_)
      · rw [subterms]
        exact List.mem_cons_of_mem _ (mem_subtermsAll.2 ⟨target, List.mem_cons_self .., hn⟩)
      · rw [groups]
        exact fun g h => mem_groupsAll.2 ⟨target, List.mem_cons_self .., hg h⟩
  | @group inner _ ih =>
    refine .group (ih fun n hn hg => hleaf n ?_ ?_)
    · rw [subterms]
      exact List.mem_cons_of_mem _ hn
    · rw [groups]
      exact hg

mutual

/-- Every literal has a group. -/
theorem groups_pools : ∀ node : Node, node.groups.map Group.pool = node.pools
  | number _ => rfl
  | dice _ _ _ => rfl
  | reference _ _ => rfl
  | keep kind count items => by
    rw [groups, pools_keep]
    cases hitem : literalItem? items with
    | some p => exact (poolsAll_of_onlyPool? (onlyPool?_of_literalItem? hitem)).symm
    | none => exact groupsAll_pools items
  | comparison _ left right => by
    rw [groups, List.map_append, groups_pools left, groups_pools right, pools_comparison]
  | conditional condition ifTrue ifFalse => by
    rw [groups, List.map_append, List.map_append, groups_pools condition, groups_pools ifTrue,
      groups_pools ifFalse, pools_conditional]
  | binary _ left right => by
    rw [groups, List.map_append, groups_pools left, groups_pools right, pools_binary]
  | double inner => by rw [groups, groups_pools inner, pools_double]
  | switch normal critical => by
    rw [groups, List.map_append, groups_pools normal, groups_pools critical, pools_switch]
  | only inner => by rw [groups, groups_pools inner, pools_only]
  | function _ args => by rw [groups, groupsAll_pools args, pools_function]
  | group inner => by rw [groups, groups_pools inner, pools_group]

theorem groupsAll_pools : ∀ nodes : List Node, (groupsAll nodes).map Group.pool = poolsAll nodes
  | [] => rfl
  | node :: rest => by
    rw [groupsAll, List.map_append, groups_pools node, groupsAll_pools rest, poolsAll_cons]

end

mutual

/-- The groups of a formula are literals, or keeps around them. -/
theorem wellformed_of_mem_groups {g : Group} : ∀ node : Node, g ∈ node.groups → g.Wellformed
  | number _, h => nomatch h
  | dice d id modifier, h => List.mem_singleton.1 h ▸ .dice d id modifier
  | reference _ _, h => nomatch h
  | keep kind count items, h => by
    rw [groups] at h
    cases hitem : literalItem? items with
    | some p =>
      obtain ⟨id, rfl⟩ := eq_of_literalItem? hitem
      rw [hitem] at h
      exact List.mem_singleton.1 h ▸ .keep kind count p.dice id p.modifier
    | none =>
      rw [hitem] at h
      exact wellformed_of_mem_groupsAll items h
  | comparison _ left right, h => (List.mem_append.1 h).elim
      (wellformed_of_mem_groups left) (wellformed_of_mem_groups right)
  | conditional condition ifTrue ifFalse, h => (List.mem_append.1 h).elim
      (fun h => (List.mem_append.1 h).elim (wellformed_of_mem_groups condition)
        (wellformed_of_mem_groups ifTrue)) (wellformed_of_mem_groups ifFalse)
  | binary _ left right, h => (List.mem_append.1 h).elim
      (wellformed_of_mem_groups left) (wellformed_of_mem_groups right)
  | double inner, h => wellformed_of_mem_groups inner h
  | switch normal critical, h => (List.mem_append.1 h).elim
      (wellformed_of_mem_groups normal) (wellformed_of_mem_groups critical)
  | only inner, h => wellformed_of_mem_groups inner h
  | function _ args, h => wellformed_of_mem_groupsAll args h
  | group inner, h => wellformed_of_mem_groups inner h

theorem wellformed_of_mem_groupsAll {g : Group} :
    ∀ nodes : List Node, g ∈ groupsAll nodes → g.Wellformed
  | [], h => nomatch h
  | node :: rest, h => (List.mem_append.1 h).elim
      (wellformed_of_mem_groups node) (wellformed_of_mem_groupsAll rest)

end

/-! ## 4. Nodes that stand for dice -/

/-- Whether the node is a literal, or a keep with a literal as its only item. -/
def standsForDice : Node → Bool
  | dice _ _ _ => true
  | keep _ _ items => (literalItem? items).isSome
  | _ => false

theorem exists_group {node : Node} (h : node.standsForDice = true) :
    ∃ g, g.node = node ∧ g.Wellformed ∧ node.groups = [g] := by
  cases node with
  | dice d id modifier => exact ⟨_, rfl, .dice d id modifier, rfl⟩
  | keep kind count items =>
    obtain ⟨p, hp⟩ := Option.isSome_iff_exists.1 h
    obtain ⟨id, rfl⟩ := eq_of_literalItem? hp
    exact ⟨_, rfl, .keep kind count p.dice id p.modifier, rfl⟩
  | _ => cases h

theorem groups_eq_parts {node : Node} (h : node.standsForDice = false) :
    node.groups = groupsAll node.parts := by
  cases node with
  | dice d id modifier => cases h
  | keep kind count items =>
    have hitem : literalItem? items = none :=
      Option.isNone_iff_eq_none.1 (Option.isSome_eq_false_iff.1 h)
    rw [groups, hitem]
    rfl
  | _ => simp [groups, groupsAll, parts]

theorem definingId?_of_not_standsForDice {node : Node} (h : node.standsForDice = false) :
    node.definingId? = none := by
  cases node with
  | dice d id modifier => cases h
  | keep kind count items =>
    exact definingId?_keep (Option.isNone_iff_eq_none.1 (Option.isSome_eq_false_iff.1 h))
  | _ => rfl

end Node

end DiceOdds
