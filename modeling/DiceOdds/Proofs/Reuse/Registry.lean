import DiceOdds.Proofs.Reuse.Numbering

/-!
# The registry of a list of tokens

What the parser hands to the evaluation of a formula with references: the tree with its literals
numbered, and the registry.  Both are known from the tokens.  The dice tokens, in their order, are
the literals of the tree and the entries of the registry, and the node that is looked up for an id
is the literal with that id, or the keep that stands directly around it.

## Why rolls and references are followed together

Whether a formula refers to dice is asked of its tree, and the tree is known from the tokens only
through the grammar.  `DiceUse` is what a token and a node have in common, so one induction over
derivations answers both questions: which dice there are, and whether something refers to them.
-/

namespace DiceOdds

/-! ## 1. What tokens say about dice -/

/-- How a formula uses dice in one place: it rolls them, or it refers to them. -/
inductive DiceUse where
  | roll (dice : Dice)
  | reference (id : UInt32) (critical : Bool)

namespace DiceUse

/-- The dice that are rolled. -/
def dice? : DiceUse → Option Dice
  | roll d => some d
  | reference _ _ => none

def isReference : DiceUse → Bool
  | roll _ => false
  | reference _ _ => true

end DiceUse

/-- What a lexeme says about dice. -/
def Lexeme.diceUse? : Lexeme → Option DiceUse
  | dice d => some (.roll d)
  | reference id critical => some (.reference id critical)
  | _ => none

/-- The dice that a list of tokens rolls, in order. -/
def diceOf (ts : List Token) : List Dice :=
  ((lexemes ts).filterMap Lexeme.diceUse?).filterMap DiceUse.dice?

/-- Whether a list of tokens refers to dice. -/
def refersToDice (ts : List Token) : Bool :=
  ((lexemes ts).filterMap Lexeme.diceUse?).any DiceUse.isReference

namespace Node

/-- What a node itself says about dice. -/
def diceUse? : Node → Option DiceUse
  | dice d _ _ => some (.roll d)
  | reference id critical => some (.reference id critical)
  | _ => none

/-- What a tree says about dice, in source order. -/
def diceUses (node : Node) : List DiceUse := node.subterms.filterMap diceUse?

/-- What the trees of a list say about dice. -/
def diceUsesAll (nodes : List Node) : List DiceUse := nodes.flatMap diceUses

theorem filterMap_subtermsAll (nodes : List Node) :
    (subtermsAll nodes).filterMap diceUse? = diceUsesAll nodes := by
  induction nodes with
  | nil => rfl
  | cons node rest ih =>
    rw [subtermsAll, List.filterMap_append, ih, diceUsesAll, diceUsesAll, List.flatMap_cons]
    rfl

/-- A node that uses no dice itself uses those of its parts. -/
theorem diceUses_eq_parts {node : Node} (h : node.diceUse? = none) :
    node.diceUses = diceUsesAll node.parts := by
  rw [diceUses, subterms_eq_parts, List.filterMap_cons_none h, filterMap_subtermsAll]

theorem literals_eq_diceUses (node : Node) :
    node.literals = node.diceUses.filterMap DiceUse.dice? := by
  rw [diceUses, List.filterMap_filterMap, literals]
  congr 1
  funext n
  cases n <;> rfl

theorem hasReference_eq_diceUses (node : Node) :
    node.hasReference = node.diceUses.any DiceUse.isReference := by
  rw [diceUses, List.any_filterMap, hasReference]
  congr 1
  funext n
  cases n <;> rfl

end Node

theorem Multiplies.diceUse?_eq {x : Lexeme} {operation : Operation} (h : Multiplies x operation) :
    x.diceUse? = none := by
  cases h <;> rfl

theorem Adds.diceUse?_eq {x : Lexeme} {operation : Operation} (h : Adds x operation) :
    x.diceUse? = none := by
  cases h <;> rfl

/-- **A word and its tree use the same dice** in the same order. -/
theorem Derives.diceUses_eq {l : Level} {w : List Lexeme} {a : Node} (h : Derives l w a) :
    a.diceUses = w.filterMap Lexeme.diceUse? := by
  induction h with
  | number | dice | reference | modified => rfl
  | ofAtom _ ih | ofFactor _ ih | ofMultiplicative _ ih | ofAdditive _ ih | ofComparison _ ih =>
    exact ih
  | @keep kind count u a parts _ _ iha ihparts =>
    have hseparated : Node.diceUsesAll (parts.map (·.2))
        = (separated .semicolon parts).filterMap Lexeme.diceUse? := by
      rw [Node.diceUsesAll, List.flatMap_map, separated, List.filterMap_flatMap]
      exact List.flatMap_congr fun part hpart => ihparts part hpart
    rw [Node.diceUses_eq_parts rfl, Node.parts, Node.diceUsesAll, List.flatMap_cons, iha,
      ← Node.diceUsesAll, hseparated]
    simp [List.filterMap_cons, Lexeme.diceUse?]
  | function _ _ _ iha ihb | switch _ _ iha ihb | comparison _ _ _ iha ihb =>
    rw [Node.diceUses_eq_parts rfl]
    simp [Node.parts, Node.diceUsesAll, List.filterMap_cons, Lexeme.diceUse?, iha, ihb]
  | group _ ih | double _ ih | only _ ih =>
    rw [Node.diceUses_eq_parts rfl]
    simp [Node.parts, Node.diceUsesAll, List.filterMap_cons, Lexeme.diceUse?, ih]
  | product _ hx _ iha ihb =>
    rw [Node.diceUses_eq_parts rfl]
    simp [Node.parts, Node.diceUsesAll, hx.diceUse?_eq, iha, ihb]
  | sum _ hx _ iha ihb =>
    rw [Node.diceUses_eq_parts rfl]
    simp [Node.parts, Node.diceUsesAll, hx.diceUse?_eq, iha, ihb]
  | conditional _ _ _ _ ihc iha ihb =>
    rw [Node.diceUses_eq_parts rfl]
    simp [Node.parts, Node.diceUsesAll, List.filterMap_cons, Lexeme.diceUse?, ihc, iha, ihb]

/-! ## 2. Literals and definitions -/

/-- The literal of a group, with the id of the dice. -/
def Group.literal (g : Group) : Node := .dice g.pool.dice g.node.definingId? g.pool.modifier

theorem Group.Wellformed.node_eq {g : Group} (h : g.Wellformed) :
    g.node = g.literal ∨ ∃ kind count, g.node = .keep kind count [g.literal] := by
  cases h with
  | dice d id modifier => exact .inl rfl
  | keep kind count d id modifier => exact .inr ⟨kind, count, rfl⟩

namespace Node

/-- The dice literals of a tree, in source order. -/
def literalNodes (node : Node) : List Node := node.subterms.filter fun n => n.literal?.isSome

/-- The dice literals of a list of trees. -/
def literalNodesAll (nodes : List Node) : List Node := nodes.flatMap literalNodes

theorem filter_subtermsAll (nodes : List Node) :
    (subtermsAll nodes).filter (fun n => n.literal?.isSome) = literalNodesAll nodes := by
  induction nodes with
  | nil => rfl
  | cons node rest ih =>
    rw [subtermsAll, List.filter_append, ih, literalNodesAll, literalNodesAll, List.flatMap_cons]
    rfl

/-- A node that is no literal has those of its parts. -/
theorem literalNodes_eq_parts {node : Node} (h : node.literal? = none) :
    node.literalNodes = literalNodesAll node.parts := by
  rw [literalNodes, subterms_eq_parts, List.filter_cons_of_neg (by simp [h]), filter_subtermsAll]

theorem groupsAll_eq_flatMap (nodes : List Node) : groupsAll nodes = nodes.flatMap groups := by
  induction nodes with
  | nil => rfl
  | cons node rest ih => rw [groupsAll, ih, List.flatMap_cons]

/-- **Every literal has one group**, and the groups come in the order of their literals. -/
theorem literalNodes_eq_groups (node : Node) :
    node.literalNodes = node.groups.map Group.literal := by
  induction node using parts_induction with
  | h node ih =>
  cases hstands : node.standsForDice with
  | true =>
    cases node with
    | dice d id modifier => rfl
    | keep kind count items =>
      obtain ⟨p, hp⟩ := Option.isSome_iff_exists.1 hstands
      obtain ⟨id, rfl⟩ := eq_of_literalItem? hp
      rfl
    | _ => cases hstands
  | false =>
    have hliteral : node.literal? = none := by
      cases node with
      | dice d id modifier => cases hstands
      | _ => rfl
    rw [literalNodes_eq_parts hliteral, groups_eq_parts hstands, groupsAll_eq_flatMap,
      List.map_flatMap]
    exact List.flatMap_congr ih

/-- A keep directly around a literal is the node of a group. -/
theorem exists_group_of_keep {node : Node} {kind : KeepKind} {count : UInt32} {d : Dice}
    {id : Option ℕ} {modifier : Option Modifier}
    (h : .keep kind count [.dice d id modifier] ∈ node.subterms) :
    ∃ g ∈ node.groups, g.node = .keep kind count [.dice d id modifier] := by
  induction node using parts_induction with
  | h node ih =>
  rw [subterms_eq_parts, List.mem_cons] at h
  rcases h with rfl | h
  · exact ⟨_, List.mem_singleton.2 rfl, rfl⟩
  · obtain ⟨part, hpart, h⟩ := mem_subtermsAll.1 h
    obtain ⟨g, hg, hnode⟩ := ih part hpart h
    cases hstands : node.standsForDice with
    | true =>
      -- the only part of such a node is a literal, which has no parts
      cases node with
      | dice d id modifier => cases hpart
      | keep kind count items =>
        obtain ⟨p, hp⟩ := Option.isSome_iff_exists.1 hstands
        obtain ⟨id, rfl⟩ := eq_of_literalItem? hp
        obtain rfl := List.mem_singleton.1 hpart
        simp [subterms] at h
      | _ => cases hstands
    | false =>
      rw [groups_eq_parts hstands]
      exact ⟨g, mem_groupsAll.2 ⟨part, hpart, hg⟩, hnode⟩

end Node

/-! ## 3. Formulas -/

/-- What a formula with references knows about its dice, given the dice that its text rolls. -/
structure Formula.Registers (f : Formula) (dice : List Dice) : Prop where
  registry : f.registry = dice
  /-- There are as many literals as entries. -/
  length : f.root.literalNodes.length = f.registry.length
  /-- Each literal has its place as its id and the dice of its entry; what is looked up for the id
  is the keep directly around the literal, or else the literal. -/
  entry : ∀ i d, f.registry.get? i = some d → ∃ modifier,
    f.root.literalNodes[i - 1]? = some (.dice d (some i) modifier)
      ∧ (∀ kind count, .keep kind count [.dice d (some i) modifier] ∈ f.root.subterms →
          f.root.definition? i = some (.keep kind count [.dice d (some i) modifier]))
      ∧ ((∀ kind count, .keep kind count [.dice d (some i) modifier] ∉ f.root.subterms) →
          f.root.definition? i = some (.dice d (some i) modifier))
  /-- Different ids have different definitions. -/
  injective : ∀ i j, f.registry.get? i ≠ none → f.registry.get? j ≠ none → i ≠ j →
    f.root.definition? i ≠ f.root.definition? j

namespace Node

variable {root : Node}

/-- An entry of the registry belongs to the group in its place. -/
theorem Numbered.literal_eq (h : root.Numbered) {k : ℕ} (hk : k < root.groups.length) :
    root.groups[k].literal
      = .dice root.groups[k].pool.dice (some (k + 1)) root.groups[k].pool.modifier := by
  rw [Group.literal, h.definingId?_getElem hk]

/-- A group with the id of some place is the group in that place. -/
theorem Numbered.getElem_of_mem (h : root.Numbered) {g : Group} (hg : g ∈ root.groups) {k : ℕ}
    (hid : g.node.definingId? = some (k + 1)) (hk : k < root.groups.length) :
    g = root.groups[k] := by
  obtain ⟨j, hj, rfl⟩ := List.mem_iff_getElem.1 hg
  rw [h.definingId?_getElem hj] at hid
  obtain rfl : j = k := by simpa using hid
  rfl

/-- The node of a group is the keep directly around its literal, if there is one. -/
theorem Numbered.node_eq_keep (h : root.Numbered) {k : ℕ} (hk : k < root.groups.length)
    {kind : KeepKind} {count : UInt32}
    (hkeep : .keep kind count [root.groups[k].literal] ∈ root.subterms) :
    root.groups[k].node = .keep kind count [root.groups[k].literal] := by
  rw [h.literal_eq hk] at hkeep ⊢
  obtain ⟨g, hg, hnode⟩ := exists_group_of_keep hkeep
  rw [← hnode, h.getElem_of_mem hg (by rw [hnode]; rfl) hk]

/-- Otherwise it is the literal. -/
theorem Numbered.node_eq_literal (h : root.Numbered) {k : ℕ} (hk : k < root.groups.length)
    (hkeep : ∀ kind count, .keep kind count [root.groups[k].literal] ∉ root.subterms) :
    root.groups[k].node = root.groups[k].literal := by
  have hg : root.groups[k] ∈ root.groups := List.getElem_mem hk
  rcases (wellformed_of_mem_groups root hg).node_eq with hnode | ⟨kind, count, hnode⟩
  · exact hnode
  · exact absurd (hnode ▸ definition?_mem (h.definition?_eq hk)) (hkeep kind count)

end Node

/-- Every entry of a registry has a place. -/
theorem Registry.get?_eq_some {registry : Registry} {i : ℕ} {d : Dice} :
    registry.get? i = some d ↔ ∃ k, i = k + 1 ∧ registry[k]? = some d := by
  cases i with
  | zero => simp [get?]
  | succ k => simp [get?]

/-- The formula of a tree that refers to dice. -/
theorem Formula.registers_ofNode {root : Node} (h : root.hasReference = true) :
    (Formula.ofNode root).Registers root.literals := by
  have hnumbered := root.numbered_withIds
  rw [ofNode, if_pos h]
  set r := (root.withIds 1).1
  have hdice : root.literals = r.groups.map fun g => g.pool.dice := by
    have hliteral : Node.literal? = fun n => n.pool?.map Pool.dice := by
      funext n
      cases n <;> rfl
    rw [Node.literals, hliteral, ← List.map_filterMap, ← Node.pools, ← root.pools_withIds 1,
      ← Node.groups_pools, List.map_map]
    rfl
  have hplace : ∀ i d, Registry.get? root.literals i = some d →
      ∃ k, ∃ hk : k < r.groups.length, i = k + 1 ∧ d = r.groups[k].pool.dice := by
    intro i d hd
    obtain ⟨k, rfl, hget⟩ := Registry.get?_eq_some.1 hd
    obtain ⟨hk, hget⟩ := List.getElem?_eq_some_iff.1 hget
    simp only [hdice, List.getElem_map, List.length_map] at hk hget
    exact ⟨k, hk, rfl, hget.symm⟩
  refine ⟨rfl, ?_, fun i d hd => ?_, fun i j hi _ hij heq => ?_⟩
  · rw [Node.literalNodes_eq_groups, hdice, List.length_map, List.length_map]
  · obtain ⟨k, hk, rfl, rfl⟩ := hplace i d hd
    refine ⟨r.groups[k].pool.modifier, ?_⟩
    rw [← hnumbered.literal_eq hk, Node.literalNodes_eq_groups, hnumbered.definition?_eq hk]
    refine ⟨?_, fun kind count hkeep => ?_, fun hkeep => ?_⟩
    · rw [Nat.add_sub_cancel, List.getElem?_map, List.getElem?_eq_getElem hk]
      rfl
    · rw [hnumbered.node_eq_keep hk hkeep]
    · rw [hnumbered.node_eq_literal hk hkeep]
  · obtain ⟨d, hd⟩ := Option.ne_none_iff_exists'.1 hi
    obtain ⟨k, hk, rfl, -⟩ := hplace i d hd
    have hnode := hnumbered.definition?_eq hk
    have hid := (Node.definingId?_of_definition? hnode).symm.trans
      (Node.definingId?_of_definition? (heq.symm.trans hnode))
    exact hij (Option.some.inj hid)

/-- The formula of a tree of the grammar without references. -/
theorem Formula.ofNode_of_not_hasReference {l : Level} {w : List Lexeme} {root : Node}
    (hd : Derives l w root) (h : root.hasReference = false) :
    (Formula.ofNode root).registry = []
      ∧ ∀ n ∈ (Formula.ofNode root).root.subterms, n.literalId? = none := by
  rw [ofNode, if_neg (by simp [h])]
  refine ⟨rfl, fun n hn => ?_⟩
  rw [← hd.withoutIds_eq, Node.subterms_withoutIds] at hn
  obtain ⟨m, -, rfl⟩ := List.mem_map.1 hn
  cases m <;> rfl

/-- **The registry of a formula.**  If the tokens of a formula refer to dice, the dice that they
roll are the entries of the registry, in their order; the literals of the tree have these dice and
are numbered like the entries; and each id has a definition of its own: the keep that has the
literal as its only item, or else the literal.  If they refer to no dice, no literal has an id and
the registry is empty. -/
theorem Formula.registry_ofTokens {ts : List Token} {f : Formula}
    (h : Formula.ofTokens ts = .ok f) :
    (refersToDice ts = true → f.Registers (diceOf ts))
      ∧ (refersToDice ts = false →
        f.registry = [] ∧ ∀ n ∈ f.root.subterms, n.literalId? = none) := by
  obtain ⟨root, hroot, rfl⟩ : ∃ root, Node.ofTokens ts = .ok root ∧ f = ofNode root := by
    rw [ofTokens] at h
    cases hroot : Node.ofTokens ts with
    | error e => rw [hroot] at h; cases h
    | ok root =>
      rw [hroot] at h
      exact ⟨root, rfl, (Except.ok.inj h).symm⟩
  have hd := Node.ofTokens_eq_ok_iff.1 hroot
  have hrefers : refersToDice ts = root.hasReference := by
    rw [refersToDice, ← hd.diceUses_eq, root.hasReference_eq_diceUses]
  have hdice : diceOf ts = root.literals := by
    rw [diceOf, ← hd.diceUses_eq, root.literals_eq_diceUses]
  rw [hrefers, hdice]
  exact ⟨registers_ofNode, ofNode_of_not_hasReference hd⟩

/-- `kh(2d6)+D8r1*d_1`: a keep that stands for its dice, a rerolled literal, and a reference. -/
def keptAndReferred : List Token :=
  [⟨.keep .highest 1, 0⟩, ⟨.symbol .leftParen, 2⟩, ⟨.dice ⟨2, 6, false⟩, 3⟩,
    ⟨.symbol .rightParen, 6⟩, ⟨.symbol .plus, 7⟩, ⟨.dice ⟨1, 8, true⟩, 8⟩,
    ⟨.modifier (.reroll ⟨1, none⟩ none), 10⟩, ⟨.symbol .star, 12⟩, ⟨.reference 1 false, 13⟩]

set_option maxRecDepth 4000 in
theorem registry_ofTokens_keptAndReferred :
    (∃ f, tokenize "kh(2d6)+D8r1*d_1" = .ok keptAndReferred
        ∧ Formula.ofTokens keptAndReferred = .ok f
        ∧ f.Registers [⟨2, 6, false⟩, ⟨1, 8, true⟩]
        ∧ f.root.definition? 1 = some (.keep .highest 1 [.dice ⟨2, 6, false⟩ (some 1) none])
        ∧ f.root.definition? 2
          = some (.dice ⟨1, 8, true⟩ (some 2) (some (.reroll ⟨1, 1⟩ defaultRerollLimit))))
      ∧ ∃ f, Formula.ofTokens [⟨.dice ⟨2, 6, false⟩, 0⟩] = .ok f ∧ f.registry = []
        ∧ ∀ n ∈ f.root.subterms, n.literalId? = none := by
  have hkept : ∃ f, Formula.ofTokens keptAndReferred = .ok f := ⟨_, rfl⟩
  have hplain : Formula.ofTokens [⟨.dice ⟨2, 6, false⟩, 0⟩]
      = .ok ⟨.dice ⟨2, 6, false⟩ none none, []⟩ := rfl
  refine ⟨?_, _, hplain, (Formula.registry_ofTokens hplain).2 rfl⟩
  obtain ⟨f, hf⟩ := hkept
  refine ⟨f, by decide +kernel, hf, (Formula.registry_ofTokens hf).1 rfl, ?_⟩
  cases hf
  exact ⟨rfl, rfl⟩

end DiceOdds
