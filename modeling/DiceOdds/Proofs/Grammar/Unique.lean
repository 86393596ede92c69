import DiceOdds.Proofs.Grammar.Complete

/-!
# The parser accepts exactly its grammar

Soundness and completeness together: the tree of a list of tokens is the one tree that the grammar
derives for its lexemes, and a list without such a tree is refused.

## Why ids are left aside

A formula that refers to dice has its literals numbered, after it has been read.  The numbers say
nothing about the grammar; `withoutIds` forgets them, and the trees of the grammar have none.
-/

namespace DiceOdds

namespace Node

/-! ## 1. Forgetting ids -/

mutual

/-- The tree with no dice literal numbered. -/
def withoutIds : Node → Node
  | number value => number value
  | dice d _ modifier => dice d none modifier
  | reference id critical => reference id critical
  | keep kind count items => keep kind count (withoutIdsAll items)
  | comparison relation left right => comparison relation left.withoutIds right.withoutIds
  | conditional condition ifTrue ifFalse =>
    conditional condition.withoutIds ifTrue.withoutIds ifFalse.withoutIds
  | binary operation left right => binary operation left.withoutIds right.withoutIds
  | double inner => double inner.withoutIds
  | switch normal critical => switch normal.withoutIds critical.withoutIds
  | only inner => only inner.withoutIds
  | function name args => function name (withoutIdsAll args)
  | group inner => group inner.withoutIds

/-- The same for a list of trees. -/
def withoutIdsAll : List Node → List Node
  | [] => []
  | node :: rest => node.withoutIds :: withoutIdsAll rest

end

theorem withoutIdsAll_eq_map (nodes : List Node) : withoutIdsAll nodes = nodes.map withoutIds := by
  induction nodes with
  | nil => rfl
  | cons node rest ih => rw [withoutIdsAll, ih, List.map_cons]

mutual

theorem withoutIds_withIds : ∀ (node : Node) (n : ℕ),
    (node.withIds n).1.withoutIds = node.withoutIds
  | number _, _ => rfl
  | dice _ _ _, _ => rfl
  | reference _ _, _ => rfl
  | keep _ _ items, n => by
    rw [withIds, withoutIds, withoutIds, withoutIdsAll_withIdsAll items n]
  | comparison _ left right, n => by
    rw [withIds, withoutIds, withoutIds, withoutIds_withIds left, withoutIds_withIds right]
  | conditional condition ifTrue ifFalse, n => by
    rw [withIds, withoutIds, withoutIds, withoutIds_withIds condition, withoutIds_withIds ifTrue,
      withoutIds_withIds ifFalse]
  | binary _ left right, n => by
    rw [withIds, withoutIds, withoutIds, withoutIds_withIds left, withoutIds_withIds right]
  | double inner, n => by rw [withIds, withoutIds, withoutIds, withoutIds_withIds inner]
  | switch normal critical, n => by
    rw [withIds, withoutIds, withoutIds, withoutIds_withIds normal, withoutIds_withIds critical]
  | only inner, n => by rw [withIds, withoutIds, withoutIds, withoutIds_withIds inner]
  | function _ args, n => by
    rw [withIds, withoutIds, withoutIds, withoutIdsAll_withIdsAll args n]
  | group inner, n => by rw [withIds, withoutIds, withoutIds, withoutIds_withIds inner]

theorem withoutIdsAll_withIdsAll : ∀ (nodes : List Node) (n : ℕ),
    withoutIdsAll (withIdsAll nodes n).1 = withoutIdsAll nodes
  | [], _ => rfl
  | node :: rest, n => by
    rw [withIdsAll, withoutIdsAll, withoutIdsAll, withoutIds_withIds node,
      withoutIdsAll_withIdsAll rest]

end

mutual

/-- Forgetting ids changes each part for itself. -/
theorem subterms_withoutIds : ∀ node : Node,
    node.withoutIds.subterms = node.subterms.map withoutIds
  | number _ => rfl
  | dice _ _ _ => rfl
  | reference _ _ => rfl
  | keep _ _ items => by
    rw [withoutIds, subterms, subterms, subtermsAll_withoutIdsAll items, List.map_cons, withoutIds]
  | comparison _ left right => by
    simp only [withoutIds, subterms, subterms_withoutIds left, subterms_withoutIds right,
      List.map_cons, List.map_append]
  | conditional condition ifTrue ifFalse => by
    simp only [withoutIds, subterms, subterms_withoutIds condition, subterms_withoutIds ifTrue,
      subterms_withoutIds ifFalse, List.map_cons, List.map_append]
  | binary _ left right => by
    simp only [withoutIds, subterms, subterms_withoutIds left, subterms_withoutIds right,
      List.map_cons, List.map_append]
  | double inner => by
    rw [withoutIds, subterms, subterms, subterms_withoutIds inner, List.map_cons, withoutIds]
  | switch normal critical => by
    simp only [withoutIds, subterms, subterms_withoutIds normal, subterms_withoutIds critical,
      List.map_cons, List.map_append]
  | only inner => by
    rw [withoutIds, subterms, subterms, subterms_withoutIds inner, List.map_cons, withoutIds]
  | function _ args => by
    rw [withoutIds, subterms, subterms, subtermsAll_withoutIdsAll args, List.map_cons, withoutIds]
  | group inner => by
    rw [withoutIds, subterms, subterms, subterms_withoutIds inner, List.map_cons, withoutIds]

theorem subtermsAll_withoutIdsAll : ∀ nodes : List Node,
    subtermsAll (withoutIdsAll nodes) = (subtermsAll nodes).map withoutIds
  | [] => rfl
  | node :: rest => by
    rw [withoutIdsAll, subtermsAll, subtermsAll, subterms_withoutIds node,
      subtermsAll_withoutIdsAll rest, List.map_append]

end

end Node

/-- The trees of the grammar have no ids. -/
theorem Derives.withoutIds_eq {l : Level} {w : List Lexeme} {a : Node} (h : Derives l w a) :
    a.withoutIds = a := by
  induction h with
  | number | dice | reference | modified => rfl
  | keep kind count _ _ iha ihparts =>
    rw [Node.withoutIds, Node.withoutIdsAll, iha, Node.withoutIdsAll_eq_map, List.map_map]
    exact congrArg (fun items => Node.keep kind count (_ :: items)) (List.map_congr_left ihparts)
  | function name _ _ iha ihb =>
    rw [Node.withoutIds, Node.withoutIdsAll, Node.withoutIdsAll, Node.withoutIdsAll, iha, ihb]
  | group _ ih | double _ ih | only _ ih => rw [Node.withoutIds, ih]
  | switch _ _ iha ihb => rw [Node.withoutIds, iha, ihb]
  | ofAtom _ ih | ofFactor _ ih | ofMultiplicative _ ih | ofAdditive _ ih | ofComparison _ ih =>
    exact ih
  | product _ _ _ iha ihb | sum _ _ _ iha ihb | comparison _ _ _ iha ihb =>
    rw [Node.withoutIds, iha, ihb]
  | conditional _ _ _ _ ihc iha ihb => rw [Node.withoutIds, ihc, iha, ihb]

theorem Formula.withoutIds_ofNode (root : Node) :
    (Formula.ofNode root).root.withoutIds = root.withoutIds := by
  unfold ofNode
  split
  · exact root.withoutIds_withIds 1
  · rfl

/-! ## 2. Trees of lists of tokens -/

theorem Node.ofTokens_eq_ok_iff {ts : List Token} {a : Node} :
    Node.ofTokens ts = .ok a ↔ Derives .conditional (lexemes ts) a := by
  cases ts with
  | nil => exact ⟨nofun, fun h => absurd rfl h.ne_nil⟩
  | cons t ts =>
    constructor
    · intro h
      obtain ⟨⟨node, rest⟩, hnode, hend⟩ := bind_eq_ok.1 h
      obtain ⟨used, hused, hd⟩ := Parser.conditional_sound _ _ _ _ hnode
      cases rest with
      | nil =>
        cases pure_eq_ok.1 hend
        rwa [hused, List.append_nil]
      | cons t' rest => cases hend
    · intro h
      have hread : Parser.conditional (ts.length + 1) (t :: ts ++ []) = .ok (a, []) :=
        Parser.reads_of_derives h ts.length (t :: ts) [] rfl (by simp [lexemes])
          (Level.endsAt_nil _)
      rw [List.append_nil] at hread
      rw [ofTokens]
      · change (Parser.conditional (ts.length + 1) (t :: ts) >>= _) = _
        rw [hread]
        rfl
      · simp

/-- No word has two trees. -/
theorem Derives.unique {w : List Lexeme} {a b : Node} (ha : Derives .conditional w a)
    (hb : Derives .conditional w b) : a = b := by
  have hw : lexemes (w.map (⟨·, 0⟩)) = w := by
    rw [lexemes, List.map_map]
    exact List.map_id' w
  rw [← hw] at ha hb
  exact Except.ok.inj ((Node.ofTokens_eq_ok_iff.2 ha).symm.trans (Node.ofTokens_eq_ok_iff.2 hb))

/-- **The parser accepts exactly its grammar.**  A tree is what a list of tokens is read as, ids
aside, if and only if it is derived from the lexemes of the list; there is at most one such tree;
and a list is either derived or refused. -/
theorem Formula.ofTokens_exact (ts : List Token) :
    (∀ r, (∃ f, Formula.ofTokens ts = .ok f ∧ f.root.withoutIds = r)
        ↔ Derives .conditional (lexemes ts) r)
      ∧ {r | Derives .conditional (lexemes ts) r}.Subsingleton
      ∧ ((∃ r, Derives .conditional (lexemes ts) r) ∨ ∃ e, Formula.ofTokens ts = .error e) := by
  have hfound : ∀ {a}, Node.ofTokens ts = .ok a → Formula.ofTokens ts = .ok (Formula.ofNode a) := by
    intro a ha
    rw [Formula.ofTokens, ha]
    rfl
  refine ⟨fun r => ⟨?_, fun h => ?_⟩, fun a ha b hb => ha.unique hb, ?_⟩
  · rintro ⟨f, hf, rfl⟩
    cases hnode : Node.ofTokens ts with
    | error e =>
      rw [Formula.ofTokens, hnode] at hf
      cases hf
    | ok a =>
      rw [hfound hnode] at hf
      cases hf
      have hd := Node.ofTokens_eq_ok_iff.1 hnode
      rwa [Formula.withoutIds_ofNode, hd.withoutIds_eq]
  · refine ⟨_, hfound (Node.ofTokens_eq_ok_iff.2 h), ?_⟩
    rw [Formula.withoutIds_ofNode, h.withoutIds_eq]
  · cases hnode : Node.ofTokens ts with
    | error e =>
      refine .inr ⟨e, ?_⟩
      rw [Formula.ofTokens, hnode]
      rfl
    | ok a => exact .inl ⟨a, Node.ofTokens_eq_ok_iff.1 hnode⟩

/-- `2d6r1*3`: the modifier belongs to the dice alone, and rerolls once if no limit is written. -/
example : Derives .conditional
    [.dice ⟨2, 6, false⟩, .modifier (.reroll ⟨1, none⟩ none), .symbol .star, .number 3]
    (.binary .mul (.dice ⟨2, 6, false⟩ none (some (.reroll ⟨1, 1⟩ 1))) (.number 3)) :=
  have hdice := Derives.modified ⟨2, 6, false⟩ (.reroll (.toLast 1) .leftOut)
  .ofComparison (.ofAdditive (.ofMultiplicative
    (.product (.ofFactor hdice) .star (.ofAtom (.number 3)))))

example : Formula.ofTokens [⟨.dice ⟨2, 6, false⟩, 0⟩, ⟨.modifier (.reroll ⟨1, none⟩ none), 3⟩,
      ⟨.symbol .star, 5⟩, ⟨.number 3, 6⟩]
    = .ok (.ofNode (.binary .mul (.dice ⟨2, 6, false⟩ none (some (.reroll ⟨1, 1⟩ 1)))
        (.number 3))) := rfl

end DiceOdds
