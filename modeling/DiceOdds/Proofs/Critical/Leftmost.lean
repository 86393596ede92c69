import DiceOdds.Proofs.Critical.Marks
import DiceOdds.Proofs.Reuse.Deciding

/-!
# The leftmost dice

Where no dice are marked as critical, the first literal of a check decides.  It is looked for in three
ways: marking goes through the constructors of a tree, while the leftmost id and the question whether
there are critical dice go through the list of all parts.  They find the same literal.

## Why the literals are listed

Two trees that differ in marks only are told apart by the list of their literals.  So what marking
does is said in two halves: without marks the tree is the same, and of the literals in source order
the first one is marked (`FirstMarked`).  A node that is no literal only passes the question on to its
parts, one after the other (`markLeftmost?_eq_parts`), so one step covers all constructors.
-/

namespace DiceOdds

namespace Node

/-! ## 1. Parts put in place of parts -/

/-- The node with other parts, as many as it had before. -/
def withParts : Node → List Node → Node
  | keep kind count _, items => keep kind count items
  | comparison relation _ _, [left, right] => comparison relation left right
  | conditional _ _ _, [condition, ifTrue, ifFalse] => conditional condition ifTrue ifFalse
  | binary operation _ _, [left, right] => binary operation left right
  | double _, [inner] => double inner
  | switch _ _, [normal, critical] => switch normal critical
  | only _, [inner] => only inner
  | function name _, args => function name args
  | group _, [inner] => group inner
  | node, _ => node

@[simp] theorem withParts_parts (node : Node) : node.withParts node.parts = node := by
  cases node <;> rfl

theorem parts_withParts {node : Node} {nodes : List Node}
    (h : nodes.length = node.parts.length) : (node.withParts nodes).parts = nodes := by
  cases node with
  | keep kind count items => rfl
  | function name args => rfl
  | number _ | dice _ _ _ | reference _ _ =>
    obtain rfl := List.length_eq_zero_iff.1 h
    rfl
  | double _ | only _ | group _ =>
    obtain ⟨inner, rfl⟩ := List.length_eq_one_iff.1 h
    rfl
  | comparison _ _ _ | binary _ _ _ | switch _ _ =>
    obtain ⟨left, right, rfl⟩ := List.length_eq_two.1 h
    rfl
  | conditional _ _ _ =>
    obtain ⟨condition, ifTrue, ifFalse, rfl⟩ := List.length_eq_three.1 h
    rfl

theorem literal?_withParts (node : Node) (nodes : List Node) :
    (node.withParts nodes).literal? = node.literal? := by
  unfold withParts
  split <;> rfl

/-- A node that is no literal is marked by marking its parts. -/
theorem markLeftmost?_eq_parts {node : Node} (h : node.literal? = none) :
    node.markLeftmost? = (markLeftmostIn? node.parts).map node.withParts := by
  cases node with
  | dice d id modifier => cases h
  | number value => rfl
  | reference id critical => rfl
  | keep kind count items => rw [markLeftmost?]; rfl
  | function name args => rw [markLeftmost?]; rfl
  | comparison relation left right =>
    simp only [markLeftmost?, parts, markLeftmostIn?]
    cases left.markLeftmost? <;> cases right.markLeftmost? <;> rfl
  | conditional condition ifTrue ifFalse =>
    simp only [markLeftmost?, parts, markLeftmostIn?]
    cases condition.markLeftmost? <;> cases ifTrue.markLeftmost? <;>
      cases ifFalse.markLeftmost? <;> rfl
  | binary operation left right =>
    simp only [markLeftmost?, parts, markLeftmostIn?]
    cases left.markLeftmost? <;> cases right.markLeftmost? <;> rfl
  | switch normal critical =>
    simp only [markLeftmost?, parts, markLeftmostIn?]
    cases normal.markLeftmost? <;> cases critical.markLeftmost? <;> rfl
  | double inner | only inner | group inner =>
    simp only [markLeftmost?, parts, markLeftmostIn?]
    cases inner.markLeftmost? <;> rfl

/-! ## 2. The first literal is marked -/

/-- The same literals, except that the first one is marked. -/
def FirstMarked (before after : List Node) : Prop :=
  ∃ d id modifier rest, before = dice d id modifier :: rest
    ∧ after = dice { d with critical := true } id modifier :: rest

theorem FirstMarked.append_right {before after : List Node} (h : FirstMarked before after)
    (rest : List Node) : FirstMarked (before ++ rest) (after ++ rest) := by
  obtain ⟨d, id, modifier, others, rfl, rfl⟩ := h
  exact ⟨d, id, modifier, others ++ rest, rfl, rfl⟩

/-- What marking does to the literals of a tree: nothing if there are none. -/
def MarksLiterals (node : Node) : Prop :=
  (node.markLeftmost? = none ∧ node.literalNodes = [])
    ∨ ∃ marked, node.markLeftmost? = some marked
      ∧ FirstMarked node.literalNodes marked.literalNodes

/-- A list is searched from the left, and what is not marked is not touched. -/
theorem markLeftmostIn?_literals {nodes : List Node} (h : ∀ node ∈ nodes, node.MarksLiterals) :
    (markLeftmostIn? nodes = none ∧ literalNodesAll nodes = [])
      ∨ ∃ marked, markLeftmostIn? nodes = some marked ∧ marked.length = nodes.length
        ∧ FirstMarked (literalNodesAll nodes) (literalNodesAll marked) := by
  induction nodes with
  | nil => exact .inl ⟨rfl, rfl⟩
  | cons node rest ih =>
    obtain ⟨hnode, hrest⟩ := List.forall_mem_cons.1 h
    rw [markLeftmostIn?, literalNodesAll, List.flatMap_cons]
    rcases hnode with ⟨hmark, hnone⟩ | ⟨marked, hmark, hfirst⟩
    · rw [hmark, hnone, List.nil_append]
      rcases ih hrest with ⟨hmarks, hnones⟩ | ⟨others, hmarks, hlength, hfirst⟩
      · exact .inl ⟨by rw [hmarks]; rfl, hnones⟩
      · refine .inr ⟨node :: others, by rw [hmarks]; rfl, by simp [hlength], ?_⟩
        rwa [literalNodesAll, List.flatMap_cons, hnone, List.nil_append]
    · rw [hmark]
      refine .inr ⟨marked :: rest, rfl, rfl, ?_⟩
      rw [literalNodesAll, List.flatMap_cons]
      exact hfirst.append_right _

/-- **Marking finds the first literal**, whatever constructs it stands under. -/
theorem marksLiterals (node : Node) : node.MarksLiterals := by
  induction node using parts_induction with
  | h node ih =>
  cases hliteral : node.literal? with
  | some d =>
    cases node with
    | dice d id modifier => exact .inr ⟨_, rfl, d, id, modifier, [], rfl, rfl⟩
    | _ => cases hliteral
  | none =>
    rw [MarksLiterals, markLeftmost?_eq_parts hliteral, literalNodes_eq_parts hliteral]
    rcases markLeftmostIn?_literals ih with ⟨hmarks, hnone⟩ | ⟨marked, hmarks, hlength, hfirst⟩
    · exact .inl ⟨by rw [hmarks]; rfl, hnone⟩
    · refine .inr ⟨node.withParts marked, by rw [hmarks]; rfl, ?_⟩
      rwa [literalNodes_eq_parts ((node.literal?_withParts marked).trans hliteral),
        parts_withParts hlength]

/-! ## 3. Marking in place -/

mutual

/-- One pass over a tree that changes it on the way: whether a literal has been found, and the tree
after that.  Once a literal is found nothing else is looked at. -/
def markInPlace : Node → Bool × Node
  | number value => (false, number value)
  | dice d id modifier => (true, dice { d with critical := true } id modifier)
  | reference id critical => (false, reference id critical)
  | keep kind count items =>
    let marked := markEachInPlace items
    (marked.1, keep kind count marked.2)
  | comparison relation left right =>
    let first := left.markInPlace
    let second := if first.1 then (false, right) else right.markInPlace
    (first.1 || second.1, comparison relation first.2 second.2)
  | conditional condition ifTrue ifFalse =>
    let first := condition.markInPlace
    let second := if first.1 then (false, ifTrue) else ifTrue.markInPlace
    let third := if first.1 || second.1 then (false, ifFalse) else ifFalse.markInPlace
    (first.1 || second.1 || third.1, conditional first.2 second.2 third.2)
  | binary operation left right =>
    let first := left.markInPlace
    let second := if first.1 then (false, right) else right.markInPlace
    (first.1 || second.1, binary operation first.2 second.2)
  | double inner =>
    let marked := inner.markInPlace
    (marked.1, double marked.2)
  | switch normal critical =>
    let first := normal.markInPlace
    let second := if first.1 then (false, critical) else critical.markInPlace
    (first.1 || second.1, switch first.2 second.2)
  | only inner =>
    let marked := inner.markInPlace
    (marked.1, only marked.2)
  | function name args =>
    let marked := markEachInPlace args
    (marked.1, function name marked.2)
  | group inner =>
    let marked := inner.markInPlace
    (marked.1, group marked.2)

/-- The same pass over a list of trees. -/
def markEachInPlace : List Node → Bool × List Node
  | [] => (false, [])
  | node :: rest =>
    let first := node.markInPlace
    let others := if first.1 then (false, rest) else markEachInPlace rest
    (first.1 || others.1, first.2 :: others.2)

end

theorem markInPlace_eq_parts {node : Node} (h : node.literal? = none) :
    node.markInPlace
      = ((markEachInPlace node.parts).1, node.withParts (markEachInPlace node.parts).2) := by
  cases node with
  | dice d id modifier => cases h
  | number _ | reference _ _ => rfl
  | keep _ _ _ | function _ _ => rw [markInPlace]; rfl
  | double _ | only _ | group _ =>
    simp [markInPlace, markEachInPlace, parts, withParts]
  | comparison _ left _ | binary _ left _ | switch left _ =>
    cases hfirst : left.markInPlace.1 <;>
      simp [markInPlace, markEachInPlace, parts, withParts, hfirst]
  | conditional condition ifTrue _ =>
    cases hfirst : condition.markInPlace.1 <;> cases hsecond : ifTrue.markInPlace.1 <;>
      simp [markInPlace, markEachInPlace, parts, withParts, hfirst, hsecond]

/-- The pass has found a literal if there is a marked tree, and leaves that tree behind; otherwise
it leaves the tree as it was. -/
def MarksInPlace (node : Node) : Prop :=
  node.markInPlace = (node.markLeftmost?.isSome, node.markLeftmost?.getD node)

theorem markEachInPlace_eq {nodes : List Node} (h : ∀ node ∈ nodes, node.MarksInPlace) :
    markEachInPlace nodes
      = ((markLeftmostIn? nodes).isSome, (markLeftmostIn? nodes).getD nodes) := by
  induction nodes with
  | nil => rfl
  | cons node rest ih =>
    obtain ⟨hnode, hrest⟩ := List.forall_mem_cons.1 h
    rw [markEachInPlace, markLeftmostIn?, hnode, ih hrest]
    cases node.markLeftmost? with
    | some marked => rfl
    | none => cases markLeftmostIn? rest <;> rfl

theorem marksInPlace (node : Node) : node.MarksInPlace := by
  induction node using parts_induction with
  | h node ih =>
  cases hliteral : node.literal? with
  | some d =>
    cases node with
    | dice d id modifier => rfl
    | _ => cases hliteral
  | none =>
    rw [MarksInPlace, markInPlace_eq_parts hliteral, markLeftmost?_eq_parts hliteral,
      markEachInPlace_eq ih]
    cases markLeftmostIn? node.parts with
    | some marked => rfl
    | none => simp

/-! ## 4. The leftmost id -/

/-- Every literal has an id, and no two of them have the same. -/
structure HasDistinctIds (node : Node) : Prop where
  isSome : ∀ literal ∈ node.literalNodes, literal.literalId?.isSome
  nodup : (node.literalNodes.map literalId?).Nodup

/-- Without references the leftmost id is that of the first literal, and no other literal has it. -/
theorem HasDistinctIds.leftmostId?_eq {node : Node} (h : node.HasDistinctIds)
    (href : node.hasReference = false) {d : Dice} {id : Option ℕ} {modifier : Option Modifier}
    {rest : List Node} (hliterals : node.literalNodes = dice d id modifier :: rest) :
    id.isSome ∧ node.leftmostId? = id ∧ ∀ other ∈ rest, other.literalId? ≠ id := by
  obtain ⟨hsome, hnodup⟩ := h
  rw [hliterals] at hsome hnodup
  have hid : id.isSome := hsome _ (List.mem_cons_self ..)
  obtain ⟨n, rfl⟩ := Option.isSome_iff_exists.1 hid
  refine ⟨rfl, ?_, fun other hother heq => ?_⟩
  · rw [Node.leftmostId?_eq href, hliterals, List.findSome?_cons]
    rfl
  · have hmem : other.literalId? ∈ rest.map literalId? := List.mem_map_of_mem hother
    rw [heq] at hmem
    exact (List.nodup_cons.1 hnodup).1 hmem

/-- A tree with a marked literal has critical dice. -/
theorem hasCriticalDice_of_mem {node : Node} {d : Dice} {id : Option ℕ} {modifier : Option Modifier}
    (h : dice d id modifier ∈ node.literalNodes) (hd : d.critical = true) :
    node.hasCriticalDice = true := by
  rw [hasCriticalDice, List.any_eq_true]
  exact ⟨_, List.mem_of_mem_filter h, hd⟩

/-- **Marking marks the leftmost dice.**  The pass over a tree says whether the tree contains a dice
literal.  If so, it leaves behind the same tree with the first literal in source order marked, and no
other; otherwise it leaves the tree as it was.  The marked tree has critical dice, and without
references, and with an id of its own for every literal, the marked literal is the one whose id is
the leftmost. -/
theorem markInPlace_leftmost (node : Node) :
    node.markInPlace = (node.markLeftmost?.isSome, node.markLeftmost?.getD node)
      ∧ (node.markInPlace.1 = true ↔ node.literalNodes ≠ [])
      ∧ (node.markInPlace.1 = false → node.markInPlace.2 = node)
      ∧ (node.markInPlace.1 = true →
        ∃ d id modifier rest, node.literalNodes = dice d id modifier :: rest
          ∧ node.markInPlace.2.literalNodes = dice { d with critical := true } id modifier :: rest
          ∧ node.markInPlace.2.withoutMarks = node.withoutMarks
          ∧ node.markInPlace.2.hasCriticalDice = true
          ∧ (node.hasReference = false → node.HasDistinctIds →
            id.isSome ∧ node.leftmostId? = id ∧ ∀ other ∈ rest, other.literalId? ≠ id)) := by
  have hpass := node.marksInPlace
  refine ⟨hpass, ?_⟩
  rw [hpass]
  rcases node.marksLiterals with ⟨hmark, hnone⟩ | ⟨marked, hmark, hfirst⟩
  · rw [hmark, hnone]
    simp
  · obtain ⟨d, id, modifier, rest, hbefore, hafter⟩ := hfirst
    rw [hmark]
    refine ⟨by simp [hbefore], nofun, fun _ => ⟨d, id, modifier, rest, hbefore, hafter,
      withoutMarks_markLeftmost? node hmark, ?_, fun href hids => hids.leftmostId?_eq href hbefore⟩⟩
    exact hasCriticalDice_of_mem (hafter ▸ List.mem_cons_self ..) rfl

/-- A check whose first literal is rerolled and stands under a keep and a wrapper, with ids that do
not ascend. -/
def wrappedReroll : Node :=
  .comparison .greaterEqual
    (.binary .add (.number 3)
      (.keep .highest 1 [.number 2,
        .double (.dice ⟨2, 6, false⟩ (some 7) (some (.reroll ⟨1, 1⟩ 1)))]))
    (.function .max [.dice ⟨1, 8, false⟩ (some 4) none, .number 2])

/-- The rerolled dice are marked, under the id `7`. -/
theorem markInPlace_leftmost_wrappedReroll :
    (wrappedReroll.markInPlace.1 = true ∧ wrappedReroll.hasReference = false
      ∧ wrappedReroll.HasDistinctIds)
    ∧ ∃ d id modifier rest, wrappedReroll.literalNodes = dice d id modifier :: rest
      ∧ wrappedReroll.markInPlace.2.literalNodes
        = dice { d with critical := true } id modifier :: rest
      ∧ wrappedReroll.markInPlace.2.hasCriticalDice = true
      ∧ wrappedReroll.leftmostId? = some 7 ∧ wrappedReroll.leftmostId? = id
      ∧ ∀ other ∈ rest, other.literalId? ≠ id := by
  have hfound : wrappedReroll.markInPlace.1 = true := rfl
  have href : wrappedReroll.hasReference = false := rfl
  have hids : wrappedReroll.HasDistinctIds := by
    constructor
    · intro literal h
      have hliterals : wrappedReroll.literalNodes
        = [.dice ⟨2, 6, false⟩ (some 7) (some (.reroll ⟨1, 1⟩ 1)),
          .dice ⟨1, 8, false⟩ (some 4) none] := rfl
      rw [hliterals] at h
      simp only [List.mem_cons, List.not_mem_nil, or_false] at h
      rcases h with rfl | rfl <;> rfl
    · decide +kernel
  obtain ⟨-, -, -, hmarks⟩ := markInPlace_leftmost wrappedReroll
  obtain ⟨d, id, modifier, rest, hbefore, hafter, -, hcritical, hleft⟩ := hmarks hfound
  obtain ⟨-, hid, hothers⟩ := hleft href hids
  exact ⟨⟨hfound, href, hids⟩, d, id, modifier, rest, hbefore, hafter, hcritical, rfl, hid, hothers⟩

end Node

end DiceOdds
