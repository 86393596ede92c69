import DiceOdds.Proofs.Critical.Marking

/-!
# Trees that differ in marks only

The second evaluation of a check may see another tree: where no dice are marked as critical, the
first literal has been.  `withoutMarks` forgets which literals are marked, and `markLeftmost?`
changes nothing else, whatever the tree contains.
-/

namespace DiceOdds

namespace Node

mutual

/-- The tree with no dice literal marked as critical. -/
def withoutMarks : Node → Node
  | number value => number value
  | dice d id modifier => dice { d with critical := false } id modifier
  | reference id critical => reference id critical
  | keep kind count items => keep kind count (withoutMarksAll items)
  | comparison relation left right => comparison relation left.withoutMarks right.withoutMarks
  | conditional condition ifTrue ifFalse =>
    conditional condition.withoutMarks ifTrue.withoutMarks ifFalse.withoutMarks
  | binary operation left right => binary operation left.withoutMarks right.withoutMarks
  | double inner => double inner.withoutMarks
  | switch normal critical => switch normal.withoutMarks critical.withoutMarks
  | only inner => only inner.withoutMarks
  | function name args => function name (withoutMarksAll args)
  | group inner => group inner.withoutMarks

/-- The same for a list of trees. -/
def withoutMarksAll : List Node → List Node
  | [] => []
  | node :: rest => node.withoutMarks :: withoutMarksAll rest

end

mutual

/-- Marking the first literal changes nothing but marks. -/
theorem withoutMarks_markLeftmost? : ∀ (node : Node) {marked : Node},
    node.markLeftmost? = some marked → marked.withoutMarks = node.withoutMarks
  | number _, _, h => nomatch h
  | reference _ _, _, h => nomatch h
  | dice _ _ _, _, h => by
    cases h
    rfl
  | keep _ _ items, _, h => by
    rw [markLeftmost?] at h
    obtain ⟨items', hitems, rfl⟩ := Option.map_eq_some_iff.1 h
    rw [withoutMarks, withoutMarks, withoutMarksAll_markLeftmostIn? items hitems]
  | comparison _ left right, _, h => by
    rw [markLeftmost?] at h
    split at h
    · next left' hleft =>
      cases h
      rw [withoutMarks, withoutMarks, withoutMarks_markLeftmost? left hleft]
    · obtain ⟨right', hright, rfl⟩ := Option.map_eq_some_iff.1 h
      rw [withoutMarks, withoutMarks, withoutMarks_markLeftmost? right hright]
  | conditional condition ifTrue ifFalse, _, h => by
    rw [markLeftmost?] at h
    split at h
    · next condition' hcondition =>
      cases h
      rw [withoutMarks, withoutMarks, withoutMarks_markLeftmost? condition hcondition]
    · split at h
      · next ifTrue' htrue =>
        cases h
        rw [withoutMarks, withoutMarks, withoutMarks_markLeftmost? ifTrue htrue]
      · obtain ⟨ifFalse', hfalse, rfl⟩ := Option.map_eq_some_iff.1 h
        rw [withoutMarks, withoutMarks, withoutMarks_markLeftmost? ifFalse hfalse]
  | binary _ left right, _, h => by
    rw [markLeftmost?] at h
    split at h
    · next left' hleft =>
      cases h
      rw [withoutMarks, withoutMarks, withoutMarks_markLeftmost? left hleft]
    · obtain ⟨right', hright, rfl⟩ := Option.map_eq_some_iff.1 h
      rw [withoutMarks, withoutMarks, withoutMarks_markLeftmost? right hright]
  | double inner, _, h => by
    rw [markLeftmost?] at h
    obtain ⟨inner', hinner, rfl⟩ := Option.map_eq_some_iff.1 h
    rw [withoutMarks, withoutMarks, withoutMarks_markLeftmost? inner hinner]
  | switch normal critical, _, h => by
    rw [markLeftmost?] at h
    split at h
    · next normal' hnormal =>
      cases h
      rw [withoutMarks, withoutMarks, withoutMarks_markLeftmost? normal hnormal]
    · obtain ⟨critical', hcritical, rfl⟩ := Option.map_eq_some_iff.1 h
      rw [withoutMarks, withoutMarks, withoutMarks_markLeftmost? critical hcritical]
  | only inner, _, h => by
    rw [markLeftmost?] at h
    obtain ⟨inner', hinner, rfl⟩ := Option.map_eq_some_iff.1 h
    rw [withoutMarks, withoutMarks, withoutMarks_markLeftmost? inner hinner]
  | function _ args, _, h => by
    rw [markLeftmost?] at h
    obtain ⟨args', hargs, rfl⟩ := Option.map_eq_some_iff.1 h
    rw [withoutMarks, withoutMarks, withoutMarksAll_markLeftmostIn? args hargs]
  | group inner, _, h => by
    rw [markLeftmost?] at h
    obtain ⟨inner', hinner, rfl⟩ := Option.map_eq_some_iff.1 h
    rw [withoutMarks, withoutMarks, withoutMarks_markLeftmost? inner hinner]

theorem withoutMarksAll_markLeftmostIn? : ∀ (nodes : List Node) {marked : List Node},
    markLeftmostIn? nodes = some marked → withoutMarksAll marked = withoutMarksAll nodes
  | [], _, h => nomatch h
  | node :: rest, _, h => by
    rw [markLeftmostIn?] at h
    split at h
    · next node' hnode =>
      cases h
      rw [withoutMarksAll, withoutMarksAll, withoutMarks_markLeftmost? node hnode]
    · obtain ⟨rest', hrest, rfl⟩ := Option.map_eq_some_iff.1 h
      rw [withoutMarksAll, withoutMarksAll, withoutMarksAll_markLeftmostIn? rest hrest]

end

/-- Marks do not make a comparison. -/
theorem isComparison_withoutMarks (node : Node) :
    node.withoutMarks.isComparison = node.isComparison := by
  induction node using stripGroups.induct with
  | case1 inner ih =>
    rw [withoutMarks]
    exact ih
  | case2 node hnode =>
    cases node with
    | group inner => exact absurd rfl (hnode inner)
    | _ => rfl

theorem isComparison_eq {node node' : Node} (h : node'.withoutMarks = node.withoutMarks) :
    node'.isComparison = node.isComparison := by
  rw [← node'.isComparison_withoutMarks, h, node.isComparison_withoutMarks]

end Node

end DiceOdds
