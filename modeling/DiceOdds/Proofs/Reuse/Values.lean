import DiceOdds.Proofs.Reuse.Exact

/-!
# What a formula sees of its dice

The rolls of a formula fall into classes: two rolls belong together if every group has the same
value on both.  Going through the combinations of values is going through these classes.

## Why a limit on each die is different

A literal, a keep of a literal and a reference all stand for the value of a group, so a formula made
of them has one value on a whole class.  A limit on each die of a literal does not stop at the value
of the group: `max_each(2d3,2)` is `4` on a roll of two twos and `5` on a one and a three.
-/

namespace DiceOdds

variable {root : Node}

/-! ## 1. Classes of rolls -/

/-- The values of some groups on a roll of their dice. -/
def valuesOfGroups (gs : List Group) (roll : Roll) : List (Option Outcome) :=
  List.zipWith Group.value? gs roll

/-- Whether every group of a formula has the same value on two rolls. -/
def Node.sameValues (root : Node) (roll other : Roll) : Bool :=
  valuesOfGroups root.groups roll = valuesOfGroups root.groups other

/-- References have the same values on the rolls of a class. -/
theorem groupValue?_congr {roll other : Roll} (h : root.sameValues roll other = true) :
    root.groupValue? roll = root.groupValue? other := by
  have hvalue : ∀ roll : Roll, root.groupValue? roll
      = fun id => if id = 0 then none else (valuesOfGroups root.groups roll)[id - 1]?.join := by
    intro roll
    funext id
    rw [Node.groupValue?, valuesOfGroups, ← List.map_uncurry_zip_eq_zipWith, List.getElem?_map]
    cases (root.groups.zip roll)[id - 1]? <;> rfl
  rw [hvalue, hvalue, of_decide_eq_true h]

theorem valuesOfGroups_append {gs hs : List Group} {roll : Roll} (h : gs.length ≤ roll.length) :
    valuesOfGroups (gs ++ hs) roll
      = valuesOfGroups gs (roll.take gs.length) ++ valuesOfGroups hs (roll.drop gs.length) := by
  conv_lhs => rw [← List.take_append_drop gs.length roll]
  exact List.zipWith_append (by simp [h])

/-- The rolls of two parts of a formula are in one class if those of each part are. -/
theorem valuesOfGroups_split {gs hs : List Group} {roll other : Roll}
    (hroll : gs.length ≤ roll.length) (hother : gs.length ≤ other.length)
    (h : valuesOfGroups (gs ++ hs) roll = valuesOfGroups (gs ++ hs) other) :
    valuesOfGroups gs (roll.take gs.length) = valuesOfGroups gs (other.take gs.length)
      ∧ valuesOfGroups hs (roll.drop gs.length) = valuesOfGroups hs (other.drop gs.length) := by
  rw [valuesOfGroups_append hroll, valuesOfGroups_append hother] at h
  exact List.append_inj h (by simp [valuesOfGroups, hroll, hother])

/-- The rolls with given values of all groups are a class. -/
theorem mem_rollsWithAll {gs : List Group} {vs : List Outcome} (hlen : vs.length = gs.length)
    {roll : Roll} : roll ∈ rollsWithAll gs vs
      ↔ roll ∈ allRolls (gs.map Group.pool) ∧ valuesOfGroups gs roll = vs.map some := by
  induction gs generalizing vs roll with
  | nil =>
    obtain rfl := List.eq_nil_of_length_eq_zero hlen
    simp [rollsWithAll, allRolls, valuesOfGroups]
  | cons g gs ih =>
    obtain ⟨v, vs, rfl⟩ := List.exists_cons_of_length_eq_add_one hlen
    have hrest : ∀ roll, roll ∈ rollsWithAll gs vs
        ↔ roll ∈ allRolls (gs.map Group.pool) ∧ valuesOfGroups gs roll = vs.map some :=
      fun roll => ih (by simpa using hlen)
    rw [rollsWithAll, List.zipWith_cons_cons, List.mem_sections, List.forall₂_cons_right_iff,
      List.map_cons, allRolls, List.map_cons, List.mem_sections, List.forall₂_cons_right_iff]
    constructor
    · rintro ⟨cell, rest, hcell, hcells, rfl⟩
      obtain ⟨hmem, hvalues⟩ := (hrest rest).1 (List.mem_sections.2 hcells)
      obtain ⟨hin, hvalue⟩ := List.mem_filter.1 hcell
      refine ⟨⟨cell, rest, hin, List.mem_sections.1 hmem, rfl⟩, ?_⟩
      rw [List.map_cons, ← hvalues, ← of_decide_eq_true hvalue]
      rfl
    · rintro ⟨⟨cell, rest, hcell, hcells, rfl⟩, hvalues⟩
      rw [valuesOfGroups, List.zipWith_cons_cons, List.map_cons, List.cons.injEq] at hvalues
      exact ⟨cell, rest, List.mem_filter.2 ⟨hcell, decide_eq_true hvalues.1⟩,
        List.mem_sections.1 ((hrest rest).2 ⟨List.mem_sections.2 hcells, hvalues.2⟩), rfl⟩

namespace Node

/-! ## 2. Formulas with one value on a class -/

/-- Whether the node limits each die of a literal. -/
def limitsDice : Node → Bool
  | function name [target, _] => (eachPool? name target).isSome
  | _ => false

/-- The formula has one value on rolls with the same values of its groups. -/
def Determined (given : ℕ → Option Outcome) (node : Node) : Prop :=
  ∀ roll other : Roll, node.groups.length ≤ roll.length → node.groups.length ≤ other.length →
    valuesOfGroups node.groups roll = valuesOfGroups node.groups other →
    node.valueOn given roll = node.valueOn given other

theorem length_groups (node : Node) : node.groups.length = node.pools.length := by
  rw [← node.groups_pools, List.length_map]

variable {given : ℕ → Option Outcome}

/-- A node that is a group has the value of the group. -/
theorem determined_of_group {node : Node} {g : Group} (hgroups : node.groups = [g])
    (hvalue : ∀ roll, node.valueOn given roll = g.value? (roll.headD [])) :
    node.Determined given := by
  intro roll other hroll hother h
  rw [hgroups] at hroll hother h
  obtain ⟨cell, rest, rfl⟩ := List.exists_cons_of_length_pos hroll
  obtain ⟨cell', rest', rfl⟩ := List.exists_cons_of_length_pos hother
  have hcells : g.value? cell = g.value? cell' := by simpa [valuesOfGroups] using h
  rw [hvalue, hvalue]
  exact hcells

theorem determined_binary (operation : Operation) {left right : Node}
    (hl : left.Determined given) (hr : right.Determined given) :
    (binary operation left right).Determined given := by
  intro roll other hroll hother h
  rw [groups] at hroll hother h
  rw [List.length_append] at hroll hother
  obtain ⟨hleft, hright⟩ := valuesOfGroups_split (by omega) (by omega) h
  rw [valueOn, valueOn, ← length_groups,
    hl _ _ (by simp; omega) (by simp; omega) hleft, hr _ _ (by simp; omega) (by simp; omega) hright]

theorem determined_all {items : List Node} (h : ∀ item ∈ items, item.Determined given)
    {roll other : Roll} (hroll : (groupsAll items).length ≤ roll.length)
    (hother : (groupsAll items).length ≤ other.length)
    (hvalues : valuesOfGroups (groupsAll items) roll = valuesOfGroups (groupsAll items) other) :
    valuesOn given items roll = valuesOn given items other := by
  induction items generalizing roll other with
  | nil => rw [valuesOn, valuesOn]
  | cons node rest ih =>
    rw [groupsAll] at hroll hother hvalues
    rw [List.length_append] at hroll hother
    obtain ⟨hnode, hrest⟩ := valuesOfGroups_split (by omega) (by omega) hvalues
    rw [valuesOn, valuesOn, ← length_groups,
      h node (List.mem_cons_self ..) _ _ (by simp; omega) (by simp; omega) hnode,
      ih (fun item hi => h item (List.mem_cons_of_mem _ hi)) (by simp; omega) (by simp; omega)
        hrest]

/-- **Without limits on each die, a formula sees the values of its groups and nothing else.** -/
theorem Arithmetic.determined (given : ℕ → Option Outcome) {node : Node} (h : node.Arithmetic)
    (hhide : ∀ n ∈ node.subterms, n.hidesDice = false)
    (hlimit : ∀ n ∈ node.subterms, n.limitsDice = false) : node.Determined given := by
  have hbuilt : node.Built fun n => n.Leaf ∧ n.hidesDice = false ∧ n.limitsDice = false :=
    h.built fun n hn _ hleaf => ⟨hleaf, hhide n hn, hlimit n hn⟩
  clear h hhide hlimit
  induction hbuilt with
  | @leaf n h =>
    obtain ⟨hleaf, hhide, hlimit⟩ := h
    cases hleaf with
    | dice d id modifier =>
      exact determined_of_group (by rw [groups]) fun roll => by simp [valueOn, Group.value?]
    | reference id critical => exact fun roll other _ _ _ => by rw [valueOn, valueOn]
    | @keep kind count items p honly =>
      obtain ⟨id, rfl⟩ := eq_dice_of_onlyPool? honly hhide
      refine determined_of_group (g := ⟨_, p⟩) rfl fun roll => ?_
      simp [valueOn, Group.value?, honly]
    | function name bound heach =>
      rw [limitsDice, heach] at hlimit
      cases hlimit
  | number value => exact fun roll other _ _ _ => by rw [valueOn, valueOn]
  | keep kind count honly _ ih =>
    intro roll other hroll hother hvalues
    rw [groups, literalItem?_of_onlyPool? honly] at hroll hother hvalues
    simp only [valueOn, honly]
    rw [determined_all ih hroll hother hvalues]
  | binary operation _ _ ihl ihr => exact determined_binary operation ihl ihr
  | @function name target bound heach _ ih =>
    intro roll other hroll hother hvalues
    have hgroups : (Node.function name [target, .number bound]).groups = target.groups := by
      simp [groups, groupsAll]
    rw [hgroups] at hroll hother hvalues
    simp only [valueOn, heach]
    rw [ih roll other hroll hother hvalues]
  | group _ ih =>
    intro roll other hroll hother hvalues
    rw [groups] at hroll hother hvalues
    rw [valueOn, valueOn]
    exact ih roll other hroll hother hvalues

end Node

end DiceOdds
