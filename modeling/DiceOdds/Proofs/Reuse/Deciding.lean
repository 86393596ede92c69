import DiceOdds.Proofs.Critical.Split
import DiceOdds.Proofs.Reuse.Values
import DiceOdds.Proofs.Reuse.Registry

/-!
# The dice that decide in a numbered check

Where dice are numbered, a check is decided by ids: those of the critical dice that go into its
sides, or the first id if there are none.

## Why a limit matters

A critical literal inside a limit does not go into the value of a side, as ids are collected, but it
is a critical literal nevertheless.  If it is the only one, no id is collected and the first literal
decides in its place.  So the ids are those of the critical dice as long as no limit stands between
them and the side, or the first literal is the critical one anyway (`DecidedByOne.decidingIds_eq`).
-/

namespace DiceOdds

namespace Node

/-! ## 1. Plain sides -/

/-- Sides of a check made of numbers, dice, keeps, operations, parentheses and limits by a number
that do not act on single dice.  No keep has a single parenthesis as its items, and none keeps
nothing. -/
inductive PlainSide : Node → Prop where
  | number (value : Float) : PlainSide (.number value)
  | dice {d : Dice} (hsides : d.sides ≠ 0) (id : Option ℕ) (modifier : Option Modifier) :
      PlainSide (.dice d id modifier)
  | keep (kind : KeepKind) {count : UInt32} (hcount : count ≠ 0) {items : List Node}
      (hshown : ∀ inner, items ≠ [.group inner]) (h : ∀ item ∈ items, PlainSide item) :
      PlainSide (.keep kind count items)
  | binary (operation : Operation) {left right : Node} (hl : PlainSide left)
      (hr : PlainSide right) : PlainSide (.binary operation left right)
  | function {name : FunctionName} (hname : name.perDie = false) {target : Node} (bound : Float)
      (h : PlainSide target) : PlainSide (.function name [target, .number bound])
  | group {inner : Node} (h : PlainSide inner) : PlainSide (.group inner)

namespace PlainSide

variable {node n : Node}

theorem arithmetic (h : node.PlainSide) : node.Arithmetic := by
  induction h with
  | number value => exact .number value
  | dice _ id modifier => exact .dice _ id modifier
  | keep kind _ _ _ ih => exact .keep kind _ ih
  | binary operation _ _ ihl ihr => exact .binary operation ihl ihr
  | function _ bound _ ih => exact .function _ bound ih
  | group _ ih => exact .group ih

theorem part {part : Node} (h : node.PlainSide) (hpart : part ∈ node.parts) : part.PlainSide := by
  cases h with
  | number | dice => cases hpart
  | keep _ _ _ h => exact h part hpart
  | binary _ hl hr =>
    simp only [parts, List.mem_cons, List.not_mem_nil, or_false] at hpart
    rcases hpart with rfl | rfl
    · exact hl
    · exact hr
  | function _ bound h =>
    simp only [parts, List.mem_cons, List.not_mem_nil, or_false] at hpart
    rcases hpart with rfl | rfl
    · exact h
    · exact .number bound
  | group h =>
    obtain rfl := List.mem_singleton.1 hpart
    exact h

theorem of_mem_subterms (h : node.PlainSide) (hn : n ∈ node.subterms) : n.PlainSide := by
  induction node using parts_induction with
  | h node ih =>
    rw [subterms_eq_parts, List.mem_cons] at hn
    rcases hn with rfl | hn
    · exact h
    · obtain ⟨part, hpart, hn⟩ := mem_subtermsAll.1 hn
      exact ih part hpart (h.part hpart) hn

theorem hidesDice_eq (h : node.PlainSide) : node.hidesDice = false := by
  cases h with
  | keep kind _ hshown _ =>
    unfold hidesDice
    split
    · next heq =>
      cases heq
      exact absurd rfl (hshown _)
    · next heq => cases heq
    · rfl
  | function hname bound _ =>
    unfold hidesDice
    split
    · next heq => cases heq
    · next heq =>
      cases heq
      rw [hname, Bool.false_and]
    · rfl
  | _ => rfl

theorem limitsDice_eq (h : node.PlainSide) : node.limitsDice = false := by
  cases h with
  | function hname bound _ => simp [limitsDice, eachPool?, hname]
  | _ => rfl

theorem hasReference_eq (h : node.PlainSide) : node.hasReference = false := by
  rw [hasReference, List.any_eq_false]
  intro n hn
  cases h.of_mem_subterms hn <;> simp

theorem sides_ne_zero (h : node.PlainSide) : ∀ p ∈ node.pools, p.dice.sides ≠ 0 := by
  intro p hp
  obtain ⟨n, hn, hpool⟩ := List.mem_filterMap.1 hp
  cases h.of_mem_subterms hn with
  | dice hsides id modifier =>
    cases hpool
    exact hsides
  | _ => cases hpool

end PlainSide

/-- The node of a group is a part of the formula. -/
theorem mem_subterms_of_mem_groups {node : Node} {g : Group} (h : g ∈ node.groups) :
    g.node ∈ node.subterms := by
  induction node using parts_induction with
  | h node ih =>
  cases hstands : node.standsForDice with
  | true =>
    obtain ⟨g', hnode, -, hgroups⟩ := exists_group hstands
    rw [hgroups] at h
    obtain rfl := List.mem_singleton.1 h
    exact hnode ▸ mem_subterms_self _
  | false =>
    rw [groups_eq_parts hstands] at h
    obtain ⟨part, hpart, hg⟩ := mem_groupsAll.1 h
    exact subterms_subset_of_mem_parts hpart (ih part hpart hg)

/-! ## 2. Numbering keeps values -/

theorem forall_withIdsAll {P : Node → Prop} {items : List Node}
    (h : ∀ item ∈ items, ∀ k, P (item.withIds k).1) (k : ℕ) :
    ∀ item ∈ (withIdsAll items k).1, P item := by
  induction items generalizing k with
  | nil => simp [withIdsAll]
  | cons node rest ih =>
    obtain ⟨hnode, hrest⟩ := List.forall_mem_cons.1 h
    exact List.forall_mem_cons.2 ⟨hnode k, ih hrest _⟩

theorem exists_mem_withIdsAll {item : Node} {items : List Node} (h : item ∈ items) (k : ℕ) :
    ∃ j, (item.withIds j).1 ∈ (withIdsAll items k).1 := by
  induction items generalizing k with
  | nil => cases h
  | cons node rest ih =>
    rw [withIdsAll]
    rcases List.mem_cons.1 h with rfl | h
    · exact ⟨k, List.mem_cons_self ..⟩
    · obtain ⟨j, hj⟩ := ih h (node.withIds k).2
      exact ⟨j, List.mem_cons_of_mem _ hj⟩

theorem strippedPool?_withIds (node : Node) (k : ℕ) :
    (node.withIds k).1.strippedPool? = node.strippedPool? := by
  induction node using stripGroups.induct with
  | case1 inner ih => exact ih
  | case2 node hnode =>
    cases node with
    | group inner => exact absurd rfl (hnode inner)
    | _ => rfl

theorem onlyPool?_withIdsAll (items : List Node) (k : ℕ) :
    onlyPool? (withIdsAll items k).1 = onlyPool? items := by
  cases items with
  | nil => rfl
  | cons item rest =>
    cases rest with
    | nil => exact item.strippedPool?_withIds k
    | cons _ _ => rfl

theorem valuesOn_withIdsAll {given given' : ℕ → Option Outcome} {items : List Node}
    (h : ∀ item ∈ items, ∀ k roll, (item.withIds k).1.valueOn given roll = item.valueOn given' roll)
    (k : ℕ) (roll : Roll) :
    valuesOn given (withIdsAll items k).1 roll = valuesOn given' items roll := by
  induction items generalizing k roll with
  | nil => rw [withIdsAll, valuesOn, valuesOn]
  | cons node rest ih =>
    obtain ⟨hnode, hrest⟩ := List.forall_mem_cons.1 h
    simp only [withIdsAll, valuesOn, pools_withIds, hnode, ih hrest]

namespace PlainSide

variable {node : Node}

theorem withIds (h : node.PlainSide) (k : ℕ) : (node.withIds k).1.PlainSide := by
  induction h generalizing k with
  | number value => exact .number value
  | dice hsides id modifier => exact .dice hsides _ modifier
  | @keep kind _ hcount items hshown _ ih =>
    refine .keep kind hcount (fun inner hinner => ?_) (forall_withIdsAll ih k)
    -- a single item stays what it is
    match items, hshown, hinner with
    | [.group item], hshown, _ => exact hshown item rfl
  | binary operation _ _ ihl ihr => exact .binary operation (ihl k) (ihr _)
  | function hname bound _ ih => exact .function hname bound (ih k)
  | group _ ih => exact .group (ih k)

/-- A side without references has the same values however its dice are numbered. -/
theorem valueOn_withIds (h : node.PlainSide) (given given' : ℕ → Option Outcome) (k : ℕ)
    (roll : Roll) : (node.withIds k).1.valueOn given roll = node.valueOn given' roll := by
  induction h generalizing k roll with
  | number value => simp only [Node.withIds, valueOn]
  | dice _ id modifier => simp only [Node.withIds, valueOn]
  | keep kind _ _ _ ih =>
    simp only [Node.withIds, valueOn, onlyPool?_withIdsAll, valuesOn_withIdsAll ih]
  | binary operation _ _ ihl ihr => simp only [Node.withIds, valueOn, pools_withIds, ihl, ihr]
  | function hname bound _ ih =>
    simp [Node.withIds, withIdsAll, valueOn, eachPool?, hname, ih]
  | group _ ih => simp only [Node.withIds, valueOn, ih]

end PlainSide

/-! ## 3. Ids of critical dice -/

theorem mem_criticalIdsAll {items : List Node} {id : ℕ} :
    id ∈ criticalIdsAll items ↔ ∃ item ∈ items, id ∈ item.criticalIds := by
  induction items with
  | nil => simp [criticalIdsAll]
  | cons node rest ih => simp [criticalIdsAll, ih]

/-- Only critical literals are collected. -/
theorem PlainSide.exists_of_mem_criticalIds {node : Node} (h : node.PlainSide) {id : ℕ}
    (hid : id ∈ node.criticalIds) :
    ∃ d modifier, .dice d (some id) modifier ∈ node.subterms ∧ d.critical = true := by
  induction h with
  | number | function => simp [criticalIds] at hid
  | @dice d _ id' modifier =>
    rw [criticalIds] at hid
    split at hid
    · next hcritical =>
      obtain rfl := Option.mem_toList.1 hid
      exact ⟨d, modifier, by simp [subterms], hcritical⟩
    · cases hid
  | keep _ _ _ _ ih =>
    rw [criticalIds] at hid
    obtain ⟨item, hitem, hid⟩ := mem_criticalIdsAll.1 hid
    obtain ⟨d, modifier, hmem, hcritical⟩ := ih item hitem hid
    exact ⟨d, modifier, subterms_subset_of_mem_parts hitem hmem, hcritical⟩
  | @binary _ left right _ _ ihl ihr =>
    rw [criticalIds] at hid
    rcases List.mem_append.1 hid with hid | hid
    · obtain ⟨d, modifier, hmem, hcritical⟩ := ihl hid
      exact ⟨d, modifier, subterms_subset_of_mem_parts (by simp [parts]) hmem, hcritical⟩
    · obtain ⟨d, modifier, hmem, hcritical⟩ := ihr hid
      exact ⟨d, modifier, subterms_subset_of_mem_parts (by simp [parts]) hmem, hcritical⟩
  | group _ ih =>
    rw [criticalIds] at hid
    obtain ⟨d, modifier, hmem, hcritical⟩ := ih hid
    exact ⟨d, modifier, subterms_subset_of_mem_parts (by simp [parts]) hmem, hcritical⟩

/-- No limit has a critical literal inside. -/
def DecidesOpenly (node : Node) : Prop :=
  ∀ name args, function name args ∈ node.subterms → (function name args).hasCriticalDice = false

theorem DecidesOpenly.part {node part : Node} (h : node.DecidesOpenly) (hpart : part ∈ node.parts) :
    part.DecidesOpenly := fun name args hmem =>
  h name args (subterms_subset_of_mem_parts hpart hmem)

theorem hasCriticalDice_keep (kind : KeepKind) (count : UInt32) (items : List Node) :
    (keep kind count items).hasCriticalDice = items.any hasCriticalDice := by
  rw [hasCriticalDice, subterms, List.any_cons, any_subtermsAll]
  rfl

/-- A critical literal outside of limits is collected. -/
theorem PlainSide.criticalIds_withIds_ne_nil {node : Node} (h : node.PlainSide)
    (hopen : node.DecidesOpenly) (hcritical : node.hasCriticalDice = true) (k : ℕ) :
    (node.withIds k).1.criticalIds ≠ [] := by
  induction h generalizing k with
  | number value => cases hcritical
  | @dice d _ id modifier =>
    have hd : d.critical = true := by simpa [hasCriticalDice, subterms, literal?] using hcritical
    simp [Node.withIds, criticalIds, hd]
  | @keep kind count _ items hshown h ih =>
    rw [hasCriticalDice_keep, List.any_eq_true] at hcritical
    obtain ⟨item, hitem, hcritical⟩ := hcritical
    obtain ⟨j, hj⟩ := exists_mem_withIdsAll hitem k
    obtain ⟨id, hid⟩ := List.exists_mem_of_ne_nil _ (ih item hitem (hopen.part hitem) hcritical j)
    rw [Node.withIds, criticalIds]
    exact List.ne_nil_of_mem (mem_criticalIdsAll.2 ⟨_, hj, hid⟩)
  | @binary operation left right _ _ ihl ihr =>
    rw [hasCriticalDice_eq, pools_binary, List.any_append, ← hasCriticalDice_eq,
      ← hasCriticalDice_eq, Bool.or_eq_true] at hcritical
    simp only [Node.withIds, criticalIds, ne_eq, List.append_eq_nil_iff, not_and_or]
    rcases hcritical with hleft | hright
    · exact .inl (ihl (hopen.part (by simp [parts])) hleft k)
    · exact .inr (ihr (hopen.part (by simp [parts])) hright _)
  | function _ bound _ _ =>
    rw [hopen _ _ (mem_subterms_self _)] at hcritical
    cases hcritical
  | group _ ih =>
    simp only [Node.withIds, criticalIds]
    exact ih (hopen.part (by simp [parts])) (by simpa [hasCriticalDice_eq] using hcritical) k

/-! ## 4. The first id -/

/-- Without references the first id is that of the first literal. -/
theorem leftmostId?_eq {node : Node} (h : node.hasReference = false) :
    node.leftmostId? = node.literalNodes.findSome? literalId? := by
  rw [hasReference, List.any_eq_false] at h
  rw [leftmostId?, literalNodes]
  generalize node.subterms = nodes at h ⊢
  induction nodes with
  | nil => rfl
  | cons n rest ih =>
    obtain ⟨hn, hrest⟩ := List.forall_mem_cons.1 h
    rw [List.findSome?_cons, ih hrest]
    cases n with
    | reference id critical => simp at hn
    | dice d id modifier =>
      rw [List.filter_cons_of_pos rfl, List.findSome?_cons]
    | _ => rfl

/-- In a numbered formula this is `1`. -/
theorem Numbered.leftmostId?_eq {node : Node} (h : node.Numbered)
    (href : node.hasReference = false) (hdice : node.groups ≠ []) : node.leftmostId? = some 1 := by
  have hpos := List.length_pos_iff.2 hdice
  rw [Node.leftmostId?_eq href, literalNodes_eq_groups]
  obtain ⟨g, rest, hgroups⟩ := List.exists_cons_of_ne_nil hdice
  have hfirst := h.definingId?_getElem hpos
  simp only [hgroups, List.getElem_cons_zero] at hfirst
  rw [hgroups, List.map_cons, List.findSome?_cons]
  simp [Group.literal, literalId?, hfirst]

end Node

/-! ## 5. Checks that one die decides -/

/-- Two plain sides of a check of whose literals one decides, a single die, plain or rerolled.  It
is the only critical literal, or the first one where none is critical. -/
structure DecidedByOne (left right : Node) (before after : List Pool) (p : Pool) : Prop where
  plainLeft : left.PlainSide
  plainRight : right.PlainSide
  pools : left.pools ++ right.pools = before ++ p :: after
  others : ∀ q ∈ before ++ after, q.dice.critical = false
  decides : p.dice.critical = true ∨ before = []
  count : p.dice.count = 1
  modifier : ∀ kind success explode limit, p.modifier ≠ some (.exploding kind success explode limit)

theorem getElem?_eq_or_mem {α : Type} {before after : List α} {a b : α} {i : ℕ}
    (h : (before ++ a :: after)[i]? = some b) : i = before.length ∨ b ∈ before ++ after := by
  rcases lt_trichotomy i before.length with hlt | heq | hgt
  · rw [List.getElem?_append_left hlt] at h
    exact .inr (List.mem_append_left _ (List.mem_of_getElem? h))
  · exact .inl heq
  · rw [List.getElem?_append_right hgt.le, List.getElem?_cons, if_neg (by omega)] at h
    exact .inr (List.mem_append_right _ (List.mem_of_getElem? h))

/-- The check with its literals numbered. -/
def numberedCheck (relation : Relation) (left right : Node) : Node :=
  ((Node.comparison relation left right).withIds 1).1

section Numbered

variable {s : Settings ℚ} {relation : Relation} {left right : Node} {before after : List Pool}
  {p : Pool} {rate : ℚ}

theorem numberedCheck_eq (relation : Relation) (left right : Node) :
    ∃ k, numberedCheck relation left right
      = .comparison relation (left.withIds 1).1 (right.withIds k).1 := ⟨_, rfl⟩

theorem numbered_numberedCheck (relation : Relation) (left right : Node) :
    (numberedCheck relation left right).Numbered := Node.numbered_withIds _

theorem pools_numberedCheck (relation : Relation) (left right : Node) :
    (numberedCheck relation left right).pools = left.pools ++ right.pools := by
  rw [numberedCheck, Node.pools_withIds, Node.pools_comparison]

/-- The registry has the dice of all literals. -/
theorem Node.literals_eq_pools (node : Node) : node.literals = node.pools.map Pool.dice := by
  rw [literals, pools, List.map_filterMap]
  congr 1
  funext n
  cases n <;> rfl

/-- The dice of the group in each place are those of the literal in this place. -/
theorem pool_group (relation : Relation) (left right : Node) (i : ℕ) :
    ((numberedCheck relation left right).groups[i]?).map Group.pool
      = (left.pools ++ right.pools)[i]? := by
  rw [← pools_numberedCheck relation, ← Node.groups_pools, List.getElem?_map]

namespace DecidedByOne

theorem hasReference_eq (h : DecidedByOne left right before after p) :
    (numberedCheck relation left right).hasReference = false := by
  obtain ⟨k, hcheck⟩ := numberedCheck_eq relation left right
  have hl := (h.plainLeft.withIds 1).hasReference_eq
  have hr := (h.plainRight.withIds k).hasReference_eq
  rw [Node.hasReference] at hl hr
  rw [hcheck, Node.hasReference, Node.subterms, List.any_cons, List.any_append, hl, hr]
  rfl

/-- An id that is collected is that of the deciding die. -/
theorem eq_of_mem_criticalIds (h : DecidedByOne left right before after p) {id : ℕ}
    (hid : id ∈ (numberedCheck relation left right).criticalIds) : id = before.length + 1 := by
  obtain ⟨k, hcheck⟩ := numberedCheck_eq relation left right
  obtain ⟨d, modifier, hmem, hcritical⟩ : ∃ d modifier,
      .dice d (some id) modifier ∈ (numberedCheck relation left right).subterms
        ∧ d.critical = true := by
    rw [hcheck, Node.criticalIds] at hid
    rcases List.mem_append.1 hid with hid | hid
    · obtain ⟨d, modifier, hmem, hcritical⟩ := (h.plainLeft.withIds 1).exists_of_mem_criticalIds hid
      exact ⟨d, modifier, by simp [hcheck, Node.subterms, hmem], hcritical⟩
    · obtain ⟨d, modifier, hmem, hcritical⟩ :=
        (h.plainRight.withIds k).exists_of_mem_criticalIds hid
      exact ⟨d, modifier, by simp [hcheck, Node.subterms, hmem], hcritical⟩
  -- the literal is that of a group, and the place of the group tells its id
  have hliteral : Node.dice d (some id) modifier
      ∈ (numberedCheck relation left right).literalNodes := List.mem_filter.2 ⟨hmem, rfl⟩
  rw [Node.literalNodes_eq_groups] at hliteral
  obtain ⟨g, hg, hdice⟩ := List.mem_map.1 hliteral
  obtain ⟨i, hi, rfl⟩ := List.mem_iff_getElem.1 hg
  rw [(numbered_numberedCheck relation left right).literal_eq hi] at hdice
  obtain ⟨rfl, hid, -⟩ := Node.dice.inj hdice
  obtain rfl := Option.some.inj hid
  have hpool := pool_group relation left right i
  rw [List.getElem?_eq_getElem hi, Option.map_some, h.pools] at hpool
  rcases getElem?_eq_or_mem hpool.symm with rfl | hother
  · rfl
  · rw [h.others _ hother] at hcritical
    cases hcritical

/-- Ids are collected, if the deciding die is critical and no limit stands around it. -/
theorem criticalIds_ne_nil (h : DecidedByOne left right before after p)
    (hopen : left.DecidesOpenly ∧ right.DecidesOpenly) (hcritical : p.dice.critical = true) :
    (numberedCheck relation left right).criticalIds ≠ [] := by
  obtain ⟨k, hcheck⟩ := numberedCheck_eq relation left right
  have hany : (left.hasCriticalDice || right.hasCriticalDice) = true := by
    rw [left.hasCriticalDice_eq, right.hasCriticalDice_eq, ← List.any_append, h.pools]
    simp [hcritical]
  rw [hcheck, Node.criticalIds, ne_eq, List.append_eq_nil_iff, not_and_or]
  rcases Bool.or_eq_true_iff.1 hany with hleft | hright
  · exact .inl (h.plainLeft.criticalIds_withIds_ne_nil hopen.1 hleft 1)
  · exact .inr (h.plainRight.criticalIds_withIds_ne_nil hopen.2 hright k)

/-- **The ids that decide are that of the deciding die**, if it is the first literal or no limit
stands around it. -/
theorem decidingIds_eq (h : DecidedByOne left right before after p) (relation : Relation)
    (hopen : before = [] ∨ left.DecidesOpenly ∧ right.DecidesOpenly) (hrate : s.rate = some rate) :
    decidingIds s (numberedCheck relation left right) ≠ []
      ∧ ∀ id ∈ decidingIds s (numberedCheck relation left right), id = before.length + 1 := by
  unfold decidingIds
  rw [hrate, Option.isNone_some, if_neg Bool.false_ne_true]
  split
  · next hempty =>
    have hfirst : before = [] := by
      by_contra hne
      exact h.criticalIds_ne_nil (hopen.resolve_left hne) (h.decides.resolve_right hne)
        (List.isEmpty_iff.1 hempty)
    have hgroups : (numberedCheck relation left right).groups ≠ [] := by
      intro hnone
      have hpool := pool_group relation left right 0
      rw [hnone, h.pools, hfirst] at hpool
      cases hpool
    rw [(numbered_numberedCheck relation left right).leftmostId?_eq h.hasReference_eq hgroups,
      hfirst]
    simp
  · next hids =>
    rw [List.isEmpty_iff] at hids
    exact ⟨hids, fun id hid => h.eq_of_mem_criticalIds hid⟩

end DecidedByOne

end Numbered

end DiceOdds
