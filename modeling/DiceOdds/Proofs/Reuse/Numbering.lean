import DiceOdds.Proofs.Counting.Group
import DiceOdds.Proofs.Grammar.Unique

/-!
# Groups and their ids

In a formula that refers to dice every literal has an id.  The groups of such a formula, in source
order, have the ids `1`, `2`, …, and the node that defines the dice with an id is the node of the
group in that place.

## Why the groups and not the literals

A keep directly around a literal stands for its dice, and then two nodes have the same defining id.
Of these the keep comes first, both in source order and among the groups, which list each literal
once.
-/

namespace DiceOdds

/-! ## 1. Ids in source order -/

namespace Node

/-- These are the ids from `n` to `next`, and there are `k` of them. -/
def Consecutive (ids : List (Option ℕ)) (n k next : ℕ) : Prop :=
  ids = (List.range' n k).map some ∧ next = n + k

theorem Consecutive.append {ids ids' : List (Option ℕ)} {n k mid k' next : ℕ}
    (h : Consecutive ids n k mid) (h' : Consecutive ids' mid k' next) :
    Consecutive (ids ++ ids') n (k + k') next := by
  obtain ⟨rfl, rfl⟩ := h
  obtain ⟨rfl, rfl⟩ := h'
  refine ⟨?_, by omega⟩
  rw [← List.map_append, List.range'_append_1]

theorem pool?_withIds (node : Node) (n : ℕ) : (node.withIds n).1.pool? = node.pool? := by
  cases node <;> rfl

theorem literalItem?_withIdsAll (items : List Node) (n : ℕ) :
    literalItem? (withIdsAll items n).1 = literalItem? items := by
  match items with
  | [] => rfl
  | [item] => exact item.pool?_withIds n
  | _ :: _ :: _ => rfl

mutual

/-- The groups of a numbered formula have the ids from `n` on. -/
theorem consecutive_withIds : ∀ (node : Node) (n : ℕ),
    Consecutive ((node.withIds n).1.groups.map fun g => g.node.definingId?) n node.pools.length
      (node.withIds n).2
  | number _, _ => ⟨rfl, rfl⟩
  | dice _ _ _, _ => ⟨rfl, rfl⟩
  | reference _ _, _ => ⟨rfl, rfl⟩
  | keep kind count items, n => by
    have hitems := consecutive_withIdsAll items n
    rw [withIds, groups, literalItem?_withIdsAll, pools_keep]
    cases hitem : literalItem? items with
    | some p =>
      obtain ⟨id, rfl⟩ := eq_of_literalItem? hitem
      exact ⟨rfl, rfl⟩
    | none => exact hitems
  | comparison _ left right, n => by
    rw [withIds, groups, pools_comparison, List.map_append, List.length_append]
    exact (consecutive_withIds left n).append (consecutive_withIds right _)
  | conditional condition ifTrue ifFalse, n => by
    rw [withIds, groups, pools_conditional, List.map_append, List.map_append, List.length_append,
      List.length_append]
    exact ((consecutive_withIds condition n).append (consecutive_withIds ifTrue _)).append
      (consecutive_withIds ifFalse _)
  | binary _ left right, n => by
    rw [withIds, groups, pools_binary, List.map_append, List.length_append]
    exact (consecutive_withIds left n).append (consecutive_withIds right _)
  | double inner, n => by
    rw [withIds, groups, pools_double]
    exact consecutive_withIds inner n
  | switch normal critical, n => by
    rw [withIds, groups, pools_switch, List.map_append, List.length_append]
    exact (consecutive_withIds normal n).append (consecutive_withIds critical _)
  | only inner, n => by
    rw [withIds, groups, pools_only]
    exact consecutive_withIds inner n
  | function _ args, n => by
    rw [withIds, groups, pools_function]
    exact consecutive_withIdsAll args n
  | group inner, n => by
    rw [withIds, groups, pools_group]
    exact consecutive_withIds inner n

theorem consecutive_withIdsAll : ∀ (nodes : List Node) (n : ℕ),
    Consecutive ((groupsAll (withIdsAll nodes n).1).map fun g => g.node.definingId?) n
      (poolsAll nodes).length (withIdsAll nodes n).2
  | [], _ => ⟨rfl, rfl⟩
  | node :: rest, n => by
    rw [withIdsAll, groupsAll, poolsAll_cons, List.map_append, List.length_append]
    exact (consecutive_withIds node n).append (consecutive_withIdsAll rest _)

end

mutual

/-- Numbering leaves the dice as they are. -/
theorem pools_withIds : ∀ (node : Node) (n : ℕ), (node.withIds n).1.pools = node.pools
  | number _, _ => rfl
  | dice _ _ _, _ => rfl
  | reference _ _, _ => rfl
  | keep _ _ items, n => by
    rw [withIds, pools_keep, pools_keep, poolsAll_withIdsAll items n]
  | comparison _ left right, n => by
    rw [withIds, pools_comparison, pools_comparison, pools_withIds left, pools_withIds right]
  | conditional condition ifTrue ifFalse, n => by
    rw [withIds, pools_conditional, pools_conditional, pools_withIds condition,
      pools_withIds ifTrue, pools_withIds ifFalse]
  | binary _ left right, n => by
    rw [withIds, pools_binary, pools_binary, pools_withIds left, pools_withIds right]
  | double inner, n => by rw [withIds, pools_double, pools_double, pools_withIds inner n]
  | switch normal critical, n => by
    rw [withIds, pools_switch, pools_switch, pools_withIds normal, pools_withIds critical]
  | only inner, n => by rw [withIds, pools_only, pools_only, pools_withIds inner n]
  | function _ args, n => by
    rw [withIds, pools_function, pools_function, poolsAll_withIdsAll args n]
  | group inner, n => by rw [withIds, pools_group, pools_group, pools_withIds inner n]

theorem poolsAll_withIdsAll : ∀ (nodes : List Node) (n : ℕ),
    poolsAll (withIdsAll nodes n).1 = poolsAll nodes
  | [], _ => rfl
  | node :: rest, n => by
    rw [withIdsAll, poolsAll_cons, poolsAll_cons, pools_withIds node, poolsAll_withIdsAll rest]

end

/-- The groups have the ids `1`, `2`, …, in this order. -/
def Numbered (node : Node) : Prop :=
  node.groups.map (fun g => g.node.definingId?) = (List.range' 1 node.groups.length).map some

theorem numbered_withIds (node : Node) : (node.withIds 1).1.Numbered := by
  have hids := (node.consecutive_withIds 1).1
  rw [Numbered, hids, ← node.pools_withIds 1, ← groups_pools, List.length_map]

theorem Numbered.definingId?_getElem {node : Node} (h : node.Numbered) {i : ℕ}
    (hi : i < node.groups.length) : node.groups[i].node.definingId? = some (i + 1) := by
  have hget := congrArg (·[i]?) h
  simpa [hi, add_comm] using hget

/-! ## 2. The node that defines some dice -/

theorem definingId?_of_definition? {node part : Node} {id : ℕ}
    (h : node.definition? id = some part) : part.definingId? = some id := by
  rw [definition?] at h
  exact of_decide_eq_true (List.find?_some h :)

/-- The node that defines some dice is a part of the tree. -/
theorem definition?_mem {node n : Node} {id : ℕ} (h : node.definition? id = some n) :
    n ∈ node.subterms := List.mem_of_find?_eq_some h

/-- A node that defines no dice itself is passed over. -/
theorem definition?_of_subterms {node : Node} {parts : List Node}
    (hsub : node.subterms = node :: parts) (hid : node.definingId? = none) (id : ℕ) :
    node.definition? id = parts.find? fun n => n.definingId? = some id := by
  rw [definition?, hsub, List.find?_cons_of_neg (by simp [hid])]

/-- The first of two lists in which something is found decides, on both sides. -/
theorem find?_append_map {α β : Type} {p : α → Bool} {q : β → Bool} {f : β → α} {l m : List α}
    {l' m' : List β} (hl : l.find? p = (l'.find? q).map f) (hm : m.find? p = (m'.find? q).map f) :
    (l ++ m).find? p = ((l' ++ m').find? q).map f := by
  rw [List.find?_append, List.find?_append, hl, hm]
  cases l'.find? q <;> rfl

mutual

/-- The first part that defines some dice is the node of the first group with their id. -/
theorem definition?_eq_find? : ∀ (node : Node) (id : ℕ),
    node.definition? id = (node.groups.find? fun g => g.node.definingId? = some id).map Group.node
  | number _, _ => rfl
  | dice d i modifier, id => by
    by_cases h : i = some id <;> simp [definition?, subterms, groups, definingId?, literalId?, h]
  | reference _ _, _ => rfl
  | keep kind count items, id => by
    rw [groups]
    cases hitem : literalItem? items with
    | some p =>
      obtain ⟨i, rfl⟩ := eq_of_literalItem? hitem
      by_cases h : i = some id <;>
        simp [definition?, subterms, subtermsAll, definingId?, literalId?, h]
    | none =>
      rw [definition?_of_subterms (by rw [subterms]) (definingId?_keep hitem)]
      exact find?_subtermsAll items id
  | comparison _ left right, id => by
    rw [definition?_of_subterms (by rw [subterms]) rfl, groups]
    exact find?_append_map (definition?_eq_find? left id) (definition?_eq_find? right id)
  | conditional condition ifTrue ifFalse, id => by
    rw [definition?_of_subterms (by rw [subterms]) rfl, groups]
    exact find?_append_map (find?_append_map (definition?_eq_find? condition id)
      (definition?_eq_find? ifTrue id)) (definition?_eq_find? ifFalse id)
  | binary _ left right, id => by
    rw [definition?_of_subterms (by rw [subterms]) rfl, groups]
    exact find?_append_map (definition?_eq_find? left id) (definition?_eq_find? right id)
  | double inner, id => by
    rw [definition?_of_subterms (by rw [subterms]) rfl, groups]
    exact definition?_eq_find? inner id
  | switch normal critical, id => by
    rw [definition?_of_subterms (by rw [subterms]) rfl, groups]
    exact find?_append_map (definition?_eq_find? normal id) (definition?_eq_find? critical id)
  | only inner, id => by
    rw [definition?_of_subterms (by rw [subterms]) rfl, groups]
    exact definition?_eq_find? inner id
  | function _ args, id => by
    rw [definition?_of_subterms (by rw [subterms]) rfl, groups]
    exact find?_subtermsAll args id
  | group inner, id => by
    rw [definition?_of_subterms (by rw [subterms]) rfl, groups]
    exact definition?_eq_find? inner id

theorem find?_subtermsAll : ∀ (nodes : List Node) (id : ℕ),
    ((subtermsAll nodes).find? fun n => n.definingId? = some id)
      = ((groupsAll nodes).find? fun g => g.node.definingId? = some id).map Group.node
  | [], _ => rfl
  | node :: rest, id => by
    rw [subtermsAll, groupsAll]
    exact find?_append_map (definition?_eq_find? node id) (find?_subtermsAll rest id)

end

/-- The dice with the id `i + 1` are those of the group in place `i`. -/
theorem Numbered.definition?_eq {node : Node} (h : node.Numbered) {i : ℕ}
    (hi : i < node.groups.length) : node.definition? (i + 1) = some node.groups[i].node := by
  rw [definition?_eq_find?, Option.map_eq_some_iff]
  refine ⟨node.groups[i], ?_, rfl⟩
  rw [List.find?_eq_some_iff_getElem]
  refine ⟨by simp [h.definingId?_getElem hi], i, hi, rfl, fun j hj => ?_⟩
  rw [h.definingId?_getElem (hj.trans hi)]
  simpa using hj.ne

end Node

/-! ## 3. The dice of a text -/

theorem Node.mem_poolsAll {nodes : List Node} {p : Pool} :
    p ∈ poolsAll nodes ↔ ∃ node ∈ nodes, p ∈ node.pools := by
  induction nodes with
  | nil => simp
  | cons node rest ih => simp [ih]

/-- The dice of a tree are written in its word. -/
theorem Derives.dice_mem {l : Level} {w : List Lexeme} {a : Node} (h : Derives l w a) :
    ∀ p ∈ a.pools, Lexeme.dice p.dice ∈ w := by
  induction h with
  | number value => simp
  | reference id critical => simp
  | dice d => simp
  | modified d _ => simp
  | ofAtom _ ih | ofFactor _ ih | ofMultiplicative _ ih | ofAdditive _ ih | ofComparison _ ih =>
    exact ih
  | @keep kind count u a parts _ _ iha ihparts =>
    intro p hp
    rw [Node.pools_keep, Node.poolsAll_cons] at hp
    rcases List.mem_append.1 hp with hp | hp
    · simp [iha p hp]
    · obtain ⟨node, hnode, hp⟩ := Node.mem_poolsAll.1 hp
      obtain ⟨part, hpart, rfl⟩ := List.mem_map.1 hnode
      have hmem : Lexeme.dice p.dice ∈ separated .semicolon parts :=
        List.mem_flatMap.2 ⟨part, hpart, List.mem_cons_of_mem _ (ihparts part hpart p hp)⟩
      simp [hmem]
  | group _ ih | double _ ih | only _ ih =>
    intro p hp
    simp [ih p (by simpa using hp)]
  | function name _ _ iha ihb =>
    intro p hp
    simp only [Node.pools_function, Node.poolsAll_cons, Node.poolsAll_nil, List.append_nil,
      List.mem_append] at hp
    rcases hp with hp | hp
    · simp [iha p hp]
    · simp [ihb p hp]
  | switch _ _ iha ihb =>
    intro p hp
    rw [Node.pools_switch, List.mem_append] at hp
    rcases hp with hp | hp
    · simp [iha p hp]
    · simp [ihb p hp]
  | product _ _ _ iha ihb | sum _ _ _ iha ihb =>
    intro p hp
    rw [Node.pools_binary, List.mem_append] at hp
    rcases hp with hp | hp
    · simp [iha p hp]
    · simp [ihb p hp]
  | comparison relation _ _ iha ihb =>
    intro p hp
    rw [Node.pools_comparison, List.mem_append] at hp
    rcases hp with hp | hp
    · simp [iha p hp]
    · simp [ihb p hp]
  | conditional _ _ _ _ ihc iha ihb =>
    intro p hp
    rw [Node.pools_conditional, List.mem_append, List.mem_append] at hp
    rcases hp with (hp | hp) | hp
    · simp [ihc p hp]
    · simp [iha p hp]
    · simp [ihb p hp]

/-- A text that is no error begins with a token that has passed its check. -/
theorem tokensFrom_cons_eq_ok {offset : ℕ} {c : Char} {cs : List Char} {ts : List Token}
    (h : tokensFrom offset (c :: cs) = .ok ts) :
    ∃ lexeme rest more, lexeme.check offset = .ok () ∧ rest.length < (c :: cs).length
      ∧ tokensFrom (offset + ((c :: cs).length - rest.length)) rest = .ok more
      ∧ ts = ⟨lexeme, offset⟩ :: more := by
  rw [tokensFrom] at h
  split at h
  · cases h
  · next lexeme rest hscan =>
    split at h
    · cases h
    · next hcheck =>
      obtain ⟨more, hmore, h⟩ := bind_eq_ok.1 h
      exact ⟨lexeme, rest, more, hcheck, Lexeme.length_scan_lt hscan, hmore,
        (pure_eq_ok.1 h).symm⟩

/-- **Every token of a text has passed its check.** -/
theorem check_of_mem_tokensFrom {offset : ℕ} {cs : List Char} {ts : List Token}
    (h : tokensFrom offset cs = .ok ts) : ∀ t ∈ ts, t.lexeme.check t.offset = .ok () := by
  induction hn : cs.length using Nat.strong_induction_on generalizing offset cs ts with
  | _ n ih =>
    cases cs with
    | nil =>
      rw [tokensFrom] at h
      cases h
      simp
    | cons c cs =>
      obtain ⟨lexeme, rest, more, hcheck, hlen, hmore, rfl⟩ := tokensFrom_cons_eq_ok h
      intro t ht
      rcases List.mem_cons.1 ht with rfl | ht
      · exact hcheck
      · exact ih rest.length (hn ▸ hlen) hmore rfl t ht

theorem Lexeme.sides_ne_zero_of_check {d : Dice} {offset : ℕ}
    (h : (Lexeme.dice d).check offset = .ok ()) : d.sides ≠ 0 := by
  rw [check] at h
  split at h
  · cases h
  · split at h
    · cases h
    · assumption

/-! ## 4. Formulas that refer to dice -/

namespace Formula

/-- What the formula of a text is made from. -/
theorem ofText_eq_ok {text : String} {f : Formula} (h : ofText text = .ok f) :
    ∃ root : Node, f = ofNode root ∧ ∀ p ∈ root.pools, p.dice.sides ≠ 0 := by
  unfold ofText at h
  split at h
  · cases h
  · next ts hts =>
    rw [ofTokens] at h
    cases hroot : Node.ofTokens ts with
    | error e => rw [hroot] at h; cases h
    | ok root =>
      rw [hroot] at h
      cases h
      refine ⟨root, rfl, fun p hp => ?_⟩
      have hmem := (Node.ofTokens_eq_ok_iff.1 hroot).dice_mem p hp
      obtain ⟨t, ht, hdice⟩ := List.mem_map.1 hmem
      have hcheck := check_of_mem_tokensFrom hts t ht
      rw [hdice] at hcheck
      exact Lexeme.sides_ne_zero_of_check hcheck

theorem length_registry_withIds (root : Node) :
    root.literals.length = (root.withIds 1).1.groups.length := by
  have hliteral : Node.literal? = fun n => n.pool?.map Pool.dice := by
    funext n
    cases n <;> rfl
  rw [Node.literals, hliteral, ← List.map_filterMap, List.length_map, ← Node.pools,
    ← root.pools_withIds 1, ← Node.groups_pools, List.length_map]

/-- **In a text that refers to dice the groups are numbered** like the dice of the registry, and
all of their dice have sides. -/
theorem numbered_of_ofText {text : String} {f : Formula} (h : ofText text = .ok f)
    (hreuse : f.hasReuse = true) :
    f.root.Numbered ∧ f.registry.length = f.root.groups.length
      ∧ ∀ g ∈ f.root.groups, g.pool.dice.sides ≠ 0 := by
  obtain ⟨root, rfl, hsides⟩ := ofText_eq_ok h
  unfold ofNode at hreuse ⊢
  split at hreuse
  · next href =>
    rw [if_pos href]
    refine ⟨root.numbered_withIds, length_registry_withIds root, fun g hg => ?_⟩
    refine hsides g.pool ?_
    rw [← root.pools_withIds 1, ← Node.groups_pools]
    exact List.mem_map_of_mem hg
  · cases hreuse

end Formula

end DiceOdds
