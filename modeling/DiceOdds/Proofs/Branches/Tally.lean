import DiceOdds.Proofs.Branches.Places

/-!
# The tally of conditions

Where values are used more than once, the conditions in the branches are counted over all
combinations of values: each place collects the weight of the combinations that reach it and of
those in which its condition holds.

## Why the law of the tree is linear

In every combination the conditions are a tree, and a place is reached as often as the one before it
is reached and leads there.  Multiplied by the weight of the combination this is an equation between
weights, and such equations may be added up.  The probabilities are made from the weights at the
end, and the equations become the law of the tree again (`TallyLaw.tree`).
-/

namespace DiceOdds

/-! ## 1. The table of conditions -/

instance : Std.TransOrd BranchStep where
  eq_swap := by
    intro a b
    cases a <;> cases b <;> rfl
  isLE_trans := by
    intro a b c
    cases a <;> cases b <;> cases c <;> decide

instance : Std.LawfulEqOrd BranchStep where
  eq_of_compare {a b} h := by
    revert h
    cases a <;> cases b <;> decide

instance : Std.TransOrd NestedKey :=
  inferInstanceAs
    (Std.TransCmp (compareLex (compareOn NestedKey.path) (compareOn NestedKey.condition)))

instance : Std.LawfulEqOrd NestedKey where
  eq_of_compare {a b} h := by
    obtain ⟨hpath, hcondition⟩ := compareLex_eq_eq.1 h
    cases a
    cases b
    congr
    · exact Std.compare_eq_iff_eq.1 hpath
    · exact Std.compare_eq_iff_eq.1 hcondition

/-- What has been counted at a place. -/
def entryAt (t : NestedTally ℚ) (key : NestedKey) : NestedEntry ℚ := t.getD key ⟨0, 0, 0⟩

theorem entryAt_of_mem_toList {t : NestedTally ℚ} {p : NestedKey × NestedEntry ℚ}
    (h : p ∈ t.toList) : p.1 ∈ t ∧ entryAt t p.1 = p.2 := by
  have hget := Std.TreeMap.mem_toList_iff_getElem?_eq_some.1 h
  constructor
  · rw [← Std.TreeMap.isSome_getElem?_iff_mem, hget, Option.isSome_some]
  · rw [entryAt, Std.TreeMap.getD_eq_getD_getElem?, hget, Option.getD_some]

theorem mem_toList_of_mem {t : NestedTally ℚ} {key : NestedKey} (h : key ∈ t) :
    (key, entryAt t key) ∈ t.toList := by
  obtain ⟨entry, hentry⟩ := Option.isSome_iff_exists.1 (Std.TreeMap.isSome_getElem?_iff_mem.2 h)
  rw [Std.TreeMap.mem_toList_iff_getElem?_eq_some, entryAt, Std.TreeMap.getD_eq_getD_getElem?,
    hentry, Option.getD_some]

section AddEntry

variable (step : BranchStep) (weight : ℚ) (t : NestedTally ℚ) (entry : NestedCondition ℚ)
  (key : NestedKey)

/-- Counting one condition changes what is counted at its place. -/
theorem entryAt_addNestedEntry : entryAt (addNestedEntry step weight t entry) key
    = if entry.key.under step = key then
        ⟨entry.level + 1, (entryAt t key).reach + weight * entry.parentProbability,
          (entryAt t key).success + weight * entry.parentProbability * entry.successProbability⟩
      else entryAt t key := by
  have hadd : addNestedEntry step weight t entry = t.alter (entry.key.under step) fun old =>
      some ⟨entry.level + 1, (old.getD ⟨0, 0, 0⟩).reach + weight * entry.parentProbability,
        (old.getD ⟨0, 0, 0⟩).success
          + weight * entry.parentProbability * entry.successProbability⟩ := rfl
  rw [hadd, entryAt, Std.TreeMap.getD_alter]
  by_cases h : entry.key.under step = key
  · subst h
    simp [entryAt, Std.TreeMap.getD_eq_getD_getElem?]
  · rw [if_neg h, if_neg fun heq => h (Std.compare_eq_iff_eq.1 heq), entryAt]

theorem mem_addNestedEntry :
    key ∈ addNestedEntry step weight t entry ↔ entry.key.under step = key ∨ key ∈ t := by
  have hadd : addNestedEntry step weight t entry = t.alter (entry.key.under step) fun old =>
      some ⟨entry.level + 1, (old.getD ⟨0, 0, 0⟩).reach + weight * entry.parentProbability,
        (old.getD ⟨0, 0, 0⟩).success
          + weight * entry.parentProbability * entry.successProbability⟩ := rfl
  rw [hadd, Std.TreeMap.mem_alter]
  by_cases h : entry.key.under step = key
  · simp [h]
  · simp [h]

end AddEntry

/-! ## 2. Counting one branch -/

/-- Among entries with different keys, one is picked out by its key. -/
theorem sum_of_key {entries : List (NestedCondition ℚ)}
    (hnodup : (entries.map NestedCondition.key).Nodup) {entry : NestedCondition ℚ}
    (he : entry ∈ entries) (F : NestedCondition ℚ → ℚ) :
    (entries.map fun other => if other.key = entry.key then F other else 0).sum = F entry := by
  classical
  have hkey : ∀ other ∈ entries, (if other.key = entry.key then F other else 0)
      = if other = entry then F entry else 0 := by
    intro other ho
    by_cases h : other = entry
    · rw [h, if_pos rfl, if_pos rfl]
    · rw [if_neg h, if_neg fun hk => h (List.inj_on_of_nodup_map hnodup ho he hk)]
  rw [List.map_congr_left hkey]
  exact sum_ite_eq_of_nodup (List.Nodup.of_map _ hnodup) he _

section AddBranch

variable {t : NestedTally ℚ} {branch : Evaluation ℚ} {step : BranchStep} {weight : ℚ}

theorem reach_addNested (key : NestedKey) : (entryAt (addNested t branch step weight) key).reach
    = (entryAt t key).reach + (branch.nested.map fun entry =>
        if entry.key.under step = key then weight * entry.parentProbability else 0).sum :=
  foldl_measure _ (fun t => (entryAt t key).reach) _ branch.nested t fun t entry _ => by
    rw [entryAt_addNestedEntry]
    split
    · rfl
    · rw [add_zero]

theorem success_addNested (key : NestedKey) :
    (entryAt (addNested t branch step weight) key).success
      = (entryAt t key).success + (branch.nested.map fun entry => if entry.key.under step = key then
          weight * entry.parentProbability * entry.successProbability else 0).sum :=
  foldl_measure _ (fun t => (entryAt t key).success) _ branch.nested t fun t entry _ => by
    rw [entryAt_addNestedEntry]
    split
    · rfl
    · rw [add_zero]

theorem mem_addNested {key : NestedKey} : key ∈ addNested t branch step weight
    ↔ (∃ entry ∈ branch.nested, entry.key.under step = key) ∨ key ∈ t := by
  rw [addNested]
  induction branch.nested generalizing t with
  | nil => simp
  | cons entry rest ih =>
    rw [List.foldl_cons, ih, mem_addNestedEntry]
    simp only [List.mem_cons, exists_eq_or_imp]
    rw [or_assoc, or_left_comm]

/-- Levels count the steps of paths. -/
theorem level_addNested (ht : ∀ key ∈ t, (entryAt t key).level = key.path.length)
    (hentries : ∀ entry ∈ branch.nested, entry.level = entry.path.length) :
    ∀ key ∈ addNested t branch step weight,
      (entryAt (addNested t branch step weight) key).level = key.path.length := by
  refine foldl_invariant _ (fun t : NestedTally ℚ =>
    ∀ key ∈ t, (entryAt t key).level = key.path.length) branch.nested ht
    fun t entry he ht key hkey => ?_
  rw [entryAt_addNestedEntry]
  split
  · next hplace =>
    rw [← hplace]
    exact congrArg (· + 1) (hentries entry he)
  · next hplace => exact ht key (((mem_addNestedEntry ..).1 hkey).resolve_left hplace)

/-- Below other steps nothing changes. -/
theorem addNested_of_ne {step' : BranchStep} (hne : step ≠ step') (place : NestedKey) :
    (entryAt (addNested t branch step weight) (place.under step')).reach
        = (entryAt t (place.under step')).reach
      ∧ (entryAt (addNested t branch step weight) (place.under step')).success
        = (entryAt t (place.under step')).success
      ∧ (place.under step' ∈ addNested t branch step weight ↔ place.under step' ∈ t) := by
  have hkey : ∀ entry : NestedCondition ℚ, ¬ entry.key.under step = place.under step' :=
    fun entry h => hne (NestedKey.under_injective h).1
  refine ⟨?_, ?_, ?_⟩
  · rw [reach_addNested]
    simp [hkey]
  · rw [success_addNested]
    simp [hkey]
  · rw [mem_addNested]
    simp [hkey]

/-- At its own place, a condition of the branch counts what it says. -/
theorem addNested_of_mem (hnodup : (branch.nested.map NestedCondition.key).Nodup)
    {entry : NestedCondition ℚ} (he : entry ∈ branch.nested) :
    (entryAt (addNested t branch step weight) (entry.key.under step)).reach
        = (entryAt t (entry.key.under step)).reach + weight * entry.parentProbability
      ∧ (entryAt (addNested t branch step weight) (entry.key.under step)).success
        = (entryAt t (entry.key.under step)).success
          + weight * entry.parentProbability * entry.successProbability := by
  have hkey : ∀ other : NestedCondition ℚ,
      other.key.under step = entry.key.under step ↔ other.key = entry.key :=
    fun other => ⟨fun h => (NestedKey.under_injective h).2, fun h => by rw [h]⟩
  constructor
  · rw [reach_addNested]
    simp only [hkey]
    rw [sum_of_key hnodup he fun other => weight * other.parentProbability]
  · rw [success_addNested]
    simp only [hkey]
    rw [sum_of_key hnodup he fun other =>
      weight * other.parentProbability * other.successProbability]

end AddBranch

/-! ## 3. The law of the tally -/

/-- What holds of a tally of conditions: `branch?` is the branch behind a step from the root, and
`taken` the weight with which the step has been taken. -/
structure TallyLaw (branch? : BranchStep → Option Node) (taken : BranchStep → ℚ)
    (t : NestedTally ℚ) : Prop where
  /-- Conditions stand at places of a branch. -/
  place : ∀ key ∈ t, ∃ step node, branch? step = some node
    ∧ ∃ place ∈ node.places, key = place.under step
  level_eq : ∀ key ∈ t, (entryAt t key).level = key.path.length
  /-- A branch is counted as a whole. -/
  complete : ∀ step node, branch? step = some node → ∀ place ∈ node.places,
    place.under step ∈ t → ∀ other ∈ node.places, other.under step ∈ t
  /-- The first condition of a branch is reached whenever the branch is taken. -/
  first : ∀ step node, branch? step = some node → ∀ place ∈ node.places, place.path = [] →
    (entryAt t (place.under step)).reach = taken step
  /-- Other conditions are reached when the one before them holds, or when it fails. -/
  holds : ∀ step node, branch? step = some node → ∀ place ∈ node.places, ∀ child ∈ node.places,
    child.path = place.path ++ [.true] →
    (entryAt t (child.under step)).reach = (entryAt t (place.under step)).success
  fails : ∀ step node, branch? step = some node → ∀ place ∈ node.places, ∀ child ∈ node.places,
    child.path = place.path ++ [.false] → (entryAt t (child.under step)).reach
      = (entryAt t (place.under step)).reach - (entryAt t (place.under step)).success
  bounds : ∀ key, 0 ≤ (entryAt t key).success ∧ (entryAt t key).success ≤ (entryAt t key).reach

namespace TallyLaw

variable {branch? : BranchStep → Option Node} {taken : BranchStep → ℚ} {t : NestedTally ℚ}

theorem start (htaken : ∀ step, taken step = 0) : TallyLaw branch? taken ∅ := by
  have hempty : ∀ key, entryAt ∅ key = ⟨0, 0, 0⟩ := fun key => by simp [entryAt]
  have hnot : ∀ key, key ∉ (∅ : NestedTally ℚ) := fun key => Std.TreeMap.not_mem_emptyc
  refine ⟨fun key h => absurd h (hnot key), fun key h => absurd h (hnot key),
    fun _ _ _ _ _ h => absurd h (hnot _), fun step _ _ _ _ _ => ?_, fun _ _ _ _ _ _ _ _ => ?_,
    fun _ _ _ _ _ _ _ _ => ?_, fun key => ?_⟩
  · rw [hempty, htaken]
  · rw [hempty, hempty]
  · rw [hempty, hempty, sub_zero]
  · rw [hempty]
    exact ⟨le_rfl, le_rfl⟩

section AddBranch

variable {s : Settings ℚ} {split : SplitCheck ℚ} {ctx : Context} {node : Node}
  {branch : Evaluation ℚ} {step : BranchStep} {weight : ℚ}

/-- The condition of a branch that stands at one of its places. -/
theorem exists_of_place (hctx : ctx.pinned.isSome = true) (hw : node.walk s split ctx = .ok branch)
    {place : NestedKey} (hplace : place ∈ node.places) :
    ∃ entry ∈ branch.nested, entry.key = place := by
  rw [← Node.keys_walk hctx hw] at hplace
  exact List.mem_map.1 hplace

/-- A condition of a branch behind another one is reached as the other one says. -/
theorem parentProbability_child (hctx : ctx.pinned.isSome = true)
    (hw : node.walk s split ctx = .ok branch) {entry child : NestedCondition ℚ}
    (he : entry ∈ branch.nested) (hc : child ∈ branch.nested) {next : BranchStep}
    (hpath : child.path = entry.path ++ [next]) :
    ∃ q, entry.twoWayProbability? next = some q
      ∧ child.parentProbability = entry.parentProbability * q := by
  rcases Node.tree_pinned hctx hw with hnil | htree
  · rw [hnil] at he
    cases he
  · obtain ⟨parent, hparent, q, hpp, hq, hprod⟩ := htree.parent child hc entry.path next hpath
    rw [htree.eq_of_path_eq hparent he hpp] at hq hprod
    exact ⟨q, hq, hprod.symm⟩

/-- The first condition of a branch is always reached. -/
theorem parentProbability_first (hctx : ctx.pinned.isSome = true)
    (hw : node.walk s split ctx = .ok branch) {entry : NestedCondition ℚ}
    (he : entry ∈ branch.nested) (hnil : entry.path = []) : entry.parentProbability = 1 := by
  rcases Node.tree_pinned hctx hw with hnested | htree
  · rw [hnested] at he
    cases he
  · exact htree.parentProbability_of_nil he hnil

theorem nodup_keys (hctx : ctx.pinned.isSome = true) (hw : node.walk s split ctx = .ok branch) :
    (branch.nested.map NestedCondition.key).Nodup := by
  rcases Node.tree_pinned hctx hw with hnil | htree
  · rw [hnil]
    exact List.nodup_nil
  · refine List.Nodup.of_map NestedKey.path ?_
    rw [List.map_map]
    exact htree.nodup

theorem level_nested (hctx : ctx.pinned.isSome = true) (hw : node.walk s split ctx = .ok branch) :
    ∀ entry ∈ branch.nested, entry.level = entry.path.length := by
  rcases Node.tree_pinned hctx hw with hnil | htree
  · rw [hnil]
    exact List.forall_mem_nil _
  · exact htree.level_eq

/-- A branch adds no more to what holds at a place than to how often it is reached. -/
theorem bounds_addNested (h : TallyLaw branch? taken t) (hctx : ctx.pinned.isSome = true)
    (hw : node.walk s split ctx = .ok branch) (hweight : 0 ≤ weight) (key : NestedKey) :
    0 ≤ (entryAt (DiceOdds.addNested t branch step weight) key).success
      ∧ (entryAt (DiceOdds.addNested t branch step weight) key).success
        ≤ (entryAt (DiceOdds.addNested t branch step weight) key).reach := by
  have hbounds := Node.bounds_pinned hctx hw
  rw [reach_addNested, success_addNested]
  obtain ⟨hs, hr⟩ := h.bounds key
  refine ⟨add_nonneg hs (List.sum_nonneg fun x hx => ?_), add_le_add hr
    (List.sum_le_sum fun entry he => ?_)⟩
  · obtain ⟨entry, he, rfl⟩ := List.mem_map.1 hx
    obtain ⟨hp, hsp, -⟩ := hbounds entry he
    split
    · exact mul_nonneg (mul_nonneg hweight hp) hsp
    · exact le_rfl
  · obtain ⟨hp, -, hsp⟩ := hbounds entry he
    split
    · exact mul_le_of_le_one_right (mul_nonneg hweight hp) hsp
    · exact le_rfl

/-- **A branch that is counted keeps the law**: below its own step the tally grows by what the
conditions of the branch say, below other steps it stays. -/
theorem addNested (h : TallyLaw branch? taken t) (hctx : ctx.pinned.isSome = true)
    (hbranch : branch? step = some node) (hw : node.walk s split ctx = .ok branch)
    (hweight : 0 ≤ weight) {taken' : BranchStep → ℚ}
    (htaken : ∀ step', taken' step' = taken step' + if step' = step then weight else 0) :
    TallyLaw branch? taken' (DiceOdds.addNested t branch step weight) := by
  have hnodup := nodup_keys hctx hw
  refine {
    place := ?place
    level_eq := level_addNested h.level_eq (level_nested hctx hw)
    complete := ?complete
    first := ?first
    holds := ?holds
    fails := ?fails
    bounds := h.bounds_addNested hctx hw hweight }
  case place =>
    intro key hkey
    rcases mem_addNested.1 hkey with ⟨entry, he, rfl⟩ | hkey
    · refine ⟨step, node, hbranch, entry.key, ?_, rfl⟩
      rw [← Node.keys_walk hctx hw]
      exact List.mem_map_of_mem he
    · exact h.place key hkey
  case complete =>
    intro step' node' hnode' place hp hmem other ho
    rcases eq_or_ne step step' with rfl | hne
    · obtain rfl := Option.some.inj (hbranch.symm.trans hnode')
      obtain ⟨entry, he, rfl⟩ := exists_of_place hctx hw ho
      exact mem_addNested.2 (.inl ⟨entry, he, rfl⟩)
    · rw [(addNested_of_ne hne _).2.2] at hmem ⊢
      exact h.complete step' node' hnode' place hp hmem other ho
  case first =>
    intro step' node' hnode' place hp hnil
    rcases eq_or_ne step step' with rfl | hne
    · obtain rfl := Option.some.inj (hbranch.symm.trans hnode')
      obtain ⟨entry, he, rfl⟩ := exists_of_place hctx hw hp
      rw [(addNested_of_mem hnodup he).1, h.first step node hnode' _ hp hnil, htaken, if_pos rfl,
        parentProbability_first hctx hw he hnil, mul_one]
    · rw [(addNested_of_ne hne _).1, h.first step' node' hnode' _ hp hnil, htaken,
        if_neg hne.symm, add_zero]
  case holds =>
    intro step' node' hnode' place hp child hc hpath
    rcases eq_or_ne step step' with rfl | hne
    · obtain rfl := Option.some.inj (hbranch.symm.trans hnode')
      obtain ⟨entry, he, rfl⟩ := exists_of_place hctx hw hp
      obtain ⟨next, hn, rfl⟩ := exists_of_place hctx hw hc
      obtain ⟨q, hq, hchild⟩ := parentProbability_child hctx hw he hn hpath
      rw [(addNested_of_mem hnodup hn).1, (addNested_of_mem hnodup he).2,
        h.holds step node hnode' _ hp _ hc hpath, hchild, ← Option.some.inj hq, mul_assoc]
    · rw [(addNested_of_ne hne _).1, (addNested_of_ne hne _).2.1,
        h.holds step' node' hnode' _ hp _ hc hpath]
  case fails =>
    intro step' node' hnode' place hp child hc hpath
    rcases eq_or_ne step step' with rfl | hne
    · obtain rfl := Option.some.inj (hbranch.symm.trans hnode')
      obtain ⟨entry, he, rfl⟩ := exists_of_place hctx hw hp
      obtain ⟨next, hn, rfl⟩ := exists_of_place hctx hw hc
      obtain ⟨q, hq, hchild⟩ := parentProbability_child hctx hw he hn hpath
      rw [(addNested_of_mem hnodup hn).1, (addNested_of_mem hnodup he).1,
        (addNested_of_mem hnodup he).2, h.fails step node hnode' _ hp _ hc hpath, hchild,
        ← Option.some.inj hq]
      ring
    · rw [(addNested_of_ne hne _).1, (addNested_of_ne hne _).1, (addNested_of_ne hne _).2.1,
        h.fails step' node' hnode' _ hp _ hc hpath]

end AddBranch

/-! ## 4. Back to probabilities -/

/-- The share of a place's weight that its condition passes on to either side. -/
theorem passed_weight {entry : NestedEntry ℚ} (hs : 0 ≤ entry.success)
    (hr : entry.success ≤ entry.reach) (total : ℚ) (key : NestedKey) :
    (entry.condition total key).parentProbability * (entry.condition total key).successProbability
        = (if total == 0 then 0 else entry.success / total)
      ∧ (entry.condition total key).parentProbability
          * (entry.condition total key).failureProbability
        = if total == 0 then 0 else (entry.reach - entry.success) / total := by
  simp only [NestedEntry.condition, beq_iff_eq]
  by_cases htotal : total = 0
  · simp [htotal]
  by_cases hreach : entry.reach = 0
  · have hzero : entry.success = 0 := le_antisymm (hreach ▸ hr) hs
    simp [hreach, hzero]
  · simp only [if_neg htotal, if_neg hreach]
    constructor
    · field_simp
    · field_simp

/-- Different entries of the table have different paths. -/
theorem nodup_paths (h : TallyLaw branch? taken t) (total : ℚ) :
    ((nestedConditions t total).map NestedCondition.path).Nodup := by
  have hpaths : (nestedConditions t total).map NestedCondition.path
      = t.keys.map NestedKey.path := by
    rw [nestedConditions, ← Std.TreeMap.map_fst_toList_eq_keys, List.map_map, List.map_map]
    rfl
  rw [hpaths]
  refine List.Nodup.map_on (fun key hkey other ho hpath => ?_) Std.TreeMap.nodup_keys
  rw [Std.TreeMap.mem_keys] at hkey ho
  obtain ⟨step, node, hnode, place, hplace, rfl⟩ := h.place key hkey
  obtain ⟨step', node', hnode', place', hplace', rfl⟩ := h.place other ho
  obtain ⟨rfl, hplaces⟩ := List.cons.inj hpath
  obtain rfl := Option.some.inj (hnode.symm.trans hnode')
  rw [Node.eq_of_mem_places hplace hplace' hplaces]

/-- An entry of the table seen as a condition. -/
theorem exists_of_mem (h : TallyLaw branch? taken t) {total : ℚ} {entry : NestedCondition ℚ}
    (he : entry ∈ nestedConditions t total) : ∃ step node place, branch? step = some node
      ∧ place ∈ node.places ∧ place.under step ∈ t
      ∧ entry = (entryAt t (place.under step)).condition total (place.under step) := by
  obtain ⟨p, hp, rfl⟩ := List.mem_map.1 he
  obtain ⟨hmem, hentry⟩ := entryAt_of_mem_toList hp
  obtain ⟨step, node, hnode, place, hplace, hkey⟩ := h.place p.1 hmem
  refine ⟨step, node, place, hnode, hplace, hkey ▸ hmem, ?_⟩
  rw [← hkey, hentry]

/-- **The law of the tally is the law of the tree.**  Below a root that gives each step the share
of the weight with which it has been taken, the counted conditions are a tree. -/
theorem tree (h : TallyLaw branch? taken t) {root : NestedCondition ℚ} {total : ℚ}
    (hlevel : root.level = 0) (hpath : root.path = []) (hone : root.parentProbability = 1)
    (hsteps : ∀ step node, branch? step = some node →
      root.stepProbability? step = some (if total == 0 then 0 else taken step / total)) :
    ProbabilityTree NestedCondition.stepProbability? (root :: nestedConditions t total) := by
  refine ⟨⟨root, _, rfl, hlevel, hpath, hone⟩, fun entry he => ?_, ?_,
    fun entry he path step hentry => ?_⟩
  · rcases List.mem_cons.1 he with rfl | he
    · rw [hlevel, hpath, List.length_nil]
    · obtain ⟨step, node, place, -, -, hmem, rfl⟩ := h.exists_of_mem he
      exact h.level_eq _ hmem
  · rw [List.map_cons, hpath, List.nodup_cons]
    refine ⟨fun hnil => ?_, h.nodup_paths total⟩
    obtain ⟨entry, he, hnil⟩ := List.mem_map.1 hnil
    obtain ⟨step, node, place, -, -, -, rfl⟩ := h.exists_of_mem he
    cases hnil
  · rcases List.mem_cons.1 he with rfl | he
    · rw [hpath] at hentry
      exact absurd hentry.symm (List.append_ne_nil_of_right_ne_nil _ (List.cons_ne_nil _ _))
    obtain ⟨first, node, place, hnode, hplace, hmem, rfl⟩ := h.exists_of_mem he
    rcases List.cons_eq_append_iff.1 hentry with ⟨rfl, hlast⟩ | ⟨rest, rfl, hrest⟩
    · -- the first condition of a branch
      obtain ⟨rfl, hnil⟩ := List.cons.inj hlast
      refine ⟨root, List.mem_cons_self .., _, hpath, hsteps step node hnode, ?_⟩
      rw [hone, one_mul, NestedEntry.condition, h.first step node hnode place hplace hnil.symm]
    · -- a condition behind another one of its branch
      obtain ⟨⟨parent, hparent, rfl⟩, hstep⟩ := Node.parent_of_mem_places hplace hrest
      have hmem' : parent.under first ∈ t := h.complete first node hnode place hplace hmem _ hparent
      refine ⟨_, List.mem_cons_of_mem _ (List.mem_map_of_mem (mem_toList_of_mem hmem')), ?_⟩
      obtain ⟨hs, hr⟩ := h.bounds (parent.under first)
      obtain ⟨hholds, hfails⟩ := passed_weight hs hr total (parent.under first)
      rcases hstep with rfl | rfl
      · refine ⟨_, rfl, rfl, hholds.trans ?_⟩
        rw [NestedEntry.condition, h.holds first node hnode parent hparent place hplace hrest]
      · refine ⟨_, rfl, rfl, hfails.trans ?_⟩
        rw [NestedEntry.condition, h.fails first node hnode parent hparent place hplace hrest]

end TallyLaw

end DiceOdds
