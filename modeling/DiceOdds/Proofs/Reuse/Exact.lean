import DiceOdds.Proofs.Reuse.Combinations
import DiceOdds.Proofs.Reuse.Numbering
import DiceOdds.Evaluation.OfFormula

/-!
# References count joint rolls

The evaluation of a formula that refers to dice counts the elementary rolls of all groups together:
on each of them a reference has the value that the group has on the same roll.

## Why a value stands for its rolls

What a formula says of a group of dice, it says of the value of the group, or of its single dice
where each is limited.  So the rolls with the same value for every group belong together: with these
values fixed the formula counts them in one evaluation, and the rolls of different combinations
have nothing in common.
-/

namespace DiceOdds

/-! ## 1. Values of groups -/

/-- The value of the group with an id on a roll of the formula: what a reference stands for. -/
def Node.groupValue? (node : Node) (roll : Roll) (id : ℕ) : Option Outcome :=
  if id = 0 then none
  else (node.groups.zip roll)[id - 1]?.bind fun cell => cell.1.value? cell.2

variable {s : Settings ℚ} {root : Node}

namespace Group.Wellformed

variable {g : Group}

theorem arithmetic (h : g.Wellformed) : g.node.Arithmetic := by
  cases h with
  | dice d id modifier => exact .dice d id modifier
  | keep kind count d id modifier =>
    refine .keep kind count fun item hitem => ?_
    obtain rfl := List.mem_singleton.1 hitem
    exact .dice d id modifier

theorem hasReference_eq (h : g.Wellformed) : g.node.hasReference = false := by
  cases h <;> rfl

theorem pools_eq (h : g.Wellformed) : g.node.pools = [g.pool] := by
  rw [← Node.groups_pools, h.groups_eq, List.map_singleton]

/-- The distribution of a group counts its rolls by their value. -/
theorem counts (h : g.Wellformed) {d : Distribution ℚ} (hd : g.node.values s {} = .ok d) :
    d.Counts (g.pool.rolls.map g.value?) := by
  obtain ⟨e, he, rfl⟩ := Node.values_eq_ok hd
  obtain ⟨d, rfl, hcounts⟩ := counts_walk rfl h.arithmetic h.hasReference_eq he
  have hrolls : allRolls [g.pool] = g.pool.rolls.map fun cell => [cell] := by
    simp [allRolls, List.sections]
  rw [Settings.admittedRolls_of_unrestricted rfl, h.pools_eq, hrolls, List.map_map] at hcounts
  exact hcounts

end Group.Wellformed

/-- The registry names the groups, and the distribution of each counts its rolls. -/
theorem diceGroups_eq_ok (hnum : root.Numbered) (hlen : s.registry.length = root.groups.length)
    {groups : List (DiceGroup ℚ)} (h : diceGroups s root = .ok groups) :
    ∃ ds, groups = (List.range' 1 ds.length).zip ds ∧ CountsGroups ds root.groups := by
  have hall := (mapM_eq_ok _).1 h
  have hlength : groups.length = root.groups.length := by
    rw [← hall.length_eq, Registry.withIds, List.length_zip, List.length_range', min_self, hlen]
  have hget : ∀ i (hi : i < groups.length) (hi' : i < root.groups.length),
      groups[i].1 = i + 1
        ∧ groups[i].2.Counts (root.groups[i].pool.rolls.map root.groups[i].value?) := by
    intro i hi hi'
    have hgroup := hall.get (i := i) (hall.length_eq ▸ hi) hi
    simp only [Registry.withIds, List.get_eq_getElem, List.getElem_zip, List.getElem_range',
      one_mul] at hgroup
    rw [add_comm] at hgroup
    have hdefinition := hnum.definition?_eq hi'
    obtain ⟨hid, ⟨node, hnode, hvalues⟩ | ⟨hnone, -⟩⟩ := groupValues_eq_ok hgroup
    · cases hdefinition.symm.trans hnode
      exact ⟨hid, (Node.wellformed_of_mem_groups root (List.getElem_mem hi')).counts hvalues⟩
    · cases hdefinition.symm.trans hnone
  refine ⟨groups.map Prod.snd, List.ext_getElem (by simp) fun i hi _ => ?_, ?_⟩
  · rw [List.getElem_zip, List.getElem_range', List.getElem_map]
    refine Prod.ext ((hget i hi (hlength ▸ hi)).1.trans ?_) rfl
    omega
  · rw [CountsGroups, List.forall₂_iff_get]
    refine ⟨by rw [List.length_map, hlength], fun i hi hi' => ?_⟩
    simp only [List.get_eq_getElem, List.getElem_map]
    exact (hget i (hlength ▸ hi') hi').2

/-! ## 2. One combination -/

/-- The fixed values of a combination. -/
theorem lookup_combination (vs : List Outcome) (id : ℕ) :
    (pinsFrom 1 vs []).lookup id = if id = 0 then none else vs[id - 1]? := by
  rw [lookup_pinsFrom fun _ _ => rfl]
  simp only [Nat.lt_one_iff, List.lookup_nil]

/-- On a roll of a combination each group has its value. -/
theorem value?_rollsWithAll {gs : List Group} {vs : List Outcome} {roll : Roll}
    (hlen : vs.length = gs.length) (h : roll ∈ rollsWithAll gs vs) (i : ℕ) :
    ((gs.zip roll)[i]?.bind fun cell => cell.1.value? cell.2) = vs[i]? := by
  induction gs generalizing vs roll i with
  | nil =>
    obtain rfl := List.eq_nil_of_length_eq_zero hlen
    simp
  | cons g gs ih =>
    obtain ⟨v, vs, rfl⟩ := List.exists_cons_of_length_eq_add_one hlen
    rw [rollsWithAll, List.zipWith_cons_cons, List.mem_sections] at h
    obtain ⟨cell, rest, hcell, hrest, rfl⟩ := List.forall₂_cons_right_iff.1 h
    cases i with
    | zero =>
      have hvalue : g.value? cell = some v := of_decide_eq_true (List.mem_filter.1 hcell).2
      simpa using hvalue
    | succ i =>
      have hnext := ih (by simpa using hlen) (List.mem_sections.2 hrest) i
      simpa using hnext

section Combination

variable {vs : List Outcome}

theorem lookup_group {i : ℕ} (hi : i < vs.length) :
    (pinsFrom 1 vs []).lookup (i + 1) = some vs[i] := by
  rw [lookup_combination, if_neg (Nat.succ_ne_zero i), Nat.add_sub_cancel]
  exact List.getElem?_eq_getElem hi

/-- If there is a roll of a combination, the values of all groups are fixed. -/
theorem fixedBy_of_rollsWithAll_ne_nil (hnum : root.Numbered)
    (hlen : vs.length = root.groups.length) (hne : rollsWithAll root.groups vs ≠ []) :
    ∀ g ∈ root.groups, g.FixedBy (pinsFrom 1 vs []) := by
  intro g hg
  obtain ⟨i, hi, rfl⟩ := List.mem_iff_getElem.1 hg
  refine ⟨i + 1, _, hnum.definingId?_getElem hi, lookup_group (hlen ▸ hi), fun hnil => ?_⟩
  obtain ⟨roll, hroll⟩ := List.exists_mem_of_ne_nil _ hne
  have hcells := List.mem_sections.1 hroll
  have hlength : (List.zipWith (fun (g : Group) v => g.rollsWith (some v)) root.groups vs).length
      = root.groups.length := by simp [hlen]
  have hcell := hcells.get (i := i) (by rw [hcells.length_eq, hlength]; exact hi)
    (by rw [hlength]; exact hi)
  simp only [List.get_eq_getElem, List.getElem_zipWith, hnil] at hcell
  cases hcell

/-- The rolls of a combination are the rolls that its fixed values leave. -/
theorem rolls_pinned (hnum : root.Numbered) (hlen : vs.length = root.groups.length) :
    (Reading.pinned s (splitCheck s) (pinsFrom 1 vs [])).rolls root
      = rollsWithAll root.groups vs := by
  rw [Reading.rolls, rollsWithAll]
  refine congrArg List.sections (List.ext_getElem (by simp [hlen]) fun i hi hi' => ?_)
  rw [List.getElem_map, List.getElem_zipWith]
  rw [List.length_map] at hi
  exact Reading.admitted_eq (hnum.definingId?_getElem hi) (lookup_group (hlen ▸ hi))

/-- On a roll of a combination references have their fixed values. -/
theorem given_pinned (hlen : vs.length = root.groups.length) {roll : Roll}
    (hroll : roll ∈ rollsWithAll root.groups vs) :
    (Reading.pinned s (splitCheck s) (pinsFrom 1 vs [])).given = root.groupValue? roll := by
  funext id
  change (pinsFrom 1 vs []).lookup id = _
  rw [lookup_combination, Node.groupValue?]
  split
  · rfl
  · exact (value?_rollsWithAll hlen hroll _).symm

/-- What the formula makes of one combination, scaled to its weight, adds each of its rolls once. -/
theorem sumOver_addWeighted_combination (harith : root.Arithmetic)
    (hhide : ∀ n ∈ root.subterms, n.hidesDice = false)
    (hsides : ∀ g ∈ root.groups, g.pool.dice.sides ≠ 0) (hnum : root.Numbered)
    (hlen : vs.length = root.groups.length) {d : Distribution ℚ}
    (hd : root.values s { pinned := some (pinsFrom 1 vs []) } = .ok d) (sum : Distribution ℚ)
    (f : Option Outcome → ℚ) :
    (sum.addWeighted d (rollsWithAll root.groups vs).length).sumOver (fun v => f (some v))
      = sum.sumOver (fun v => f (some v)) + ((rollsWithAll root.groups vs).map fun roll =>
          f (root.valueOn (root.groupValue? roll) roll)).sum := by
  by_cases hne : rollsWithAll root.groups vs = []
  · rw [hne, List.length_nil, Nat.cast_zero, Distribution.addWeighted_zero]
    simp
  · obtain ⟨e, he, rfl⟩ := Node.values_eq_ok hd
    have hsound : (Reading.pinned s (splitCheck s) (pinsFrom 1 vs [])).Sound root :=
      Reading.sound_pinned harith hhide hsides
        (fixedBy_of_rollsWithAll_ne_nil hnum hlen hne)
    obtain ⟨d, rfl, hcounted⟩ := hsound e he
    have hadd := hcounted.sumOver_addWeighted (fun c hc => hc) sum f
    rw [rolls_pinned hnum hlen] at hadd
    refine hadd.trans (congrArg _ (congrArg List.sum (List.map_congr_left fun roll hroll => ?_)))
    rw [given_pinned hlen hroll]

end Combination

/-! ## 3. All combinations -/

/-- Going through all combinations counts all joint rolls. -/
theorem counts_reusePlain (harith : root.Arithmetic)
    (hhide : ∀ n ∈ root.subterms, n.hidesDice = false)
    (hsides : ∀ g ∈ root.groups, g.pool.dice.sides ≠ 0) (hnum : root.Numbered)
    {ds : List (Distribution ℚ)} (hds : CountsGroups ds root.groups) {e : Evaluation ℚ}
    (h : reusePlain s ((List.range' 1 ds.length).zip ds) root = .ok e) :
    ∃ d, e = .plain d
      ∧ d.Counts ((allRolls root.pools).map fun roll =>
          root.valueOn (root.groupValue? roll) roll) := by
  obtain ⟨sum, hsum, h⟩ := bind_eq_ok.1 h
  obtain rfl := pure_eq_ok.1 h
  refine ⟨sum.rounded, rfl, Distribution.Counts.rounded fun f => ?_⟩
  have hall := forCombinations_measure _ (fun d => d.sumOver fun v => f (some v))
    (fun choice => ((rollsWithAll root.groups (choice.map Prod.fst)).map fun roll =>
      f (root.valueOn (root.groupValue? roll) roll)).sum) hsum ?_
  · rw [hall, Distribution.sumOver_empty, zero_add, hds.sum_rollsWithAll, List.map_map, allRolls,
      ← root.groups_pools, List.map_map]
    rfl
  · intro choice hchoice sum next hstep
    obtain ⟨d, hd, hstep⟩ := bind_eq_ok.1 hstep
    obtain rfl := pure_eq_ok.1 hstep
    have hlen : (choice.map Prod.fst).length = root.groups.length := by
      rw [List.length_map, List.mem_sections_length hchoice, List.length_map, hds.length_eq]
    rw [one_mul, hds.weight_eq hchoice]
    exact sumOver_addWeighted_combination harith hhide hsides hnum hlen hd sum f

/-- An arithmetic formula is no check and no conditional, and without critical hits it is no
mixture. -/
theorem reuseByGroups_of_arithmetic (hrate : s.rate = none) (harith : root.Arithmetic)
    (groups : List (DiceGroup ℚ)) : reuseByGroups s groups root = reusePlain s groups root := by
  have hmixture : wantsMixture s root = false := by
    rw [wantsMixture, hrate]
    rfl
  have hstrip := harith.stripGroups
  unfold reuseByGroups
  generalize root.stripGroups = inner at hstrip
  cases hstrip <;> simp only [hmixture, Bool.false_eq_true, if_false]

/-- **References count joint rolls.**  In a text that refers to dice, with critical hits off, the
weight of a value is the number of elementary rolls of all dice with that value; on each of them a
reference has the value of its group on the same roll. -/
theorem weightOf_evaluateFormula {text : String} {f : Formula} (htext : Formula.ofText text = .ok f)
    (hreuse : f.hasReuse = true) (harith : f.root.Arithmetic)
    (hhide : ∀ n ∈ f.root.subterms, n.hidesDice = false) (hregistry : s.registry = f.registry)
    (hrate : s.rate = none) {e : Evaluation ℚ} (he : f.root.evaluateFormula s = .ok e)
    (v : Outcome) :
    e.distribution.weightOf v
      = (allRolls f.root.pools).countP fun roll =>
          f.root.valueOn (f.root.groupValue? roll) roll = some v := by
  obtain ⟨hnum, hlen, hsides⟩ := Formula.numbered_of_ofText htext hreuse
  rw [Node.evaluateFormula, hregistry] at he
  rw [Formula.hasReuse] at hreuse
  rw [if_pos hreuse] at he
  obtain ⟨groups, hgroups, he⟩ := evaluateReuse_eq_ok he
  obtain ⟨ds, rfl, hds⟩ := diceGroups_eq_ok hnum (hregistry ▸ hlen) hgroups
  rw [reuseByGroups_of_arithmetic hrate harith] at he
  obtain ⟨d, rfl, hd⟩ := counts_reusePlain harith hhide hsides hnum hds he
  rw [Evaluation.distribution, hd.weightOf_map]

/-- `kh(2d2)+d_1+min_each(2d3,2)`: the greater of two dice, taken twice, and two dice that count at
most `2` each. -/
def keptTwice : Formula where
  root := .binary .add
    (.binary .add (.keep .highest 1 [.dice ⟨2, 2, false⟩ (some 1) none]) (.reference 1 false))
    (.function .minEach [.dice ⟨2, 3, false⟩ (some 2) none, .number 2.0])
  registry := [⟨2, 2, false⟩, ⟨2, 3, false⟩]

set_option maxRecDepth 4000 in
theorem ofText_keptTwice : Formula.ofText "kh(2d2)+d_1+min_each(2d3,2)" = .ok keptTwice := by
  have htokens : tokenize "kh(2d2)+d_1+min_each(2d3,2)" = .ok [⟨.keep .highest 1, 0⟩,
      ⟨.symbol .leftParen, 2⟩, ⟨.dice ⟨2, 2, false⟩, 3⟩, ⟨.symbol .rightParen, 6⟩,
      ⟨.symbol .plus, 7⟩, ⟨.reference 1 false, 8⟩, ⟨.symbol .plus, 11⟩, ⟨.function .minEach, 12⟩,
      ⟨.symbol .leftParen, 20⟩, ⟨.dice ⟨2, 3, false⟩, 21⟩, ⟨.symbol .comma, 24⟩, ⟨.number 2.0, 25⟩,
      ⟨.symbol .rightParen, 26⟩] := by decide +kernel
  rw [Formula.ofText, htokens]
  rfl

set_option maxRecDepth 4000 in
theorem weightOf_evaluateFormula_keptTwice :
    ∃ e : Evaluation ℚ, keptTwice.root.evaluateFormula { registry := keptTwice.registry } = .ok e
      ∧ e.distribution.weightOf (Outcome.ofInt 8) = 12 := by
  have hok : (keptTwice.root.evaluateFormula
      ({ registry := keptTwice.registry } : Settings ℚ)).isOk = true := by decide +kernel
  have hkept : (Node.keep .highest 1 [.dice ⟨2, 2, false⟩ (some 1) none]).Arithmetic :=
    .keep .highest 1 fun item hitem => by
      obtain rfl := List.mem_singleton.1 hitem
      exact .dice _ _ _
  have harith : keptTwice.root.Arithmetic :=
    .binary .add (.binary .add hkept (.reference _ _)) (.function .minEach 2.0 (.dice _ _ _))
  cases he : keptTwice.root.evaluateFormula ({ registry := keptTwice.registry } : Settings ℚ) with
  | error _ => rw [he] at hok; cases hok
  | ok e =>
    have hcount : (allRolls keptTwice.root.pools).countP (fun roll =>
        keptTwice.root.valueOn (keptTwice.root.groupValue? roll) roll = some (Outcome.ofInt 8))
          = 12 := by
      decide +kernel
    refine ⟨e, rfl, ?_⟩
    rw [weightOf_evaluateFormula ofText_keptTwice rfl harith (by decide) rfl rfl he, hcount]
    rfl

end DiceOdds
