import DiceOdds.Proofs.Rate.Monotone
import DiceOdds.Proofs.Reuse.Check
import DiceOdds.Proofs.Reuse.Deciding
import DiceOdds.Proofs.Reuse.Lowest

/-!
# Two ways to split a check

A check without references can be split by a second evaluation without critical faces.  With its
literals numbered, it can also be split by going through all combinations of their values.

## Why one deciding die is needed

The two ways agree on a single die: its value shows its face.  Of several dice only the sum is
fixed, and a combination is critical if all of them are above their thresholds, while a roll is
critical if one of them is.
-/

namespace DiceOdds

variable {s : Settings ℚ} {relation : Relation} {left right : Node} {before after : List Pool}
  {p : Pool} {rate : ℚ}

/-! ## 1. The value of a single die -/

/-- Thresholds lie on the grid, also those that no face reaches. -/
theorem Outcome.ofInt_le_iff {n : ℕ} (h : n ≤ 0x100000000) {v : Outcome} :
    Outcome.ofInt n ≤ v ↔ (n : ℤ) * 100 ≤ v.hundredths := by
  have hgrid : (Outcome.ofInt n).hundredths = n * 100 := by
    unfold ofInt nearHundredths
    rw [dif_neg (by omega), dif_pos (by omega)]
  rw [← hgrid]
  exact Iff.rfl

namespace Pool

theorem kept?_single (p : Pool) (kind : KeepKind) {count : ℕ} (h : count ≠ 0) (die : DieRoll) :
    p.kept? kind count [die] = p.sum? [die] := by
  unfold kept? sum? values?
  rw [List.mapM_cons, List.mapM_nil]
  cases p.dieValue? die with
  | none => rfl
  | some v =>
    have hbest : kind.best count [v] = [v] :=
      kind.best_of_length_le (Nat.one_le_iff_ne_zero.2 h)
    exact congrArg Outcome.sum? hbest

end Pool

theorem all_eq_of_const {α : Type} {l : List α} (hne : l ≠ []) {f : α → Bool} {b : Bool}
    (h : ∀ a ∈ l, f a = b) : l.all f = b := by
  obtain ⟨a, ha⟩ := List.exists_mem_of_ne_nil l hne
  cases b with
  | true => exact List.all_eq_true.2 h
  | false => exact List.all_eq_false.2 ⟨a, ha, by simp [h a ha]⟩

namespace DecidedByOne

theorem points_eq (h : DecidedByOne left right before after p) (die : DieRoll) :
    p.points die = p.decidingFace die := by
  unfold Pool.points Pool.decidingFace
  cases hmodifier : p.modifier with
  | none => rfl
  | some modifier =>
    cases modifier with
    | reroll range limit => rfl
    | exploding => exact absurd hmodifier (h.modifier _ _ _ _)

/-- The deciding die shows a critical face if the value of its group is at or above the
threshold. -/
theorem isCritical_eq (h : DecidedByOne left right before after p) {g : Group} (hg : g.Wellformed)
    (hplain : g.node.PlainSide) (hpool : g.pool = p) {cell : PoolRoll} (hcell : cell ∈ p.rolls)
    {v : Outcome} (hv : g.value? cell = some v) : p.isCritical rate cell
      = decide (Outcome.ofInt (criticalThreshold rate p.dice.sides.toNat) ≤ v) := by
  obtain ⟨die, rfl⟩ : ∃ die, cell = [die] := by
    have hlength := (Pool.mem_rolls.1 hcell).1
    rw [h.count] at hlength
    exact List.length_eq_one_iff.1 hlength
  have hsum : p.sum? [die] = some v := by
    subst hpool
    cases hg with
    | dice d id modifier => simpa [Group.value?, Node.valueOn] using hv
    | keep kind count d id modifier =>
      cases hplain with
      | keep _ hcount _ _ =>
        have hcount : count.toNat ≠ 0 := fun hzero => hcount (UInt32.toNat_inj.1 hzero)
        rw [← Pool.kept?_single _ kind hcount]
        simpa [Group.value?, Node.valueOn, Node.onlyPool?, Node.strippedPool?, Node.stripGroups,
          Node.pool?] using hv
  have hvalue := Pool.hundredths_of_sum? hsum
  rw [List.map_singleton, List.sum_singleton, h.points_eq] at hvalue
  have hthreshold : criticalThreshold rate p.dice.sides.toNat ≤ 0x100000000 := (next32_lt _).le
  rw [Pool.isCritical, List.any_cons, List.any_nil, Bool.or_false]
  refine decide_eq_decide.2 ?_
  rw [Outcome.ofInt_le_iff hthreshold, hvalue]
  omega

/-! ## 2. Critical rolls and critical combinations -/

/-- A roll of the check has a place for the deciding die. -/
theorem exists_cell (h : DecidedByOne left right before after p) {roll : Roll}
    (hroll : roll ∈ allRolls (left.pools ++ right.pools)) :
    ∃ u cell w, roll = u ++ cell :: w ∧ u.length = before.length ∧ cell ∈ p.rolls := by
  rw [allRolls, h.pools, List.map_append, List.map_cons] at hroll
  obtain ⟨u, hu, v, hv, rfl⟩ := mem_sections_append.1 hroll
  rw [List.mem_sections, List.forall₂_cons_right_iff] at hv
  obtain ⟨cell, w, hcell, -, rfl⟩ := hv
  exact ⟨u, cell, w, rfl, by rw [List.mem_sections_length hu, List.length_map], hcell⟩

/-- The deciding die decides. -/
theorem isCriticalRoll_eq (h : DecidedByOne left right before after p) {u w : Roll}
    {cell : PoolRoll} (hu : u.length = before.length) :
    isCriticalRoll rate (left.pools ++ right.pools) (u ++ cell :: w) = p.isCritical rate cell := by
  have hother : ∀ (qs : List Pool) (cells : Roll), qs ⊆ before ++ after →
      (qs.zip cells).any (fun x => x.1.dice.critical && x.1.isCritical rate x.2) = false := by
    intro qs cells hqs
    rw [List.any_eq_false]
    rintro ⟨q, cell⟩ hq
    simp [h.others q (hqs (List.of_mem_zip hq).1)]
  rw [isCriticalRoll, h.pools]
  cases hcritical : p.dice.critical with
  | true =>
    rw [if_pos (by simp [hcritical]), List.zip_append hu.symm, List.zip_cons_cons, List.any_append,
      List.any_cons, hother before u (List.subset_append_left ..),
      hother after w (List.subset_append_right ..), Bool.false_or, Bool.or_false]
    simp only [hcritical, Bool.true_and]
  | false =>
    have hfirst : before = [] := h.decides.resolve_left (by simp [hcritical])
    subst hfirst
    obtain rfl := List.eq_nil_of_length_eq_zero hu
    have hnone : ([] ++ p :: after).any (·.dice.critical) = false := by
      rw [List.nil_append, List.any_cons, hcritical, Bool.false_or, List.any_eq_false]
      exact fun q hq => Bool.not_eq_true _ ▸ h.others q hq
    rw [hnone, if_neg Bool.false_ne_true]
    rfl

variable {k : ℕ}

theorem plainSide_of_mem (h : DecidedByOne left right before after p) {n : Node}
    (hn : n ∈ (left.withIds 1).1.subterms ++ (right.withIds k).1.subterms) : n.PlainSide :=
  (List.mem_append.1 hn).elim (h.plainLeft.withIds 1).of_mem_subterms
    (h.plainRight.withIds k).of_mem_subterms

/-- The numbered check is gone through by combinations. -/
theorem guard (h : DecidedByOne left right before after p)
    (hcheck : numberedCheck relation left right
      = .comparison relation (left.withIds 1).1 (right.withIds k).1) :
    Guard (numberedCheck relation left right) relation (left.withIds 1).1 (right.withIds k).1 := by
  refine ⟨by rw [hcheck]; rfl, (h.plainLeft.withIds 1).arithmetic,
    (h.plainRight.withIds k).arithmetic, fun n hn => (h.plainSide_of_mem hn).hidesDice_eq,
    fun g hg => ?_,
    numbered_numberedCheck relation left right⟩
  have hpool : g.pool ∈ left.pools ++ right.pools := by
    rw [← pools_numberedCheck relation, ← Node.groups_pools]
    exact List.mem_map_of_mem hg
  exact (List.mem_append.1 hpool).elim (h.plainLeft.sides_ne_zero _) (h.plainRight.sides_ne_zero _)

/-- Every group of the numbered check stands in a plain side. -/
theorem plainSide_of_mem_groups (h : DecidedByOne left right before after p) {g : Group}
    (hg : g ∈ (numberedCheck relation left right).groups) : g.node.PlainSide := by
  obtain ⟨k, hcheck⟩ := numberedCheck_eq relation left right
  rw [hcheck, Node.groups] at hg
  exact (List.mem_append.1 hg).elim
    (fun hg => (h.plainLeft.withIds 1).of_mem_subterms (Node.mem_subterms_of_mem_groups hg))
    fun hg => (h.plainRight.withIds k).of_mem_subterms (Node.mem_subterms_of_mem_groups hg)

/-- The group of the deciding die. -/
theorem exists_group (h : DecidedByOne left right before after p) (relation : Relation) :
    ∃ g, (numberedCheck relation left right).groups[before.length]? = some g ∧ g.pool = p := by
  have hpool := pool_group relation left right before.length
  rw [h.pools, List.getElem?_append_right le_rfl, Nat.sub_self, List.getElem?_cons_zero,
    Option.map_eq_some_iff] at hpool
  exact hpool

/-- A combination is critical if its rolls are. -/
theorem isCriticalCombination_eq (h : DecidedByOne left right before after p)
    (hopen : before = [] ∨ left.DecidesOpenly ∧ right.DecidesOpenly) (hrate : s.rate = some rate)
    (hregistry : s.registry = (Node.comparison relation left right).literals) {vs : List Outcome}
    (hlen : vs.length = (numberedCheck relation left right).groups.length) {roll : Roll}
    (hroll : roll ∈ rollsWithAll (numberedCheck relation left right).groups vs) :
    isCriticalCombination s (decidingIds s (numberedCheck relation left right)) (pinsFrom 1 vs [])
      = isCriticalRoll rate (left.pools ++ right.pools) roll := by
  obtain ⟨g, hplace, hpool⟩ := h.exists_group relation
  have hg := List.mem_of_getElem? hplace
  have hall : roll ∈ allRolls (left.pools ++ right.pools) := by
    rw [← pools_numberedCheck relation, ← Node.groups_pools]
    exact ((mem_rollsWithAll hlen).1 hroll).1
  obtain ⟨u, cell, w, rfl, hu, hcell⟩ := h.exists_cell hall
  -- the value that is fixed is that of the deciding die
  have hcellvalue : g.value? cell = vs[before.length]? := by
    have hvalue := value?_rollsWithAll hlen hroll before.length
    have hget : ((numberedCheck relation left right).groups.zip (u ++ cell :: w))[before.length]?
        = some (g, cell) := by
      rw [List.getElem?_zip_eq_some]
      exact ⟨hplace, by rw [← hu, List.getElem?_append_right le_rfl]; simp⟩
    rwa [hget, Option.bind_some] at hvalue
  obtain ⟨v, hv⟩ : ∃ v, vs[before.length]? = some v := by
    obtain ⟨hlt, -⟩ := List.getElem?_eq_some_iff.1 hplace
    exact ⟨_, List.getElem?_eq_getElem (hlen ▸ hlt)⟩
  have hlookup : (pinsFrom 1 vs []).lookup (before.length + 1) = some v := by
    rw [lookup_combination, if_neg (Nat.succ_ne_zero _), Nat.add_sub_cancel, hv]
  have hdice : s.registry.get? (before.length + 1) = some p.dice := by
    rw [hregistry, Node.literals_eq_pools, Node.pools_comparison, h.pools, Registry.get?,
      if_neg (Nat.succ_ne_zero _), Nat.add_sub_cancel, List.map_append, List.map_cons]
    simp
  obtain ⟨hne, hids⟩ := h.decidingIds_eq relation hopen hrate
  rw [h.isCriticalRoll_eq hu, h.isCritical_eq (Node.wellformed_of_mem_groups _ hg)
    (h.plainSide_of_mem_groups hg) hpool hcell (hcellvalue.trans hv)]
  unfold isCriticalCombination
  rw [hrate]
  dsimp only
  rw [List.isEmpty_eq_false_iff.2 hne, Bool.not_false, Bool.true_and]
  refine all_eq_of_const hne fun id hid => ?_
  rw [hids id hid, hdice, hlookup]

end DecidedByOne

/-! ## 3. Going through combinations -/

theorem HitTally.criticalSuccess_count (t : HitTally ℚ) (holds critical : Bool) (w : ℚ) :
    (t.count holds critical w).criticalSuccess
      = t.criticalSuccess + if critical then (if holds then w else 0) else 0 := by
  cases holds <;> cases critical <;> simp [count]

/-- Where each combination is critical or not with all of its rolls, the critical successes are the
critical rolls on which the comparison can hold. -/
theorem Guard.criticalSuccess_eq {root l r : Node} {s : Settings ℚ} {ds : List (Distribution ℚ)}
    {ids : List ℕ} {critical : Roll → Bool} (h : Guard root relation l r)
    (hds : CountsGroups ds root.groups)
    (hcritical : ∀ vs : List Outcome, vs.length = root.groups.length →
      ∀ roll ∈ rollsWithAll root.groups vs,
        isCriticalCombination s ids (pinsFrom 1 vs []) = critical roll)
    {tally : HitTally ℚ}
    (htally : forCombinations (fun (t : HitTally ℚ) pins weight => do
      let holds ← holdsPinned s relation l r pins
      return t.count holds (isCriticalCombination s ids pins) weight)
        ((List.range' 1 ds.length).zip ds) [] 1 .start = .ok tally) :
    tally.criticalSuccess = (allRolls root.pools).countP fun roll =>
      root.guardCanHold relation l r roll && critical roll := by
  have hsum := forCombinations_measure _ (fun t : HitTally ℚ => t.criticalSuccess)
    (fun choice => ((rollsWithAll root.groups (choice.map Prod.fst)).map fun roll =>
      if root.guardCanHold relation l r roll && critical roll then (1 : ℚ) else 0).sum) htally
    fun choice hchoice state next hstep => by
      obtain ⟨holds, hholds, hnext⟩ := bind_eq_ok.1 hstep
      have hlen : (choice.map Prod.fst).length = root.groups.length := by
        rw [List.length_map, List.mem_sections_length hchoice, List.length_map, hds.length_eq]
      have hrolls : ∀ roll ∈ rollsWithAll root.groups (choice.map Prod.fst),
          (if root.guardCanHold relation l r roll && critical roll then (1 : ℚ) else 0)
            = if isCriticalCombination s ids (pinsFrom 1 (choice.map Prod.fst) [])
              then (if root.guardCanHold relation l r roll then 1 else 0) else 0 := by
        intro roll hroll
        rw [hcritical _ hlen roll hroll]
        cases critical roll <;> simp
      rw [← pure_eq_ok.1 hnext, HitTally.criticalSuccess_count, one_mul, hds.weight_eq hchoice,
        List.map_congr_left hrolls]
      split
      · rw [h.sum_guardCanHold hlen hholds]
      · simp
  have hall : (root.groups.map fun g => g.pool.rolls).sections = allRolls root.pools := by
    rw [allRolls, ← root.groups_pools, List.map_map]
    rfl
  rw [hds.sum_rollsWithAll, hall, sum_indicator] at hsum
  exact hsum.trans (zero_add _)

/-! ## 4. The same split -/

/-- A check with its split, both counted over all rolls. -/
def rolledCheck (rate : ℚ) (relation : Relation) (left right : Node) : Check ℚ :=
  let rolls := allRolls (left.pools ++ right.pools)
  let success : ℚ := rolls.countP (left.holdsOn relation right)
  let critical : ℚ := rolls.countP fun roll =>
    left.holdsOn relation right roll && isCriticalRoll rate (left.pools ++ right.pools) roll
  let failure := rolls.length - success
  { success, failure, critical := some (.ofWeights (success - critical) critical failure) }

/-- What is split by the closed form is a pool of several critical dice. -/
theorem exists_of_keptPool? {node : Node} {d : Dice} (h : keptPool? node = some d) :
    ∃ q ∈ node.pools, q.dice = d ∧ d.critical = true ∧ 2 ≤ d.count.toNat := by
  unfold keptPool? at h
  split at h
  · next kind count item hstrip =>
    split at h
    · next d' hliteral =>
      split at h
      · next hmany =>
        cases h
        obtain ⟨hcritical, hcount⟩ := Bool.and_eq_true_iff.1 hmany
        obtain ⟨id, modifier, hdice⟩ : ∃ id modifier, item.stripGroups = .dice d id modifier := by
          cases hitem : item.stripGroups with
          | dice d' id modifier =>
            rw [hitem] at hliteral
            cases hliteral
            exact ⟨id, modifier, rfl⟩
          | _ =>
            rw [hitem] at hliteral
            cases hliteral
        refine ⟨⟨d, modifier⟩, ?_, rfl, hcritical, of_decide_eq_true hcount⟩
        rw [← node.pools_stripGroups, hstrip, Node.pools_keep, Node.poolsAll_cons,
          ← item.pools_stripGroups, hdice]
        simp
      · cases h
    · cases h
  · cases h

namespace DecidedByOne

variable {k : ℕ}

/-- The numbered check holds on the rolls on which the check holds. -/
theorem guardHolds_eq (h : DecidedByOne left right before after p) {roll : Roll}
    (hroll : roll ∈ allRolls (left.pools ++ right.pools)) :
    (numberedCheck relation left right).guardHolds relation (left.withIds 1).1
      (right.withIds k).1 roll = left.holdsOn relation right roll := by
  have hlength := (mem_allRolls.1 hroll).length_eq
  rw [List.length_append] at hlength
  rw [Node.guardHolds, Node.holdsOn, Node.answerWith, Node.answerOn, Node.length_groups,
    Node.length_groups, Node.pools_withIds, Node.pools_withIds,
    List.take_of_length_le (l := roll.drop _) (by simp; omega),
    h.plainLeft.valueOn_withIds _ (fun _ => none), h.plainRight.valueOn_withIds _ (fun _ => none)]

/-- The deciding die is the only one that is marked, and it is single. -/
theorem count_eq_of_marked (h : DecidedByOne left right before after p) {left' right' : Node}
    (hd : Decides left right left' right') {q : Pool} (hq : q ∈ left'.pools ++ right'.pools)
    (hcritical : q.dice.critical = true) : q.dice.count = 1 := by
  have hothers : ∀ {qs : List Pool}, qs ⊆ before ++ after → q ∉ qs := fun hqs hmem => by
    rw [h.others q (hqs hmem)] at hcritical
    cases hcritical
  rcases hd.pools with ⟨-, hmarked⟩ | ⟨hnone, first, rest, hpools, hmarked⟩
  · rw [hmarked, h.pools, List.mem_append, List.mem_cons] at hq
    rcases hq with hq | rfl | hq
    · exact absurd hq (hothers (List.subset_append_left ..))
    · exact h.count
    · exact absurd hq (hothers (List.subset_append_right ..))
  · have hfirst : before = [] := by
      refine h.decides.resolve_left fun hp => ?_
      rw [h.pools, List.any_eq_false] at hnone
      exact hnone p (by simp) hp
    rw [h.pools, hfirst, List.nil_append] at hpools
    obtain ⟨rfl, rfl⟩ := List.cons.inj hpools
    rw [hmarked] at hq
    rcases List.mem_cons.1 hq with rfl | hq
    · exact h.count
    · exact absurd hq (hothers (List.subset_append_right ..))

/-- Only a pool of several critical dice is split by the closed form. -/
theorem poolSplit?_eq_none (h : DecidedByOne left right before after p) {left' right' : Node}
    (hd : Decides left right left' right') (relation : Relation) (check : Check ℚ) :
    poolSplit? rate relation left' check = none := by
  have hkept : keptPool? left' = none := by
    by_contra hsome
    obtain ⟨d, hsome⟩ := Option.ne_none_iff_exists'.1 hsome
    obtain ⟨q, hq, rfl, hcritical, hcount⟩ := exists_of_keptPool? hsome
    rw [h.count_eq_of_marked hd (List.mem_append_left _ hq) hcritical] at hcount
    exact absurd hcount (by decide)
  cases relation <;> simp [poolSplit?, hkept]

/-- Split by a second evaluation, the check counts rolls. -/
theorem evaluateFormula_eq (h : DecidedByOne left right before after p) (hrate : s.rate = some rate)
    (hregistry : s.registry = []) {e : Evaluation ℚ}
    (he : (Node.comparison relation left right).evaluateFormula s = .ok e) :
    e = .check (rolledCheck rate relation left right) := by
  have hmixture : wantsMixture s (Node.comparison relation left right) = false := by
    simp [wantsMixture, Node.stripGroups]
  rw [Node.evaluateFormula, hregistry, List.isEmpty_nil, Bool.not_true, if_neg Bool.false_ne_true,
    hmixture, if_neg Bool.false_ne_true] at he
  obtain ⟨l, r, full, hlw, hrw, hfull, he⟩ := Node.walk_comparison_eq_ok he
  rw [if_pos (by simp [hrate])] at he
  obtain ⟨critical, hsplit, rfl⟩ := he
  have hctx : ({} : Context).Full := ⟨rfl, rfl⟩
  have hs := sides_of_walks hctx.unpinned h.plainLeft.arithmetic h.plainRight.arithmetic
    h.plainLeft.hasReference_eq h.plainRight.hasReference_eq hlw hrw
  have hsuccess := hs.success_eq rfl hfull
  have hfailure : full.failure = (allRolls (left.pools ++ right.pools)).length - full.success := by
    rw [hs.failure_eq rfl hfull, hsuccess, hs.length_eq rfl relation]
    push_cast
    ring
  unfold splitCheck at hsplit
  rw [hrate] at hsplit
  rcases decidingSides?_spec h.plainLeft.arithmetic h.plainRight.arithmetic with
    ⟨-, hempty⟩ | ⟨left', right', hsides, hd⟩
  · rw [h.pools] at hempty
    simp at hempty
  · rw [hsides] at hsplit
    dsimp only at hsplit
    rw [h.poolSplit?_eq_none hd] at hsplit
    obtain ⟨shares, hshares, hcritical⟩ := bind_eq_ok.1 hsplit
    have heq := hs.restrictedSplit_eq hrate hctx.unpinned hctx.unrestricted hfull hd
      h.plainLeft.hasReference_eq h.plainRight.hasReference_eq hshares
    rw [← pure_eq_ok.1 hcritical, heq, hfailure, hsuccess]
    rfl

/-- Gone through by combinations, it counts the same rolls. -/
theorem evaluateFormula_numbered_eq (h : DecidedByOne left right before after p)
    (hopen : before = [] ∨ left.DecidesOpenly ∧ right.DecidesOpenly) (hrate : s.rate = some rate)
    (hregistry : s.registry = (Node.comparison relation left right).literals) {e : Evaluation ℚ}
    (he : (numberedCheck relation left right).evaluateFormula s = .ok e) :
    e = .check (rolledCheck rate relation left right) := by
  obtain ⟨k, hcheck⟩ := numberedCheck_eq relation left right
  have hguard := h.guard hcheck
  have hlength : s.registry.length = (numberedCheck relation left right).groups.length := by
    rw [hregistry, Node.literals_eq_pools, List.length_map, Node.length_groups,
      pools_numberedCheck, Node.pools_comparison]
  have hreuse : (!s.registry.isEmpty) = true := by
    rw [hregistry, Node.literals_eq_pools, Node.pools_comparison, h.pools]
    simp
  rw [Node.evaluateFormula, if_pos hreuse] at he
  obtain ⟨groups, hgroups, he⟩ := evaluateReuse_eq_ok he
  obtain ⟨ds, rfl, hds⟩ := diceGroups_eq_ok hguard.numbered hlength hgroups
  have hstrip : (numberedCheck relation left right).stripGroups
      = .comparison relation (left.withIds 1).1 (right.withIds k).1 := by rw [hcheck]; rfl
  rw [reuseByGroups, hstrip] at he
  obtain ⟨tally, htally, he⟩ := bind_eq_ok.1 he
  rw [← pure_eq_ok.1 he]
  -- the comparison holds on all rolls of a combination or on none of them
  have hlimit : ∀ n ∈ (left.withIds 1).1.subterms ++ (right.withIds k).1.subterms,
      n.limitsDice = false := fun n hn => (h.plainSide_of_mem hn).limitsDice_eq
  have hholds : ∀ roll ∈ allRolls (numberedCheck relation left right).pools,
      (numberedCheck relation left right).guardCanHold relation (left.withIds 1).1
        (right.withIds k).1 roll = left.holdsOn relation right roll := by
    intro roll hroll
    rw [hguard.guardCanHold_eq hlimit hroll,
      h.guardHolds_eq (pools_numberedCheck relation left right ▸ hroll)]
  obtain ⟨hsuccess, htotal⟩ := hguard.hits_of_combinations (s := s) id hds rfl
    (fun state pins weight next hnext => by
      obtain ⟨holds, hholds, hnext⟩ := bind_eq_ok.1 hnext
      exact ⟨holds, _, hholds, (pure_eq_ok.1 hnext).symm⟩) htally
  have hcritical := hguard.criticalSuccess_eq hds
    (fun vs hlen roll hroll => h.isCriticalCombination_eq hopen hrate hregistry hlen hroll) htally
  rw [List.countP_congr fun roll hroll => by rw [hholds roll hroll]] at hsuccess hcritical
  rw [pools_numberedCheck] at hsuccess htotal hcritical
  have hfailure : tally.failure = (allRolls (left.pools ++ right.pools)).length - tally.success :=
    eq_sub_of_add_eq' htotal
  obtain ⟨hids, -⟩ := h.decidingIds_eq relation hopen hrate
  rw [HitTally.check, if_neg (by simpa using hids), hfailure, hcritical,
    show tally.success = _ from hsuccess]
  rfl

end DecidedByOne

/-- **Two ways to split a check agree**, where one die decides and it is the first literal or no
limit stands around it. -/
theorem evaluateFormula_numberedCheck (h : DecidedByOne left right before after p)
    (hopen : before = [] ∨ left.DecidesOpenly ∧ right.DecidesOpenly) (hrate : s.rate = some rate)
    (hregistry : s.registry = []) {e e' : Evaluation ℚ}
    (he : (Node.comparison relation left right).evaluateFormula s = .ok e)
    (he' : (numberedCheck relation left right).evaluateFormula
      { s with registry := (Node.comparison relation left right).literals } = .ok e') :
    e' = e ∧ ∃ check shares, e = .check check ∧ check.critical = some shares := by
  obtain rfl := h.evaluateFormula_eq hrate hregistry he
  obtain rfl := h.evaluateFormula_numbered_eq
    (s := { s with registry := (Node.comparison relation left right).literals }) hopen hrate rfl he'
  exact ⟨rfl, _, _, rfl, rfl⟩

/-- `min(d4,3)+kh(D6r1)`: a limited die, and a rerolled one that decides. -/
def limitedAndKept : Node :=
  .binary .add (.function .min [.dice ⟨1, 4, false⟩ none none, .number 3.0])
    (.keep .highest 1 [.dice ⟨1, 6, true⟩ none (some (.reroll ⟨1, 1⟩ 1))])

theorem decidedByOne_limitedAndKept : DecidedByOne limitedAndKept (.number 5.0)
    [⟨⟨1, 4, false⟩, none⟩] [] ⟨⟨1, 6, true⟩, some (.reroll ⟨1, 1⟩ 1)⟩ where
  plainLeft := .binary .add (.function rfl 3.0 (.dice (by decide) none none))
    (.keep .highest (by decide) (fun inner hinner => by cases hinner) fun item hitem => by
      obtain rfl := List.mem_singleton.1 hitem
      exact .dice (by decide) none _)
  plainRight := .number 5.0
  pools := rfl
  others := by simp
  decides := .inl rfl
  count := rfl
  modifier := by simp

set_option maxRecDepth 4000 in
theorem evaluateFormula_numberedCheck_limitedAndKept :
    ∃ (check : Check ℚ) (shares : CriticalSplit ℚ),
      (Node.comparison .greaterEqual limitedAndKept (.number 5.0)).evaluateFormula
          { rate := some (50 : ℚ) } = .ok (.check check)
        ∧ (numberedCheck .greaterEqual limitedAndKept (.number 5.0)).evaluateFormula
          { rate := some (50 : ℚ), registry := [⟨1, 4, false⟩, ⟨1, 6, true⟩] } = .ok (.check check)
        ∧ check.critical = some shares := by
  have hplain : ((Node.comparison .greaterEqual limitedAndKept (.number 5.0)).evaluateFormula
      { rate := some (50 : ℚ) }).isOk = true := by decide +kernel
  have hnumbered : ((numberedCheck .greaterEqual limitedAndKept (.number 5.0)).evaluateFormula
      { rate := some (50 : ℚ), registry := [⟨1, 4, false⟩, ⟨1, 6, true⟩] }).isOk = true := by
    decide +kernel
  cases he : (Node.comparison .greaterEqual limitedAndKept (.number 5.0)).evaluateFormula
      { rate := some (50 : ℚ) } with
  | error _ => rw [he] at hplain; cases hplain
  | ok e =>
  cases he' : (numberedCheck .greaterEqual limitedAndKept (.number 5.0)).evaluateFormula
      { rate := some (50 : ℚ), registry := [⟨1, 4, false⟩, ⟨1, 6, true⟩] } with
  | error _ => rw [he'] at hnumbered; cases hnumbered
  | ok e' =>
    have hopen : limitedAndKept.DecidesOpenly := by
      intro name args hmem
      have hfunction : Node.function name args
          = .function .min [.dice ⟨1, 4, false⟩ none none, .number 3.0] := by
        simpa [limitedAndKept, Node.subterms, Node.subtermsAll] using hmem
      rw [hfunction]
      rfl
    obtain ⟨rfl, check, shares, rfl, hshares⟩ := evaluateFormula_numberedCheck
      decidedByOne_limitedAndKept (.inr ⟨hopen, by simp [Node.DecidesOpenly, Node.subterms]⟩)
      rfl rfl he he'
    exact ⟨check, shares, rfl, rfl, hshares⟩

/-- `d6+min(D20,15)`: a die that decides, inside a limit. -/
def decidesInside : Node :=
  .binary .add (.dice ⟨1, 6, false⟩ none none)
    (.function .min [.dice ⟨1, 20, true⟩ none none, .number 15.0])

theorem decidedByOne_decidesInside : DecidedByOne decidesInside (.number 10.0)
    [⟨⟨1, 6, false⟩, none⟩] [] ⟨⟨1, 20, true⟩, none⟩ where
  plainLeft := .binary .add (.dice (by decide) none none)
    (.function rfl 15.0 (.dice (by decide) none none))
  plainRight := .number 10.0
  pools := rfl
  others := by simp
  decides := .inl rfl
  count := rfl
  modifier := by simp

set_option maxRecDepth 4000 in
/-- Inside a limit the two ways differ: a second evaluation leaves the critical faces of `D20` out,
and combinations are critical where `d6` is. -/
theorem criticalChance_decidesInside :
    DecidedByOne decidesInside (.number 10.0) [⟨⟨1, 6, false⟩, none⟩] [] ⟨⟨1, 20, true⟩, none⟩
      ∧ ∃ e e' : Evaluation ℚ,
        (Node.comparison .greaterEqual decidesInside (.number 10.0)).evaluateFormula
            { rate := some (10 : ℚ) } = .ok e
          ∧ (numberedCheck .greaterEqual decidesInside (.number 10.0)).evaluateFormula
            { rate := some (10 : ℚ), registry := [⟨1, 6, false⟩, ⟨1, 20, true⟩] } = .ok e'
          ∧ e.criticalChance? = some (1 / 10) ∧ e'.criticalChance? = some (17 / 120) := by
  have hplain : (((Node.comparison .greaterEqual decidesInside (.number 10.0)).evaluateFormula
      { rate := some (10 : ℚ) }).toOption.bind (·.criticalChance?)).any
        (fun chance => decide (chance = 1 / 10)) = true := by decide +kernel
  have hnumbered : (((numberedCheck .greaterEqual decidesInside (.number 10.0)).evaluateFormula
      { rate := some (10 : ℚ), registry := [⟨1, 6, false⟩, ⟨1, 20, true⟩] }).toOption.bind
        (·.criticalChance?)).any (fun chance => decide (chance = 17 / 120)) = true := by
    decide +kernel
  obtain ⟨e, _, he, hchance, hvalue⟩ := exists_of_any hplain
  obtain ⟨e', _, he', hchance', hvalue'⟩ := exists_of_any hnumbered
  obtain rfl := of_decide_eq_true hvalue
  obtain rfl := of_decide_eq_true hvalue'
  exact ⟨decidedByOne_decidesInside, e, e', he, he', hchance, hchance'⟩

end DiceOdds
