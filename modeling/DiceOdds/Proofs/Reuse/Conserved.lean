import DiceOdds.Proofs.Reuse.Check
import DiceOdds.Proofs.Reuse.Shares

/-!
# No weight is lost between combinations

The results of all combinations are scaled to the weights of their combinations and added up.  The
total is the product of the totals of all groups, and each branch of a conditional weighs as much as
the combinations that lead to it.

## Why rounding can lose weight

With fixed values, a conditional over single dice is a mixture over the total of its condition, and
this is often `1`: of three values that share it equally, each is rounded to nothing.  A combination
without a value is passed over, and its weight is gone.  So conditionals that go through single dice
have to keep their totals (`Node.MixesEvenly`); all others have a single value.
-/

namespace DiceOdds

variable {s : Settings ℚ} {root : Node} {groups : List (DiceGroup ℚ)}

namespace Node

/-! ## 1. Parts whose values are added up -/

/-- The parts of a formula whose values are added up over all combinations. -/
def valueParts (root : Node) : List Node :=
  match root.stripGroups with
  | conditional condition ifTrue ifFalse =>
    if condition.isComparison then [ifTrue, ifFalse] else [root]
  | comparison _ _ _ => []
  | _ => [root]

theorem groups_sublist_of_mem_valueParts {part : Node} (h : part ∈ root.valueParts) :
    part.groups.Sublist root.groups := by
  unfold valueParts at h
  split at h
  · next condition ifTrue ifFalse heq =>
    have hroot : root.groups = condition.groups ++ ifTrue.groups ++ ifFalse.groups := by
      rw [← root.groups_stripGroups, heq, groups]
    split at h
    · rw [hroot]
      rcases List.mem_pair.1 h with rfl | rfl
      · exact (List.sublist_append_right _ _).trans (List.sublist_append_left _ _)
      · exact List.sublist_append_right _ _
    · rw [List.mem_singleton.1 h]
  · cases h
  · rw [List.mem_singleton.1 h]

/-- A formula that asks for nothing is added up itself. -/
theorem mem_valueParts_self
    (hconditional : ∀ condition ifTrue ifFalse,
      root.stripGroups ≠ conditional condition ifTrue ifFalse)
    (hcomparison : ∀ relation left right, root.stripGroups ≠ comparison relation left right) :
    root ∈ root.valueParts := by
  unfold valueParts
  split
  · next heq => exact absurd heq (hconditional _ _ _)
  · next heq => exact absurd heq (hcomparison _ _ _)
  · exact List.mem_singleton_self _

/-- No conditional of a node that goes through single dice loses or gains weight by rounding,
whichever combination of values is fixed. -/
def MixesEvenly (s : Settings ℚ) (groups : List (DiceGroup ℚ)) (node : Node) : Prop :=
  ∀ condition ifTrue ifFalse, conditional condition ifTrue ifFalse ∈ node.subterms →
    (conditional condition ifTrue ifFalse).subterms.any limitsDice = true →
    ∀ c ∈ combinations groups [] 1, ∀ critical r,
      (conditional condition ifTrue ifFalse).evaluate s
        { pinned := some c.1, criticalBranch := critical } = .ok (.conditional r) →
      r.KeepsTotal s.mixing

/-- Where no conditional goes through single dice, there is nothing to round. -/
theorem mixesEvenly_of_limitsDice {node : Node}
    (h : ∀ condition ifTrue ifFalse, conditional condition ifTrue ifFalse ∈ node.subterms →
      (conditional condition ifTrue ifFalse).subterms.any limitsDice = false) :
    node.MixesEvenly s groups := by
  intro condition ifTrue ifFalse hn hlimits
  rw [h condition ifTrue ifFalse hn] at hlimits
  cases hlimits

theorem MixesEvenly.settled {node : Node} {c : Pins × ℚ} {critical : Bool}
    (h : node.MixesEvenly s groups) (hc : c ∈ combinations groups [] 1)
    (hfix : ∀ g ∈ node.groups, g.FixedBy c.1) (hsides : ∀ g ∈ node.groups, g.pool.dice.sides ≠ 0) :
    node.Settled s (splitCheck s) { pinned := some c.1, criticalBranch := critical } c.1 := by
  refine ⟨hfix, hsides, fun condition ifTrue ifFalse hn hspread r hr => ?_⟩
  refine h condition ifTrue ifFalse hn ?_ c hc critical r hr
  by_contra hlimits
  rw [Bool.not_eq_true, List.any_eq_false] at hlimits
  exact hspread (spread_of_limitsDice fun n hn => by simpa using hlimits n hn)

end Node

/-! ## 2. One combination -/

/-- The groups that are gone through count the rolls of the groups of a formula. -/
structure Enumerates (groups : List (DiceGroup ℚ)) (root : Node) : Prop where
  numbered : root.Numbered
  sides : ∀ g ∈ root.groups, g.pool.dice.sides ≠ 0
  counted : ∃ ds, groups = (List.range' 1 ds.length).zip ds ∧ CountsGroups ds root.groups
  nonneg : ∀ group ∈ groups, group.2.Nonneg

namespace Enumerates

variable {part : Node} {c : Pins × ℚ} {critical : Bool} {e : Evaluation ℚ}

/-- What a part of the formula amounts to in a combination scales to its weight. -/
theorem divides (h : Enumerates groups root) (hpart : part.groups.Sublist root.groups)
    (heven : part.MixesEvenly s groups) (hc : c ∈ combinations groups [] 1)
    (he : part.evaluate s { pinned := some c.1, criticalBranch := critical } = .ok e) :
    ∃ n : ℕ, c.2 = n ∧ (n ≠ 0 → e.distribution.Divides n) := by
  obtain ⟨ds, rfl, hds⟩ := h.counted
  obtain ⟨choice, hchoice, rfl⟩ := exists_of_mem_combinations hc
  have hlen : (choice.map Prod.fst).length = root.groups.length := by
    rw [List.length_map, List.mem_sections_length hchoice, List.length_map, hds.length_eq]
  refine ⟨(rollsWithAll root.groups (choice.map Prod.fst)).length,
    by rw [one_mul, hds.weight_eq hchoice], fun hn => ?_⟩
  have hfix := fixedBy_of_rollsWithAll_ne_nil h.numbered hlen (List.length_pos_iff.1
    (Nat.pos_of_ne_zero hn))
  have hshare : (rollsWithAll root.groups (choice.map Prod.fst)).length
      = (root.groups.map (Group.share (pinsFrom 1 (choice.map Prod.fst) []))).prod := by
    rw [← rolls_pinned (s := s) h.numbered hlen, Reading.rolls, length_sections, List.map_map]
    rfl
  have hdvd : part.spread (pinsFrom 1 (choice.map Prod.fst) [])
      ∣ (rollsWithAll root.groups (choice.map Prod.fst)).length := by
    rw [hshare]
    exact part.spread_dvd.trans (hpart.map _).prod_dvd_prod
  exact (Node.divides_walk rfl rfl (heven.settled hc (fun g hg => hfix g (hpart.subset hg))
    fun g hg => h.sides g (hpart.subset hg)) he).mono hdvd

/-- **A combination adds its weight**, and whole weights stay whole. -/
theorem addWeighted (h : Enumerates groups root) (hpart : part.groups.Sublist root.groups)
    (heven : part.MixesEvenly s groups) (hc : c ∈ combinations groups [] 1)
    (he : part.evaluate s { pinned := some c.1, criticalBranch := critical } = .ok e)
    (sum : Distribution ℚ) :
    (sum.Whole → (sum.addWeighted e.distribution c.2).Whole)
      ∧ (sum.addWeighted e.distribution c.2).total = sum.total + c.2 := by
  obtain ⟨n, hn, hdivides⟩ := h.divides hpart heven hc he
  rw [hn]
  by_cases hzero : n = 0
  · rw [hzero, Nat.cast_zero, Distribution.addWeighted_zero, add_zero]
    exact ⟨id, rfl⟩
  · exact (hdivides hzero).addWeighted hzero

end Enumerates

/-! ## 3. Checks -/

/-- The weight of the combinations in which the comparison of a formula has an answer. -/
def Node.answerWeight (s : Settings ℚ) (groups : List (DiceGroup ℚ)) (root : Node)
    (answer : Bool) : ℚ :=
  match root.guard? with
  | some (relation, left, right) => ((combinations groups [] 1).map fun c =>
      if (holdsPinned s relation left right c.1).toOption = some answer then c.2 else 0).sum
  | none => 0

theorem HitTally.failure_count (t : HitTally ℚ) (holds critical : Bool) (w : ℚ) :
    (t.count holds critical w).failure = t.failure + if holds then 0 else w := by
  cases holds <;> simp [count]

section Checks

variable {relation : Relation} {left right : Node}

/-- Each combination counts for its answer, whatever else is done with it. -/
theorem Node.hits_of_combinations {σ : Type} {visit : σ → Pins × ℚ → Except EvalError σ}
    {start final : σ} (hits : σ → HitTally ℚ) (hguard : root.guard? = some (relation, left, right))
    (hstart : hits start = .start)
    (hvisit : ∀ state c next, visit state c = .ok next →
      ∃ holds critical, holdsPinned s relation left right c.1 = .ok holds
        ∧ hits next = (hits state).count holds critical c.2)
    (hfinal : (combinations groups [] 1).foldlM visit start = .ok final) :
    (hits final).success = root.answerWeight s groups true
      ∧ (hits final).failure = root.answerWeight s groups false
      ∧ (hits final).success + (hits final).failure
          = (groups.map fun group => group.2.total).prod := by
  refine ⟨?_, ?_, ?_⟩
  · rw [foldlM_measure visit (fun state => (hits state).success) _ _ hfinal
      fun state next c _ hstep => ?_, hstart]
    · rw [answerWeight, hguard]
      exact zero_add _
    · obtain ⟨holds, critical, hholds, hnext⟩ := hvisit _ _ _ hstep
      rw [hnext, HitTally.success_count, hholds]
      cases holds <;> rfl
  · rw [foldlM_measure visit (fun state => (hits state).failure) _ _ hfinal
      fun state next c _ hstep => ?_, hstart]
    · rw [answerWeight, hguard]
      exact zero_add _
    · obtain ⟨holds, critical, hholds, hnext⟩ := hvisit _ _ _ hstep
      rw [hnext, HitTally.failure_count, hholds]
      cases holds <;> rfl
  · rw [foldlM_measure visit (fun state => (hits state).success + (hits state).failure) Prod.snd _
      hfinal fun state next c _ hstep => ?_, hstart, sum_combinations, one_mul]
    · exact (congrArg (· + _) (add_zero (0 : ℚ))).trans (zero_add _)
    · obtain ⟨holds, critical, -, hnext⟩ := hvisit _ _ _ hstep
      rw [hnext, HitTally.total_count]

end Checks

/-! ## 4. Conditionals -/

/-- Each branch has collected whole weights, as much as the combinations that lead to it; there is no
critical hit if no dice decide about it. -/
structure BranchTally.Balanced (ids : List ℕ) (t : BranchTally ℚ) : Prop where
  whole_normalHit : t.normalHit.Whole
  whole_criticalHit : t.criticalHit.Whole
  whole_miss : t.miss.Whole
  total_normalHit : t.normalHit.total = t.hits.success - t.hits.criticalSuccess
  total_criticalHit : t.criticalHit.total = t.hits.criticalSuccess
  total_miss : t.miss.total = t.hits.failure
  undecided : ids.isEmpty = true → t.hits.criticalSuccess = 0

/-- The total of what a conditional gives where its condition has an answer. -/
def Evaluation.partTotal? (e : Evaluation ℚ) (answer : Bool) : Option ℚ :=
  match e with
  | conditional r => some (if answer then r.ifTrue.total else r.ifFalse.total)
  | critical r => some (if answer then r.normalHit.total + r.criticalHit.total else r.miss.total)
  | _ => none

namespace BranchTally.Balanced

variable {ids : List ℕ} {t : BranchTally ℚ}

theorem start (ids : List ℕ) : (BranchTally.start : BranchTally ℚ).Balanced ids where
  whole_normalHit := Distribution.whole_empty
  whole_criticalHit := Distribution.whole_empty
  whole_miss := Distribution.whole_empty
  total_normalHit := (sub_zero _).symm
  total_criticalHit := rfl
  total_miss := rfl
  undecided _ := rfl

/-- The whole result weighs as much as all combinations, and its parts as much as theirs. -/
theorem evaluation (ht : t.Balanced ids) (condition : Node) :
    (t.evaluation ids condition).distribution.total = t.hits.success + t.hits.failure
      ∧ ∀ answer total, (t.evaluation ids condition).partTotal? answer = some total →
          total = if answer then t.hits.success else t.hits.failure := by
  have hnormal := ht.whole_normalHit.total_rounded.trans ht.total_normalHit
  have hcritical := ht.whole_criticalHit.total_rounded.trans ht.total_criticalHit
  have hmiss := ht.whole_miss.total_rounded.trans ht.total_miss
  have hcombined : ((t.normalHit.rounded.addScaled t.criticalHit.rounded 1).addScaled
      t.miss.rounded 1).total = t.hits.success + t.hits.failure := by
    rw [Distribution.total_addScaled (Distribution.whole_rounded _).nonneg zero_le_one,
      Distribution.total_addScaled (Distribution.whole_rounded _).nonneg zero_le_one, hnormal,
      hcritical, hmiss]
    ring
  unfold BranchTally.evaluation HitTally.check
  cases hids : ids.isEmpty with
  | true =>
    refine ⟨hcombined, fun answer total htotal => ?_⟩
    rw [← Option.some.inj htotal]
    cases answer with
    | true => exact hnormal.trans (by rw [ht.undecided hids, sub_zero]; rfl)
    | false => exact hmiss
  | false =>
    refine ⟨hcombined, fun answer total htotal => ?_⟩
    rw [← Option.some.inj htotal]
    cases answer with
    | true => exact (congrArg₂ (· + ·) hnormal hcritical).trans (sub_add_cancel _ _)
    | false => exact hmiss

end BranchTally.Balanced

section Conditionals

variable {relation : Relation} {condition ifTrue ifFalse left right : Node}

/-- A combination keeps the balance. -/
theorem Enumerates.balanced_visit (h : Enumerates groups root) {c : Pins × ℚ}
    (hc : c ∈ combinations groups [] 1) (htrue : ifTrue.groups.Sublist root.groups)
    (hfalse : ifFalse.groups.Sublist root.groups) (hevenTrue : ifTrue.MixesEvenly s groups)
    (hevenFalse : ifFalse.MixesEvenly s groups) {ids : List ℕ} {t next : BranchTally ℚ}
    (hvisit : BranchTally.Visit s ids relation left right ifTrue ifFalse c t next)
    (ht : t.Balanced ids) : next.Balanced ids := by
  cases hvisit with
  | hit _ hbranch =>
    have hadd := h.addWeighted htrue hevenTrue hc hbranch
    unfold BranchTally.addHit
    cases hcritical : isCriticalCombination s ids c.1 with
    | true =>
      refine { ht with
        whole_criticalHit := (hadd _).1 ht.whole_criticalHit
        total_normalHit := ht.total_normalHit.trans ?_
        total_criticalHit := (hadd _).2.trans (congrArg (· + c.2) ht.total_criticalHit)
        undecided := fun hids => ?_ }
      · simp [HitTally.count]
      · rw [isCriticalCombination_of_isEmpty hids] at hcritical
        cases hcritical
    | false =>
      refine { ht with
        whole_normalHit := (hadd _).1 ht.whole_normalHit
        total_normalHit := (hadd _).2.trans ?_ }
      rw [ht.total_normalHit]
      simp only [HitTally.count, if_true, if_false, Bool.false_eq_true]
      ring
  | miss _ hbranch =>
    have hadd := h.addWeighted hfalse hevenFalse hc hbranch
    exact { ht with
      whole_miss := (hadd _).1 ht.whole_miss
      total_miss := (hadd _).2.trans (congrArg (· + c.2) ht.total_miss) }

end Conditionals

/-! ## 5. Whole formulas -/

section Formulas

variable {e : Evaluation ℚ}

/-- The weights of all combinations, added up one by one. -/
theorem total_of_combinations {σ : Type} {visit : σ → Pins × ℚ → Except EvalError σ}
    {start final : σ} (S : σ → ℚ) (hstart : S start = 0)
    (hvisit : ∀ state next, ∀ c ∈ combinations groups [] 1, visit state c = .ok next →
      S next = S state + c.2)
    (hfinal : (combinations groups [] 1).foldlM visit start = .ok final) :
    S final = (groups.map fun group => group.2.total).prod := by
  rw [foldlM_measure visit S Prod.snd _ hfinal hvisit, hstart, sum_combinations, zero_add, one_mul]

theorem Enumerates.total_reusePlain (h : Enumerates groups root) (heven : root.MixesEvenly s groups)
    (he : reusePlain s groups root = .ok e) :
    e.distribution.total = (groups.map fun group => group.2.total).prod := by
  obtain ⟨sum, hsum, he⟩ := bind_eq_ok.1 he
  obtain rfl := pure_eq_ok.1 he
  rw [forCombinations_eq] at hsum
  have hvisit : ∀ (sum next : Distribution ℚ), ∀ c ∈ combinations groups [] 1,
      (do return sum.addWeighted (← root.values s { pinned := some c.1 }) c.2) = .ok next →
      (sum.Whole → next.Whole) ∧ next.total = sum.total + c.2 := by
    intro sum next c hc hnext
    obtain ⟨d, hd, hnext⟩ := bind_eq_ok.1 hnext
    obtain rfl := pure_eq_ok.1 hnext
    obtain ⟨e, he, rfl⟩ := Node.values_eq_ok hd
    exact h.addWeighted (List.Sublist.refl _) heven hc he sum
  have hwhole : sum.Whole := foldlM_invariant _ Distribution.Whole _ hsum Distribution.whole_empty
    fun sum next c hc hwhole hnext => (hvisit sum next c hc hnext).1 hwhole
  exact hwhole.total_rounded.trans (total_of_combinations Distribution.total rfl
    (fun sum next c hc hnext => (hvisit sum next c hc hnext).2) hsum)

/-- Both halves of a split together hold all combinations. -/
theorem Enumerates.total_reuseSplit (h : Enumerates groups root) (heven : root.MixesEvenly s groups)
    {ids : List ℕ} (he : reuseSplit s groups root ids = .ok e) :
    e.distribution.total = (groups.map fun group => group.2.total).prod := by
  obtain ⟨sums, hsums, he⟩ := bind_eq_ok.1 he
  obtain rfl := pure_eq_ok.1 he
  rw [forCombinations_eq] at hsums
  have hvisit : ∀ (sums next : Distribution ℚ × Distribution ℚ), ∀ c ∈ combinations groups [] 1,
      (do
        let isCritical := isCriticalCombination s ids c.1
        let values ← root.values s { pinned := some c.1, criticalBranch := isCritical }
        return if isCritical then (sums.1, sums.2.addWeighted values c.2)
          else (sums.1.addWeighted values c.2, sums.2)) = .ok next →
      (sums.1.Whole ∧ sums.2.Whole → next.1.Whole ∧ next.2.Whole)
        ∧ next.1.total + next.2.total = sums.1.total + sums.2.total + c.2 := by
    intro sums next c hc hnext
    obtain ⟨d, hd, hnext⟩ := bind_eq_ok.1 hnext
    obtain rfl := pure_eq_ok.1 hnext
    obtain ⟨e, he, rfl⟩ := Node.values_eq_ok hd
    have hadd := h.addWeighted (List.Sublist.refl _) heven hc he
    split
    · exact ⟨fun hwhole => ⟨hwhole.1, (hadd _).1 hwhole.2⟩, by rw [(hadd _).2, add_assoc]⟩
    · exact ⟨fun hwhole => ⟨(hadd _).1 hwhole.1, hwhole.2⟩, by rw [(hadd _).2, add_right_comm]⟩
  obtain ⟨hnormal, hcritical⟩ : sums.1.Whole ∧ sums.2.Whole := foldlM_invariant _
    (fun sums : Distribution ℚ × Distribution ℚ => sums.1.Whole ∧ sums.2.Whole) _ hsums
    ⟨Distribution.whole_empty, Distribution.whole_empty⟩
    fun sums next c hc hwhole hnext => (hvisit sums next c hc hnext).1 hwhole
  have htotal : (sums.1.rounded.addScaled sums.2.rounded 1).total
      = sums.1.total + sums.2.total := by
    rw [Distribution.total_addScaled (Distribution.whole_rounded _).nonneg zero_le_one,
      hnormal.total_rounded, hcritical.total_rounded, one_mul]
  exact htotal.trans (total_of_combinations
    (fun sums : Distribution ℚ × Distribution ℚ => sums.1.total + sums.2.total) (add_zero 0)
    (fun sums next c hc hnext => (hvisit sums next c hc hnext).2) hsums)

theorem Enumerates.answerWeight_nonneg (h : Enumerates groups root) (answer : Bool) :
    0 ≤ root.answerWeight s groups answer := by
  unfold Node.answerWeight
  split
  · refine List.sum_nonneg fun w hw => ?_
    obtain ⟨c, hc, rfl⟩ := List.mem_map.1 hw
    split
    · exact nonneg_of_mem_combinations h.nonneg zero_le_one hc
    · exact le_rfl
  · exact le_rfl

/-- What a result says about the weight of all combinations. -/
structure Evaluation.Conserves (s : Settings ℚ) (groups : List (DiceGroup ℚ)) (root : Node)
    (e : Evaluation ℚ) : Prop where
  check : ∀ check, e.check? = some check →
    check.total = (groups.map fun group => group.2.total).prod
      ∧ ∀ answer, check.weightOf answer = root.answerWeight s groups answer
  total : (∀ part ∈ root.valueParts, part.MixesEvenly s groups) →
    e.distribution.total = (groups.map fun group => group.2.total).prod
  partTotal : (∀ part ∈ root.valueParts, part.MixesEvenly s groups) →
    ∀ answer total, e.partTotal? answer = some total → total = root.answerWeight s groups answer

/-- Values that are only added up have no answers. -/
theorem Evaluation.Conserves.of_values (hcheck : e.check? = none)
    (hpart : ∀ answer, e.partTotal? answer = none)
    (htotal : (∀ part ∈ root.valueParts, part.MixesEvenly s groups) →
      e.distribution.total = (groups.map fun group => group.2.total).prod) :
    e.Conserves s groups root where
  check check h := by
    rw [hcheck] at h
    cases h
  total := htotal
  partTotal _ answer total h := by
    rw [hpart] at h
    cases h

theorem conserves_reuseCheck (h : Enumerates groups root) {relation : Relation} {left right : Node}
    (hguard : root.guard? = some (relation, left, right))
    (he : reuseCheck s groups root relation left right = .ok e) : e.Conserves s groups root := by
  obtain ⟨tally, htally, he⟩ := bind_eq_ok.1 he
  obtain rfl := pure_eq_ok.1 he
  rw [forCombinations_eq] at htally
  obtain ⟨hs, hf, htotal⟩ := Node.hits_of_combinations id hguard rfl
    (fun t c next hnext => by
      obtain ⟨holds, hholds, hnext⟩ := bind_eq_ok.1 hnext
      exact ⟨holds, _, hholds, (pure_eq_ok.1 hnext).symm⟩) htally
  refine ⟨fun check hcheck => ?_, fun _ => ?_, fun _ answer total hpart => nomatch hpart⟩
  · rw [← Option.some.inj hcheck]
    refine ⟨htotal, fun answer => ?_⟩
    cases answer with
    | true => exact hs
    | false => exact hf
  · refine (Distribution.total_bernoulli ?_ ?_).trans htotal
    · exact (h.answerWeight_nonneg true).trans_eq hs.symm
    · exact (h.answerWeight_nonneg false).trans_eq hf.symm

theorem conserves_reuseConditional (h : Enumerates groups root) {relation : Relation}
    {condition ifTrue ifFalse left right : Node}
    (hstrip : root.stripGroups = .conditional condition ifTrue ifFalse)
    (hcondition : condition.comparison? = some (relation, left, right))
    (he : reuseConditional s groups condition ifTrue ifFalse relation left right = .ok e) :
    e.Conserves s groups root := by
  have hguard : root.guard? = some (relation, left, right) := by
    rw [Node.guard?, hstrip]
    exact hcondition
  have hparts : root.valueParts = [ifTrue, ifFalse] := by
    rw [Node.valueParts, hstrip]
    simp [Node.isComparison, hcondition]
  obtain ⟨visit, tally, htally, rfl, hvisit⟩ := reuseConditional_eq_ok he
  obtain ⟨hs, hf, htotal⟩ := Node.hits_of_combinations BranchTally.hits hguard rfl
    (fun t c next hnext => by
      cases hvisit t c next hnext with
      | hit hholds _ => exact ⟨true, _, hholds, t.hits_addHit ..⟩
      | miss hholds _ => exact ⟨false, false, hholds, rfl⟩) htally
  have hbalanced : (∀ part ∈ root.valueParts, part.MixesEvenly s groups) →
      tally.Balanced (decidingIds s condition) := by
    intro heven
    rw [hparts] at heven
    have hsublist : ∀ part ∈ [ifTrue, ifFalse], part.groups.Sublist root.groups := fun part hpart =>
      Node.groups_sublist_of_mem_valueParts (hparts ▸ hpart)
    exact foldlM_invariant _ _ _ htally (.start _) fun t next c hc ht hnext =>
      h.balanced_visit hc (hsublist _ (by simp)) (hsublist _ (by simp)) (heven _ (by simp))
        (heven _ (by simp)) (hvisit t c next hnext) ht
  refine ⟨fun check hcheck => ?_, fun heven => ?_, fun heven answer total hpart => ?_⟩
  · have hcheck : check = tally.hits.check (decidingIds s condition) := by
      unfold BranchTally.evaluation at hcheck
      dsimp only at hcheck
      split at hcheck
      · cases hcheck
      · exact (Option.some.inj hcheck).symm
    rw [hcheck]
    refine ⟨htotal, fun answer => ?_⟩
    cases answer with
    | true => exact hs
    | false => exact hf
  · exact ((hbalanced heven).evaluation condition).1.trans htotal
  · rw [((hbalanced heven).evaluation condition).2 answer total hpart]
    cases answer with
    | true => exact hs
    | false => exact hf

/-- All ways to go through combinations keep their weight, as long as no rate of critical hits is
mixed in. -/
theorem conserves_reuseByGroups (h : Enumerates groups root)
    (hrate : ¬ (wantsMixture s root = true ∧ root.criticalIds.isEmpty = true))
    (he : reuseByGroups s groups root = .ok e) : e.Conserves s groups root := by
  have hplain : root ∈ root.valueParts → reusePlain s groups root = .ok e →
      e.Conserves s groups root := by
    intro hmem he
    have htotal := fun heven : ∀ part ∈ root.valueParts, part.MixesEvenly s groups =>
      h.total_reusePlain (heven root hmem) he
    obtain ⟨sum, -, he⟩ := bind_eq_ok.1 he
    obtain rfl := pure_eq_ok.1 he
    exact .of_values rfl (fun _ => rfl) htotal
  cases reuseRoute_of_ok he with
  | conditional hroot hcondition he => exact conserves_reuseConditional h hroot hcondition he
  | unguarded hroot hcondition he =>
    refine hplain ?_ he
    rw [Node.valueParts, hroot]
    simp [Node.isComparison, hcondition]
  | check hroot he => exact conserves_reuseCheck h (by rw [Node.guard?, hroot]) he
  | plain hconditional hcomparison _ he =>
    exact hplain (Node.mem_valueParts_self hconditional hcomparison) he
  | byRate _ _ hmix hids => exact absurd ⟨hmix, hids⟩ hrate
  | decided hconditional hcomparison _ _ he =>
    have hmem := Node.mem_valueParts_self hconditional hcomparison
    have htotal := fun heven : ∀ part ∈ root.valueParts, part.MixesEvenly s groups =>
      h.total_reuseSplit (heven root hmem) he
    obtain ⟨sums, -, he⟩ := bind_eq_ok.1 he
    obtain rfl := pure_eq_ok.1 he
    exact .of_values rfl (fun _ => rfl) htotal

/-- **No weight is lost between combinations.**  In a text that refers to dice, where no rate of
critical hits is mixed in, a check weighs as much as all combinations, and each answer as much as
the combinations that have it.  The same is true of the values and of the parts of a conditional, if
no conditional inside of them that goes through single dice loses or gains weight by rounding. -/
theorem evaluateFormula_conserved {text : String} {f : Formula}
    (htext : Formula.ofText text = .ok f) (hreuse : f.hasReuse = true)
    (hregistry : s.registry = f.registry)
    (hrate : ¬ (wantsMixture s f.root = true ∧ f.root.criticalIds.isEmpty = true))
    (he : f.root.evaluateFormula s = .ok e) :
    ∃ groups, diceGroups s f.root = .ok groups
      ∧ (∀ check, e.check? = some check →
          check.total = (groups.map fun group => group.2.total).prod
            ∧ ∀ answer, check.weightOf answer = f.root.answerWeight s groups answer)
      ∧ ((∀ part ∈ f.root.valueParts, part.MixesEvenly s groups) →
          e.distribution.total = (groups.map fun group => group.2.total).prod
            ∧ ∀ answer total, e.partTotal? answer = some total →
                total = f.root.answerWeight s groups answer) := by
  obtain ⟨hnum, hlen, hsides⟩ := Formula.numbered_of_ofText htext hreuse
  rw [Node.evaluateFormula, hregistry] at he
  rw [Formula.hasReuse] at hreuse
  rw [if_pos hreuse] at he
  obtain ⟨groups, hgroups, he⟩ := evaluateReuse_eq_ok he
  have h : Enumerates groups f.root :=
    ⟨hnum, hsides, diceGroups_eq_ok hnum (hregistry ▸ hlen) hgroups, nonneg_diceGroups hgroups⟩
  have hconserves := conserves_reuseByGroups h hrate he
  exact ⟨groups, hgroups, hconserves.check,
    fun heven => ⟨hconserves.total heven, hconserves.partTotal heven⟩⟩

end Formulas

/-- `2d3>3?max_each(2d3,2)+(d_1>4?1:0):d_2`: on a hit each of two other dice counts at least `2`, with
one more for a roll above `4`; on a miss they count as they are. -/
def checkedPool : Formula where
  root := .conditional (.comparison .greater (.dice ⟨2, 3, false⟩ (some 1) none) (.number 3.0))
    (.binary .add (.function .maxEach [.dice ⟨2, 3, false⟩ (some 2) none, .number 2.0])
      (.group (.conditional (.comparison .greater (.reference 1 false) (.number 4.0)) (.number 1.0)
        (.number 0.0))))
    (.reference 2 false)
  registry := [⟨2, 3, false⟩, ⟨2, 3, false⟩]

set_option maxRecDepth 4000 in
theorem ofText_checkedPool :
    Formula.ofText "2d3>3?max_each(2d3,2)+(d_1>4?1:0):d_2" = .ok checkedPool := by
  have htokens : tokenize "2d3>3?max_each(2d3,2)+(d_1>4?1:0):d_2" = .ok [⟨.dice ⟨2, 3, false⟩, 0⟩,
      ⟨.relation .greater, 3⟩, ⟨.number 3.0, 4⟩, ⟨.symbol .question, 5⟩, ⟨.function .maxEach, 6⟩,
      ⟨.symbol .leftParen, 14⟩, ⟨.dice ⟨2, 3, false⟩, 15⟩, ⟨.symbol .comma, 18⟩, ⟨.number 2.0, 19⟩,
      ⟨.symbol .rightParen, 20⟩, ⟨.symbol .plus, 21⟩, ⟨.symbol .leftParen, 22⟩,
      ⟨.reference 1 false, 23⟩, ⟨.relation .greater, 26⟩, ⟨.number 4.0, 27⟩,
      ⟨.symbol .question, 28⟩, ⟨.number 1.0, 29⟩, ⟨.symbol .colon, 30⟩, ⟨.number 0.0, 31⟩,
      ⟨.symbol .rightParen, 32⟩, ⟨.symbol .colon, 33⟩, ⟨.reference 2 false, 34⟩] := by
    decide +kernel
  rw [Formula.ofText, htokens]
  rfl

set_option maxRecDepth 4000 in
/-- Six of nine rolls of the first pool are above `3`, and each goes with nine rolls of the second. -/
theorem evaluateFormula_conserved_checkedPool :
    ∃ e : Evaluation ℚ,
      checkedPool.root.evaluateFormula
          { registry := checkedPool.registry, rate := some (40 : ℚ) } = .ok e
        ∧ e.distribution.total = 81
        ∧ e.partTotal? true = some 54 ∧ e.partTotal? false = some 27 := by
  have hok : (checkedPool.root.evaluateFormula
      { registry := checkedPool.registry, rate := some (40 : ℚ) }).toOption.any
        (fun e => (e.partTotal? true).isSome && (e.partTotal? false).isSome) = true := by
    decide +kernel
  have hweights : ((diceGroups { registry := checkedPool.registry, rate := some (40 : ℚ) }
      checkedPool.root).toOption.any fun groups => decide
        ((groups.map fun group => group.2.total).prod = 81
          ∧ checkedPool.root.answerWeight
              { registry := checkedPool.registry, rate := some (40 : ℚ) } groups true = 54
          ∧ checkedPool.root.answerWeight
              { registry := checkedPool.registry, rate := some (40 : ℚ) } groups false = 27)) = true := by
    decide +kernel
  cases he : checkedPool.root.evaluateFormula
      { registry := checkedPool.registry, rate := some (40 : ℚ) } with
  | error _ => rw [he] at hok; cases hok
  | ok e =>
    rw [he] at hok
    obtain ⟨groups, hgroups, -, htotals⟩ := evaluateFormula_conserved ofText_checkedPool rfl rfl
      (by decide) he
    rw [hgroups] at hweights
    obtain ⟨hall, htrue, hfalse⟩ := of_decide_eq_true hweights
    have heven : ∀ part ∈ checkedPool.root.valueParts, part.MixesEvenly
        { registry := checkedPool.registry, rate := some (40 : ℚ) } groups := by
      intro part hpart
      refine Node.mixesEvenly_of_limitsDice fun condition ifTrue ifFalse hn => ?_
      rcases List.mem_pair.1 hpart with rfl | rfl
      · obtain ⟨rfl, rfl, rfl⟩ : condition = .comparison .greater (.reference 1 false) (.number 4.0)
            ∧ ifTrue = .number 1.0 ∧ ifFalse = .number 0.0 := by
          simpa [Node.subterms, Node.subtermsAll] using hn
        rfl
      · simp [Node.subterms] at hn
    obtain ⟨htotal, hpart⟩ := htotals heven
    obtain ⟨hisTrue, hisFalse⟩ := Bool.and_eq_true_iff.1 hok
    obtain ⟨totalTrue, hisTrue⟩ := Option.isSome_iff_exists.1 hisTrue
    obtain ⟨totalFalse, hisFalse⟩ := Option.isSome_iff_exists.1 hisFalse
    refine ⟨e, rfl, htotal.trans hall, ?_, ?_⟩
    · rw [hisTrue, hpart true totalTrue hisTrue, htrue]
    · rw [hisFalse, hpart false totalFalse hisFalse, hfalse]

/-- `(d_1>0?max_each(2d5,3):0)+0`: a condition that always holds, with single dice behind it. -/
def roundedAway : Formula where
  root := .binary .add (.group (.conditional
      (.comparison .greater (.reference 1 false) (.number 0.0))
      (.function .maxEach [.dice ⟨2, 5, false⟩ (some 1) none, .number 3.0]) (.number 0.0)))
    (.number 0.0)
  registry := [⟨2, 5, false⟩]

set_option maxRecDepth 4000 in
theorem ofText_roundedAway :
    Formula.ofText "(d_1>0?max_each(2d5,3):0)+0" = .ok roundedAway := by
  have htokens : tokenize "(d_1>0?max_each(2d5,3):0)+0" = .ok [⟨.symbol .leftParen, 0⟩,
      ⟨.reference 1 false, 1⟩, ⟨.relation .greater, 4⟩, ⟨.number 0.0, 5⟩, ⟨.symbol .question, 6⟩,
      ⟨.function .maxEach, 7⟩, ⟨.symbol .leftParen, 15⟩, ⟨.dice ⟨2, 5, false⟩, 16⟩,
      ⟨.symbol .comma, 19⟩, ⟨.number 3.0, 20⟩, ⟨.symbol .rightParen, 21⟩, ⟨.symbol .colon, 22⟩,
      ⟨.number 0.0, 23⟩, ⟨.symbol .rightParen, 24⟩, ⟨.symbol .plus, 25⟩, ⟨.number 0.0, 26⟩] := by
    decide +kernel
  rw [Formula.ofText, htokens]
  rfl

set_option maxRecDepth 4000 in
/-- Five rolls have a sum of `6`.  Limited to at least `3` for each die they come to `6`, `7` or
`8`, one in five for the first and two in five for the others, and no share of `1` is rounded up. -/
theorem total_roundedAway :
    ∃ (e : Evaluation ℚ) (groups : List (DiceGroup ℚ)),
      Formula.ofText "(d_1>0?max_each(2d5,3):0)+0" = .ok roundedAway
        ∧ roundedAway.root.evaluateFormula { registry := roundedAway.registry } = .ok e
        ∧ diceGroups { registry := roundedAway.registry } roundedAway.root = .ok groups
        ∧ e.distribution.total = 20 ∧ (groups.map fun group => group.2.total).prod = 25 := by
  have hok : ((roundedAway.root.evaluateFormula
      ({ registry := roundedAway.registry } : Settings ℚ)).toOption.bind some).any
        (fun e => decide (e.distribution.total = 20)) = true := by decide +kernel
  have hgroups : ((diceGroups ({ registry := roundedAway.registry } : Settings ℚ)
      roundedAway.root).toOption.bind some).any
        (fun groups => decide ((groups.map fun group => group.2.total).prod = 25)) = true := by
    decide +kernel
  obtain ⟨e, _, he, hsome, htotal⟩ := exists_of_any hok
  obtain ⟨groups, _, hg, hsome', hprod⟩ := exists_of_any hgroups
  cases hsome
  cases hsome'
  exact ⟨e, groups, ofText_roundedAway, he, hg, of_decide_eq_true htotal, of_decide_eq_true hprod⟩

end DiceOdds
