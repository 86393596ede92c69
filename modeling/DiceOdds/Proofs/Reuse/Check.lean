import DiceOdds.Proofs.Reuse.Values
import DiceOdds.Proofs.Critical.Check

/-!
# Checks with references

A check with references goes through the combinations of values of all groups.  Each combination
counts as a success or as a failure, with the weight of all of its rolls.

## Why a success is a combination that can hold

With fixed values a side has one value, unless it limits each die of a literal: then it has one for
each roll of that class, and the comparison may hold on some of them only.  The check asks whether
the comparison holds with any weight, so a combination is a success as soon as it holds on one of
its rolls (`Guard.holdsPinned_iff`).  Where no limit acts on single dice, a comparison that holds on
one roll of a combination holds on all of them (`Guard.guardHolds_congr`).
-/

namespace DiceOdds

variable {s : Settings ℚ} {root : Node} {relation : Relation} {left right : Node}

namespace Node

/-! ## 1. The comparison of a formula -/

/-- The comparison that decides: the formula itself or the condition of a conditional, in any number
of parentheses. -/
def guard? (root : Node) : Option (Relation × Node × Node) :=
  match root.stripGroups with
  | comparison relation left right => some (relation, left, right)
  | conditional condition _ _ => condition.comparison?
  | _ => none

theorem groups_stripGroups (node : Node) : node.stripGroups.groups = node.groups := by
  induction node using stripGroups.induct with
  | case1 inner ih => rw [stripGroups, ih, groups]
  | case2 node hnode =>
    rw [stripGroups]
    exact hnode

theorem groups_of_comparison? {node : Node} (h : node.comparison? = some (relation, left, right)) :
    node.groups = left.groups ++ right.groups := by
  unfold comparison? at h
  split at h
  · next heq =>
    cases h
    rw [← node.groups_stripGroups, heq, groups]
  · cases h

/-- The dice of the comparison come first. -/
theorem groups_of_guard? (h : root.guard? = some (relation, left, right)) :
    ∃ rest, root.groups = left.groups ++ right.groups ++ rest := by
  unfold guard? at h
  split at h
  · next heq =>
    cases h
    exact ⟨[], by rw [← root.groups_stripGroups, heq, groups, List.append_nil]⟩
  · next condition ifTrue ifFalse heq =>
    refine ⟨ifTrue.groups ++ ifFalse.groups, ?_⟩
    rw [← root.groups_stripGroups, heq, groups, groups_of_comparison? h, List.append_assoc]
  · cases h

/-- The answer of a comparison on a roll that begins with the dice of its sides. -/
def answerWith (given : ℕ → Option Outcome) (relation : Relation) (left right : Node)
    (roll : Roll) : Option Bool :=
  (left.valueOn given (roll.take left.groups.length)).bind fun a =>
    (right.valueOn given ((roll.drop left.groups.length).take right.groups.length)).map fun b =>
      relation.holds a b

/-- Whether the comparison of a formula holds on a roll of all of its dice. -/
def guardHolds (root : Node) (relation : Relation) (left right : Node) (roll : Roll) : Bool :=
  answerWith (root.groupValue? roll) relation left right roll = some true

/-- Whether the comparison holds on a roll with the same values of all groups. -/
def guardCanHold (root : Node) (relation : Relation) (left right : Node) (roll : Roll) : Bool :=
  (allRolls root.pools).any fun other =>
    root.sameValues other roll && root.guardHolds relation left right other

end Node

/-! ## 2. One combination -/

theorem compareNodes_eq_ok {ctx : Context} {check : Check ℚ}
    (h : compareNodes s relation left right ctx = .ok check) :
    ∃ l r, left.evaluate s ctx = .ok l ∧ right.evaluate s ctx = .ok r
      ∧ Check.compare relation l.distribution r.distribution = .ok check := by
  obtain ⟨x, hx, h⟩ := bind_eq_ok.1 h
  obtain ⟨y, hy, h⟩ := bind_eq_ok.1 h
  obtain ⟨l, hl, rfl⟩ := Node.values_eq_ok hx
  obtain ⟨r, hr, rfl⟩ := Node.values_eq_ok hy
  exact ⟨l, r, hl, hr, orBlame_eq_ok.1 h⟩

theorem holdsPinned_eq_ok {pins : Pins} {holds : Bool}
    (h : holdsPinned s relation left right pins = .ok holds) :
    ∃ check, compareNodes s relation left right { pinned := some pins } = .ok check
      ∧ holds = decide (0 < check.success) := by
  obtain ⟨check, hcheck, h⟩ := bind_eq_ok.1 h
  exact ⟨check, hcheck, (pure_eq_ok.1 h).symm⟩

/-- A sum of indicators is positive if one of the pairs passes. -/
theorem sum_pairs_pos {α β : Type} (l : List α) (m : List β) (p : α → β → Bool) :
    0 < (l.map fun a => (m.map fun b => if p a b then (1 : ℚ) else 0).sum).sum
      ↔ ∃ a ∈ l, ∃ b ∈ m, p a b = true := by
  have hpairs := sum_flatMap l (fun a => m.map (Prod.mk a))
    fun q => if p q.1 q.2 then (1 : ℚ) else 0
  simp only [List.map_map, Function.comp_def] at hpairs
  rw [← hpairs, sum_indicator, Nat.cast_pos, List.countP_pos_iff]
  constructor
  · rintro ⟨q, hq, hp⟩
    obtain ⟨a, ha, hq⟩ := List.mem_flatMap.1 hq
    obtain ⟨b, hb, rfl⟩ := List.mem_map.1 hq
    exact ⟨a, ha, b, hb, hp⟩
  · rintro ⟨a, ha, b, hb, hp⟩
    exact ⟨(a, b), List.mem_flatMap.2 ⟨a, ha, List.mem_map_of_mem hb⟩, hp⟩

/-- The reading in which the groups have the values of a combination. -/
abbrev combination (s : Settings ℚ) (vs : List Outcome) : Reading :=
  Reading.pinned s (splitCheck s) (pinsFrom 1 vs [])

/-- With fixed values the comparison has some weight if it holds on one of the rolls of the sides
with these values. -/
theorem success_pos_iff {vs : List Outcome} {check : Check ℚ} (hl : (combination s vs).Sound left)
    (hr : (combination s vs).Sound right)
    (h : compareNodes s relation left right { pinned := some (pinsFrom 1 vs []) } = .ok check) :
    0 < check.success ↔
      ∃ u ∈ (combination s vs).rolls left, ∃ v ∈ (combination s vs).rolls right,
        ((left.valueOn (combination s vs).given u).bind fun a =>
          (right.valueOn (combination s vs).given v).map fun b => relation.holds a b)
            = some true := by
  obtain ⟨l, r, hlw, hrw, hcheck⟩ := compareNodes_eq_ok h
  obtain ⟨x, rfl, hx⟩ := hl l hlw
  obtain ⟨y, rfl, hy⟩ := hr r hrw
  obtain ⟨c, hc, hxc⟩ := hx.exists_sum_eq
  obtain ⟨c', hc', hyc⟩ := hy.exists_sum_eq
  have hsum := Check.sum_answers hxc hyc hcheck true
  have hunit : 0 < c * c' := mul_pos hc hc'
  rw [show check.success = check.weightOf true from rfl, ← mul_pos_iff_of_pos_left hunit, ← hsum]
  simp only [List.map_map, Function.comp_def]
  have hpairs := sum_pairs_pos ((combination s vs).rolls left) ((combination s vs).rolls right)
    fun u v => ((left.valueOn (combination s vs).given u).bind fun a =>
      (right.valueOn (combination s vs).given v).map fun b => relation.holds a b) = some true
  simpa only [decide_eq_true_eq] using hpairs

/-- A formula that refers to dice, with a comparison of arithmetic sides. -/
structure Guard (root : Node) (relation : Relation) (left right : Node) : Prop where
  guard : root.guard? = some (relation, left, right)
  leftArithmetic : left.Arithmetic
  rightArithmetic : right.Arithmetic
  shown : ∀ n ∈ left.subterms ++ right.subterms, n.hidesDice = false
  sides : ∀ g ∈ root.groups, g.pool.dice.sides ≠ 0
  numbered : root.Numbered

namespace Guard

variable {vs : List Outcome}

/-- On a roll of all dice each side is worth what it is on its own dice. -/
theorem answerWith_append (given : ℕ → Option Outcome) {u v w : Roll}
    (hu : u.length = left.groups.length) (hv : v.length = right.groups.length) :
    Node.answerWith given relation left right (u ++ v ++ w)
      = (left.valueOn given u).bind fun a => (right.valueOn given v).map fun b =>
          relation.holds a b := by
  rw [Node.answerWith, ← hu, ← hv, List.append_assoc, List.take_left, List.drop_left,
    List.take_left]

/-- The sides count the rolls of a combination, if it has any. -/
theorem sound (h : Guard root relation left right)
    (hlen : vs.length = root.groups.length) (hne : rollsWithAll root.groups vs ≠ []) :
    (combination s vs).Sound left ∧ (combination s vs).Sound right := by
  obtain ⟨rest, hgroups⟩ := Node.groups_of_guard? h.guard
  have hfix := fixedBy_of_rollsWithAll_ne_nil h.numbered hlen hne
  have hmem : ∀ g ∈ left.groups ++ right.groups, g ∈ root.groups := by
    intro g hg
    rw [hgroups]
    exact List.mem_append_left _ hg
  refine ⟨Reading.sound_pinned h.leftArithmetic
      (fun n hn => h.shown n (List.mem_append_left _ hn)) (fun g hg => ?_) fun g hg => ?_,
    Reading.sound_pinned h.rightArithmetic
      (fun n hn => h.shown n (List.mem_append_right _ hn)) (fun g hg => ?_) fun g hg => ?_⟩
  · exact h.sides g (hmem g (List.mem_append_left _ hg))
  · exact hfix g (hmem g (List.mem_append_left _ hg))
  · exact h.sides g (hmem g (List.mem_append_right _ hg))
  · exact hfix g (hmem g (List.mem_append_right _ hg))

/-- A roll of a combination is a roll of the left side, one of the right side and one of the
rest. -/
theorem mem_rollsWithAll_iff (h : Guard root relation left right)
    (hlen : vs.length = root.groups.length) :
    ∃ others : List Roll, ∀ roll, roll ∈ rollsWithAll root.groups vs ↔
      ∃ u ∈ (combination s vs).rolls left, ∃ v ∈ (combination s vs).rolls right,
        ∃ w ∈ others, roll = u ++ v ++ w := by
  obtain ⟨rest, hgroups⟩ := Node.groups_of_guard? h.guard
  refine ⟨(rest.map (combination s vs).admitted).sections, fun roll => ?_⟩
  rw [← rolls_pinned (s := s) h.numbered hlen, Reading.rolls, hgroups, List.map_append,
    List.map_append, mem_sections_append]
  constructor
  · rintro ⟨uv, huv, w, hw, rfl⟩
    obtain ⟨u, hu, v, hv, rfl⟩ := mem_sections_append.1 huv
    exact ⟨u, hu, v, hv, w, hw, rfl⟩
  · rintro ⟨u, hu, v, hv, w, hw, rfl⟩
    exact ⟨u ++ v, mem_sections_append.2 ⟨u, hu, v, hv, rfl⟩, w, hw, rfl⟩

/-- A combination with rolls is a success if the comparison holds on one of them. -/
theorem holdsPinned_iff (h : Guard root relation left right)
    (hlen : vs.length = root.groups.length) (hne : rollsWithAll root.groups vs ≠ []) {holds : Bool}
    (hholds : holdsPinned s relation left right (pinsFrom 1 vs []) = .ok holds) :
    holds = true ↔ ∃ roll ∈ rollsWithAll root.groups vs,
      root.guardHolds relation left right roll = true := by
  obtain ⟨check, hcheck, rfl⟩ := holdsPinned_eq_ok hholds
  obtain ⟨hsl, hsr⟩ := h.sound hlen hne
  obtain ⟨others, hrolls⟩ := h.mem_rollsWithAll_iff (s := s) hlen
  rw [decide_eq_true_eq, success_pos_iff hsl hsr hcheck]
  have hlength : ∀ {node : Node} {u : Roll}, u ∈ (combination s vs).rolls node →
      u.length = node.groups.length := by
    intro node u hu
    rw [List.mem_sections_length hu, List.length_map]
  have hanswer : ∀ roll ∈ rollsWithAll root.groups vs,
      root.guardHolds relation left right roll = true
        ↔ Node.answerWith (combination s vs).given relation left right roll = some true := by
    intro roll hroll
    rw [Node.guardHolds, ← given_pinned (s := s) hlen hroll, decide_eq_true_eq]
  constructor
  · rintro ⟨u, hu, v, hv, huv⟩
    obtain ⟨roll, hroll⟩ := List.exists_mem_of_ne_nil _ hne
    obtain ⟨-, -, -, -, w, hw, -⟩ := (hrolls roll).1 hroll
    have hmem := (hrolls (u ++ v ++ w)).2 ⟨u, hu, v, hv, w, hw, rfl⟩
    refine ⟨_, hmem, (hanswer _ hmem).2 ?_⟩
    rw [answerWith_append _ (hlength hu) (hlength hv)]
    exact huv
  · rintro ⟨roll, hroll, hholds⟩
    obtain ⟨u, hu, v, hv, w, hw, rfl⟩ := (hrolls roll).1 hroll
    have hanswered := (hanswer _ hroll).1 hholds
    rw [answerWith_append _ (hlength hu) (hlength hv)] at hanswered
    exact ⟨u, hu, v, hv, hanswered⟩

/-- The rolls of a combination are a class: the comparison can hold on one of them if it holds on
any. -/
theorem guardCanHold_iff (hlen : vs.length = root.groups.length) {roll : Roll}
    (hroll : roll ∈ rollsWithAll root.groups vs) :
    root.guardCanHold relation left right roll = true ↔ ∃ other ∈ rollsWithAll root.groups vs,
      root.guardHolds relation left right other = true := by
  have hvalues := ((mem_rollsWithAll hlen).1 hroll).2
  have hsame : ∀ other, other ∈ rollsWithAll root.groups vs
      ↔ other ∈ allRolls root.pools ∧ root.sameValues other roll = true := by
    intro other
    rw [mem_rollsWithAll hlen, root.groups_pools, Node.sameValues, hvalues, decide_eq_true_eq]
  simp only [Node.guardCanHold, List.any_eq_true, Bool.and_eq_true, hsame, and_assoc]

/-- Where no side limits single dice, the comparison has one answer on a class of rolls. -/
theorem guardHolds_congr (h : Guard root relation left right)
    (hlimit : ∀ n ∈ left.subterms ++ right.subterms, n.limitsDice = false) {roll other : Roll}
    (hroll : roll ∈ allRolls root.pools) (hother : other ∈ allRolls root.pools)
    (hsame : root.sameValues other roll = true) :
    root.guardHolds relation left right other = root.guardHolds relation left right roll := by
  obtain ⟨rest, hgroups⟩ := Node.groups_of_guard? h.guard
  have hlength : ∀ roll ∈ allRolls root.pools,
      roll.length = left.groups.length + (right.groups.length + rest.length) := by
    intro roll hroll
    rw [(mem_allRolls.1 hroll).length_eq, ← root.length_groups, hgroups, List.append_assoc,
      List.length_append, List.length_append]
  have hlr := hlength roll hroll
  have hlo := hlength other hother
  have hvalues := of_decide_eq_true hsame
  rw [hgroups, List.append_assoc] at hvalues
  obtain ⟨hleft, hothers⟩ := valuesOfGroups_split (by omega) (by omega) hvalues
  obtain ⟨hright, -⟩ := valuesOfGroups_split (by simp; omega) (by simp; omega) hothers
  have hdetl := h.leftArithmetic.determined (root.groupValue? roll)
    (fun n hn => h.shown n (List.mem_append_left _ hn))
    fun n hn => hlimit n (List.mem_append_left _ hn)
  have hdetr := h.rightArithmetic.determined (root.groupValue? roll)
    (fun n hn => h.shown n (List.mem_append_right _ hn))
    fun n hn => hlimit n (List.mem_append_right _ hn)
  rw [Node.guardHolds, Node.guardHolds, groupValue?_congr hsame, Node.answerWith, Node.answerWith,
    hdetl _ _ (by simp; omega) (by simp; omega) hleft,
    hdetr _ _ (by simp; omega) (by simp; omega) hright]

/-- Then the rolls on which it can hold are those on which it holds. -/
theorem guardCanHold_eq (h : Guard root relation left right)
    (hlimit : ∀ n ∈ left.subterms ++ right.subterms, n.limitsDice = false) {roll : Roll}
    (hroll : roll ∈ allRolls root.pools) :
    root.guardCanHold relation left right roll = root.guardHolds relation left right roll := by
  rw [Bool.eq_iff_iff, Node.guardCanHold, List.any_eq_true]
  constructor
  · rintro ⟨other, hother, hholds⟩
    obtain ⟨hsame, hholds⟩ := (Bool.and_eq_true _ _).mp hholds
    rwa [← h.guardHolds_congr hlimit hroll hother hsame]
  · intro hholds
    exact ⟨roll, hroll, (Bool.and_eq_true _ _).mpr ⟨decide_eq_true rfl, hholds⟩⟩

/-! ## 3. All combinations -/

/-- What a combination adds to the successes: all of its rolls, or none of them. -/
theorem sum_guardCanHold (h : Guard root relation left right)
    (hlen : vs.length = root.groups.length) {holds : Bool}
    (hholds : holdsPinned s relation left right (pinsFrom 1 vs []) = .ok holds) :
    ((rollsWithAll root.groups vs).map fun roll =>
        if root.guardCanHold relation left right roll then (1 : ℚ) else 0).sum
      = if holds then ((rollsWithAll root.groups vs).length : ℚ) else 0 := by
  by_cases hne : rollsWithAll root.groups vs = []
  · rw [hne]
    simp
  have hall : ∀ roll ∈ rollsWithAll root.groups vs,
      (if root.guardCanHold relation left right roll then (1 : ℚ) else 0)
        = if holds then 1 else 0 := by
    intro roll hroll
    have hiff : root.guardCanHold relation left right roll = true ↔ holds = true := by
      rw [guardCanHold_iff hlen hroll, h.holdsPinned_iff hlen hne hholds]
    simp only [hiff]
  rw [List.map_congr_left hall, List.map_const', List.sum_replicate, nsmul_eq_mul]
  cases holds <;> simp

end Guard

theorem HitTally.success_count (t : HitTally ℚ) (holds critical : Bool) (w : ℚ) :
    (t.count holds critical w).success = t.success + if holds then w else 0 := by
  cases holds <;> simp [count]

theorem HitTally.total_count (t : HitTally ℚ) (holds critical : Bool) (w : ℚ) :
    (t.count holds critical w).success + (t.count holds critical w).failure
      = t.success + t.failure + w := by
  cases holds
  · simp [count, add_assoc]
  · simp [count, add_right_comm]

/-- **Going through all combinations counts the rolls on which the comparison can hold**, whatever
else is done with a combination. -/
theorem Guard.hits_of_combinations {σ : Type} {visit : σ → Pins → ℚ → Except EvalError σ}
    {start final : σ} {ds : List (Distribution ℚ)} (h : Guard root relation left right)
    (hits : σ → HitTally ℚ)
    (hds : CountsGroups ds root.groups) (hstart : hits start = .start)
    (hvisit : ∀ state pins weight next, visit state pins weight = .ok next →
      ∃ holds critical, holdsPinned s relation left right pins = .ok holds
        ∧ hits next = (hits state).count holds critical weight)
    (hfinal : forCombinations visit ((List.range' 1 ds.length).zip ds) [] 1 start = .ok final) :
    (hits final).success = (allRolls root.pools).countP (root.guardCanHold relation left right)
      ∧ (hits final).success + (hits final).failure = (allRolls root.pools).length := by
  have hlen : ∀ choice ∈ (ds.map Distribution.toList).sections,
      (choice.map Prod.fst).length = root.groups.length := by
    intro choice hchoice
    rw [List.length_map, List.mem_sections_length hchoice, List.length_map, hds.length_eq]
  have hrolls : (root.groups.map fun g => g.pool.rolls).sections = allRolls root.pools := by
    rw [allRolls, ← root.groups_pools, List.map_map]
    rfl
  constructor
  · have hsum := forCombinations_measure visit (fun state => (hits state).success)
      (fun choice => ((rollsWithAll root.groups (choice.map Prod.fst)).map fun roll =>
        if root.guardCanHold relation left right roll then (1 : ℚ) else 0).sum) hfinal
      fun choice hchoice state next hstep => by
        obtain ⟨holds, critical, hholds, hnext⟩ := hvisit _ _ _ _ hstep
        rw [hnext, HitTally.success_count, one_mul, hds.weight_eq hchoice,
          h.sum_guardCanHold (hlen choice hchoice) hholds]
    rw [hds.sum_rollsWithAll, hrolls, sum_indicator, hstart] at hsum
    exact hsum.trans (zero_add _)
  · have hsum := forCombinations_measure visit
      (fun state => (hits state).success + (hits state).failure)
      (fun choice => ((rollsWithAll root.groups (choice.map Prod.fst)).map fun _ => (1 : ℚ)).sum)
      hfinal fun choice hchoice state next hstep => by
        obtain ⟨holds, critical, -, hnext⟩ := hvisit _ _ _ _ hstep
        rw [hnext, HitTally.total_count, one_mul, hds.weight_eq hchoice]
        simp
    rw [hds.sum_rollsWithAll, hrolls, hstart] at hsum
    simpa [HitTally.start] using hsum

/-! ## 4. Whole formulas -/

/-- Without critical hits no dice decide about them. -/
theorem decidingIds_of_rate (hrate : s.rate = none) (node : Node) : decidingIds s node = [] := by
  rw [decidingIds, hrate]
  rfl

theorem Guard.check_of_reuseCheck (h : Guard root relation left right)
    {ds : List (Distribution ℚ)} (hds : CountsGroups ds root.groups) {e : Evaluation ℚ}
    (he : reuseCheck s ((List.range' 1 ds.length).zip ds) root relation left right = .ok e) :
    ∃ check, e.check? = some check
      ∧ check.success = (allRolls root.pools).countP (root.guardCanHold relation left right)
      ∧ check.total = (allRolls root.pools).length := by
  obtain ⟨tally, htally, he⟩ := bind_eq_ok.1 he
  obtain rfl := pure_eq_ok.1 he
  refine ⟨_, rfl, h.hits_of_combinations (s := s) id hds rfl ?_ htally⟩
  intro state pins weight next hnext
  obtain ⟨holds, hholds, hnext⟩ := bind_eq_ok.1 hnext
  exact ⟨holds, _, hholds, (pure_eq_ok.1 hnext).symm⟩

theorem BranchTally.hits_addHit (t : BranchTally ℚ) (ids : List ℕ) (critical : Bool)
    (branch : Evaluation ℚ) (weight : ℚ) :
    (t.addHit ids critical branch weight).hits = t.hits.count true critical weight := by
  unfold addHit
  split <;> rfl

theorem Guard.check_of_reuseConditional (h : Guard root relation left right) (hrate : s.rate = none)
    {ds : List (Distribution ℚ)} (hds : CountsGroups ds root.groups)
    {condition ifTrue ifFalse : Node} {e : Evaluation ℚ}
    (he : reuseConditional s ((List.range' 1 ds.length).zip ds) condition ifTrue ifFalse relation
      left right = .ok e) :
    ∃ check, e.check? = some check
      ∧ check.success = (allRolls root.pools).countP (root.guardCanHold relation left right)
      ∧ check.total = (allRolls root.pools).length := by
  obtain ⟨tally, htally, he⟩ := bind_eq_ok.1 he
  obtain rfl := pure_eq_ok.1 he
  rw [decidingIds_of_rate hrate]
  refine ⟨_, rfl, h.hits_of_combinations (s := s) BranchTally.hits hds rfl ?_ htally⟩
  intro state pins weight next hnext
  obtain ⟨holds, hholds, hnext⟩ := bind_eq_ok.1 hnext
  cases holds with
  | true =>
    obtain ⟨branch, -, hnext⟩ := bind_eq_ok.1 hnext
    rw [← pure_eq_ok.1 hnext]
    exact ⟨true, _, hholds, state.hits_addHit ..⟩
  | false =>
    obtain ⟨branch, -, hnext⟩ := bind_eq_ok.1 hnext
    rw [← pure_eq_ok.1 hnext]
    exact ⟨false, false, hholds, rfl⟩

/-- A comparison or a conditional goes through the combinations of its groups. -/
theorem Guard.check_of_reuseByGroups (h : Guard root relation left right) (hrate : s.rate = none)
    {ds : List (Distribution ℚ)} (hds : CountsGroups ds root.groups) {e : Evaluation ℚ}
    (he : reuseByGroups s ((List.range' 1 ds.length).zip ds) root = .ok e) :
    ∃ check, e.check? = some check
      ∧ check.success = (allRolls root.pools).countP (root.guardCanHold relation left right)
      ∧ check.total = (allRolls root.pools).length := by
  have hguard := h.guard
  unfold Node.guard? at hguard
  unfold reuseByGroups at he
  cases hinner : root.stripGroups with
  | comparison relation' left' right' =>
    rw [hinner] at hguard he
    cases hguard
    exact h.check_of_reuseCheck hds he
  | conditional condition ifTrue ifFalse =>
    rw [hinner] at hguard he
    dsimp only at hguard he
    rw [hguard] at he
    exact h.check_of_reuseConditional hrate hds he
  | _ =>
    rw [hinner] at hguard
    cases hguard

/-- **A check with references counts the rolls on which its comparison can hold.**  In a text that
refers to dice, with critical hits off, the weight of a success is the number of joint rolls for
which the comparison holds on some roll with the same values of all groups.  If no side limits the
single dice of a literal, these are the rolls on which the comparison holds. -/
theorem evaluateFormula_check {text : String} {f : Formula} (htext : Formula.ofText text = .ok f)
    (hreuse : f.hasReuse = true) (hguard : f.root.guard? = some (relation, left, right))
    (hl : left.Arithmetic) (hr : right.Arithmetic)
    (hshown : ∀ n ∈ left.subterms ++ right.subterms, n.hidesDice = false)
    (hregistry : s.registry = f.registry) (hrate : s.rate = none) {e : Evaluation ℚ}
    (he : f.root.evaluateFormula s = .ok e) :
    ∃ check, e.check? = some check
      ∧ check.total = (allRolls f.root.pools).length
      ∧ check.success = (allRolls f.root.pools).countP (f.root.guardCanHold relation left right)
      ∧ ((∀ n ∈ left.subterms ++ right.subterms, n.limitsDice = false) → check.success
          = (allRolls f.root.pools).countP (f.root.guardHolds relation left right)) := by
  obtain ⟨hnum, hlen, hsides⟩ := Formula.numbered_of_ofText htext hreuse
  have h : Guard f.root relation left right := ⟨hguard, hl, hr, hshown, hsides, hnum⟩
  rw [Node.evaluateFormula, hregistry] at he
  rw [Formula.hasReuse] at hreuse
  rw [if_pos hreuse] at he
  obtain ⟨groups, hgroups, he⟩ := evaluateReuse_eq_ok he
  obtain ⟨ds, rfl, hds⟩ := diceGroups_eq_ok hnum (hregistry ▸ hlen) hgroups
  obtain ⟨check, hcheck, hsuccess, htotal⟩ := h.check_of_reuseByGroups hrate hds he
  refine ⟨check, hcheck, htotal, hsuccess, fun hlimit => ?_⟩
  rw [hsuccess]
  refine congrArg Nat.cast (List.countP_congr fun roll hroll => ?_)
  rw [h.guardCanHold_eq hlimit hroll]

/-- `kh(2d2)+d_1>=4`: the greater of two dice, taken twice, is at least `4`. -/
def checkedTwice : Formula where
  root := .comparison .greaterEqual (.binary .add
    (.keep .highest 1 [.dice ⟨2, 2, false⟩ (some 1) none]) (.reference 1 false)) (.number 4.0)
  registry := [⟨2, 2, false⟩]

set_option maxRecDepth 4000 in
theorem ofText_checkedTwice : Formula.ofText "kh(2d2)+d_1>=4" = .ok checkedTwice := by
  have htokens : tokenize "kh(2d2)+d_1>=4" = .ok [⟨.keep .highest 1, 0⟩, ⟨.symbol .leftParen, 2⟩,
      ⟨.dice ⟨2, 2, false⟩, 3⟩, ⟨.symbol .rightParen, 6⟩, ⟨.symbol .plus, 7⟩,
      ⟨.reference 1 false, 8⟩, ⟨.relation .greaterEqual, 11⟩, ⟨.number 4.0, 13⟩] := by
    decide +kernel
  rw [Formula.ofText, htokens]
  rfl

set_option maxRecDepth 4000 in
theorem evaluateFormula_check_checkedTwice :
    ∃ (e : Evaluation ℚ) (check : Check ℚ),
      checkedTwice.root.evaluateFormula { registry := checkedTwice.registry } = .ok e
        ∧ e.check? = some check ∧ check.success = 3 ∧ check.total = 4 := by
  have hok : (checkedTwice.root.evaluateFormula
      ({ registry := checkedTwice.registry } : Settings ℚ)).isOk = true := by decide +kernel
  have hleft : Node.Arithmetic (.binary .add (.keep .highest 1 [.dice ⟨2, 2, false⟩ (some 1) none])
      (.reference 1 false)) :=
    .binary .add (.keep .highest 1 fun item hitem => by
      obtain rfl := List.mem_singleton.1 hitem
      exact .dice _ _ _) (.reference _ _)
  cases he : checkedTwice.root.evaluateFormula
      ({ registry := checkedTwice.registry } : Settings ℚ) with
  | error _ => rw [he] at hok; cases hok
  | ok e =>
    obtain ⟨check, hcheck, htotal, -, hsuccess⟩ := evaluateFormula_check ofText_checkedTwice rfl rfl
      hleft (.number 4.0) (by decide) rfl rfl he
    have hcount : (allRolls checkedTwice.root.pools).countP (checkedTwice.root.guardHolds
        .greaterEqual (.binary .add (.keep .highest 1 [.dice ⟨2, 2, false⟩ (some 1) none])
          (.reference 1 false)) (.number 4.0)) = 3 := by
      decide +kernel
    have hlength : (allRolls checkedTwice.root.pools).length = 4 := by decide +kernel
    refine ⟨e, check, rfl, hcheck, ?_, ?_⟩
    · rw [hsuccess (by decide), hcount, Nat.cast_ofNat]
    · rw [htotal, hlength, Nat.cast_ofNat]

/-- `max_each(2d3,2)>d_1`: each of two dice counts at least `2`, and the sum is compared with the
dice as they are. -/
def raisedPair : Formula where
  root := .comparison .greater
    (.function .maxEach [.dice ⟨2, 3, false⟩ (some 1) none, .number 2.0]) (.reference 1 false)
  registry := [⟨2, 3, false⟩]

set_option maxRecDepth 4000 in
theorem ofText_raisedPair : Formula.ofText "max_each(2d3,2)>d_1" = .ok raisedPair := by
  have htokens : tokenize "max_each(2d3,2)>d_1" = .ok [⟨.function .maxEach, 0⟩,
      ⟨.symbol .leftParen, 8⟩, ⟨.dice ⟨2, 3, false⟩, 9⟩, ⟨.symbol .comma, 12⟩, ⟨.number 2.0, 13⟩,
      ⟨.symbol .rightParen, 14⟩, ⟨.relation .greater, 15⟩, ⟨.reference 1 false, 16⟩] := by
    decide +kernel
  rw [Formula.ofText, htokens]
  rfl

set_option maxRecDepth 4000 in
/-- On a total of `4` the comparison holds for a one and a three in either order, and fails for two
twos.  All three rolls count as successes. -/
theorem success_raisedPair :
    ∃ (e : Evaluation ℚ) (check : Check ℚ), Formula.ofText "max_each(2d3,2)>d_1" = .ok raisedPair
      ∧ raisedPair.root.evaluateFormula { registry := raisedPair.registry } = .ok e
      ∧ e.check? = some check ∧ check.success = 6 ∧ check.total = 9
      ∧ (allRolls raisedPair.root.pools).countP (raisedPair.root.guardHolds .greater
          (.function .maxEach [.dice ⟨2, 3, false⟩ (some 1) none, .number 2.0])
          (.reference 1 false)) = 5 := by
  have hok : ((raisedPair.root.evaluateFormula
      ({ registry := raisedPair.registry } : Settings ℚ)).toOption.bind Evaluation.check?).any
        (fun check => decide (check.success = 6 ∧ check.total = 9)) = true := by decide +kernel
  obtain ⟨e, check, he, hcheck, hvalues⟩ := exists_of_any hok
  obtain ⟨hsuccess, htotal⟩ := of_decide_eq_true hvalues
  exact ⟨e, check, ofText_raisedPair, he, hcheck, hsuccess, htotal, by decide +kernel⟩

end DiceOdds
