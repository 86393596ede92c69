import DiceOdds.Proofs.Rate.Same
import DiceOdds.Proofs.Reuse.Check

/-!
# Combinations at a rate of zero

With the values of all groups fixed no check is split, so a combination amounts to the same at a
rate of zero and without a rate.  What is added up is the same too, as long as no combination is
critical.

## Why a combination may be critical

A combination is critical if the value of every deciding group reaches the threshold of its dice,
and at a rate of zero the threshold is one above the highest face of a single die.  The value of a
group is not always a single face: two dice reach the threshold with their sum, and so does a die
that explodes.  One deciding group that stays below it (`StaysBelow`) is enough.
-/

namespace DiceOdds

variable {s : Settings ℚ} {root : Node} {groups : List (DiceGroup ℚ)} {ids : List ℕ}

/-! ## 1. Critical combinations -/

/-- No dice decide about critical hits, or some deciding group never reaches the value above the
highest face of its dice, which fit. -/
def StaysBelow (s : Settings ℚ) (groups : List (DiceGroup ℚ)) (ids : List ℕ) : Prop :=
  ids = [] ∨ ∃ id ∈ ids, ∀ d, s.registry.get? id = some d → d.Fits ∧
    ∀ group ∈ groups, group.1 = id →
      ∀ p ∈ group.2.toList, p.1 < Outcome.ofInt (d.sides.toNat + 1 : ℕ)

/-- A value that is fixed is a value of its group. -/
theorem exists_of_lookup_combinations {pins : Pins} {weight : ℚ} {c : Pins × ℚ} {id : ℕ}
    {v : Outcome} (hc : c ∈ combinations groups pins weight) (hv : c.1.lookup id = some v) :
    pins.lookup id = some v ∨ ∃ group ∈ groups, group.1 = id ∧ ∃ w, (v, w) ∈ group.2.toList := by
  induction groups generalizing pins weight with
  | nil =>
    obtain rfl := List.mem_singleton.1 hc
    exact .inl hv
  | cons group rest ih =>
    obtain ⟨p, hp, hc⟩ := List.mem_flatMap.1 hc
    rcases ih hc with hlookup | ⟨other, hother, hvalue⟩
    · by_cases hid : id = group.1
      · subst hid
        rw [List.lookup_cons_self, Option.some.injEq] at hlookup
        subst hlookup
        exact .inr ⟨group, List.mem_cons_self .., rfl, p.2, hp⟩
      · rw [lookup_cons_of_ne hid] at hlookup
        exact .inl hlookup
    · exact .inr ⟨other, List.mem_cons_of_mem _ hother, hvalue⟩

theorem Outcome.not_le_of_lt {a b : Outcome} (h : a < b) : ¬b ≤ a := Int.not_le.2 h

/-- **No combination is critical** if one deciding group stays below its threshold. -/
theorem isCriticalCombination_zero (hrate : s.rate = some 0) (h : StaysBelow s groups ids)
    {c : Pins × ℚ} (hc : c ∈ combinations groups [] 1) :
    isCriticalCombination s ids c.1 = false := by
  rcases h with rfl | ⟨id, hid, hbelow⟩
  · exact isCriticalCombination_of_isEmpty rfl c.1
  unfold isCriticalCombination
  rw [hrate]
  dsimp only
  rw [Bool.and_eq_false_iff]
  refine .inr (List.all_eq_false.2 ⟨id, hid, ?_⟩)
  cases hd : s.registry.get? id with
  | none => simp
  | some d =>
    cases hv : c.1.lookup id with
    | none => simp
    | some v =>
      rcases exists_of_lookup_combinations hc hv with hnone | ⟨group, hgroup, hgid, w, hw⟩
      · cases hnone
      · obtain ⟨hfits, hvalues⟩ := hbelow d hd
        have hlt := hvalues group hgroup hgid _ hw
        change ¬decide (Outcome.ofInt (criticalThreshold (0 : ℚ) d.sides.toNat) ≤ v) = true
        rw [criticalThreshold_zero hfits, decide_eq_true_eq]
        exact Outcome.not_le_of_lt hlt

/-! ## 2. Single combinations -/

namespace Node

theorem quiet_of_definingId? {node : Node} {id : ℕ} (h : node.definingId? = some id) :
    node.subterms.any isLoud = false := by
  cases node with
  | dice d id modifier => rfl
  | keep kind count items =>
    rcases items with _ | ⟨item, _ | ⟨_, _⟩⟩
    · cases h
    · cases item with
      | dice d id modifier => rfl
      | _ => cases h
    · cases h
  | _ => cases h

/-- With fixed values nothing is split. -/
theorem sameAs_pinned (hrate : s.rate = some 0) {node : Node} (hfits : node.Fits) {pins : Pins}
    {e' e : Evaluation ℚ} (he' : node.evaluate s { pinned := some pins } = .ok e')
    (he : node.evaluate s.withoutRate { pinned := some pins } = .ok e) : e'.SameAs e :=
  sameAs_evaluate hrate (s.calm_withoutRate _) ⟨hfits, rfl, .inl rfl,
    fun hpinned => absurd hpinned (Option.some_ne_none pins)⟩ he' he

theorem values_pinned (hrate : s.rate = some 0) {node : Node} (hfits : node.Fits) {pins : Pins}
    {x' x : Distribution ℚ} (hx' : node.values s { pinned := some pins } = .ok x')
    (hx : node.values s.withoutRate { pinned := some pins } = .ok x) : x' = x := by
  obtain ⟨e', he', rfl⟩ := values_eq_ok hx'
  obtain ⟨e, he, rfl⟩ := values_eq_ok hx
  exact (sameAs_pinned hrate hfits he' he).distribution

end Node

theorem holdsPinned_agree (hrate : s.rate = some 0) {relation : Relation} {left right : Node}
    (hleft : left.Fits) (hright : right.Fits) {pins : Pins} {holds' holds : Bool}
    (h' : holdsPinned s relation left right pins = .ok holds')
    (h : holdsPinned s.withoutRate relation left right pins = .ok holds) : holds' = holds := by
  obtain ⟨check', hcheck', rfl⟩ := holdsPinned_eq_ok h'
  obtain ⟨check, hcheck, rfl⟩ := holdsPinned_eq_ok h
  obtain ⟨l', r', hl', hr', hcompare'⟩ := compareNodes_eq_ok hcheck'
  obtain ⟨l, r, hl, hr, hcompare⟩ := compareNodes_eq_ok hcheck
  rw [(Node.sameAs_pinned hrate hleft hl' hl).distribution,
    (Node.sameAs_pinned hrate hright hr' hr).distribution, hcompare] at hcompare'
  rw [Except.ok.inj hcompare']

/-- The groups have the same values. -/
theorem diceGroups_agree (hrate : s.rate = some 0) (hfits : root.Fits)
    {groups' : List (DiceGroup ℚ)} (h' : diceGroups s root = .ok groups')
    (h : diceGroups s.withoutRate root = .ok groups) : groups' = groups := by
  refine mapM_agree h' h fun ⟨id, d⟩ _ group' group hgroup' hgroup => ?_
  change groupValues s root id d = .ok group' at hgroup'
  change groupValues s.withoutRate root id d = .ok group at hgroup
  unfold groupValues at hgroup hgroup'
  cases hdefinition : root.definition? id with
  | none =>
    rw [hdefinition] at hgroup hgroup'
    exact Except.ok.inj (hgroup'.symm.trans hgroup)
  | some node =>
    rw [hdefinition] at hgroup hgroup'
    obtain ⟨values, hvalues, hgroup⟩ := bind_eq_ok.1 hgroup
    obtain ⟨values', hvalues', hgroup'⟩ := bind_eq_ok.1 hgroup'
    obtain ⟨e, he, rfl⟩ := Node.values_eq_ok hvalues
    obtain ⟨e', he', rfl⟩ := Node.values_eq_ok hvalues'
    have hquiet := Node.quiet_of_definingId? (Node.definingId?_of_definition? hdefinition)
    have hfits := hfits.of_mem (Node.definition?_mem hdefinition)
    rw [← pure_eq_ok.1 hgroup, ← pure_eq_ok.1 hgroup', (Node.sameAs_evaluate hrate
      (s.calm_withoutRate {}) ⟨hfits, rfl, .inl rfl, fun _ _ => .inr hquiet⟩ he' he).distribution]

/-! ## 3. All combinations -/

theorem isCriticalCombination_withoutRate (ids : List ℕ) (pins : Pins) :
    isCriticalCombination s.withoutRate ids pins = false := rfl

theorem HitTally.neverCritical {t : HitTally ℚ} (h : t.criticalSuccess = 0) (ids : List ℕ) :
    (t.check ids).NeverCritical := by
  intro shares hshares
  unfold HitTally.check at hshares
  dsimp only at hshares
  split at hshares
  · cases hshares
  · rw [← Option.some.inj hshares, h, sub_zero]
    rfl

section Loops

variable {e' e : Evaluation ℚ} {relation : Relation} {left right : Node}

theorem sameAs_reuseCheck (hrate : s.rate = some 0) (hleft : left.Fits) (hright : right.Fits)
    (hbelow : StaysBelow s groups (decidingIds s root))
    (he' : reuseCheck s groups root relation left right = .ok e')
    (he : reuseCheck s.withoutRate groups root relation left right = .ok e) : e'.SameAs e := by
  obtain ⟨tally', htally', he'⟩ := bind_eq_ok.1 he'
  obtain ⟨tally, htally, he⟩ := bind_eq_ok.1 he
  obtain rfl := pure_eq_ok.1 he'
  obtain rfl := pure_eq_ok.1 he
  rw [forCombinations_eq] at htally' htally
  obtain ⟨rfl, hzero⟩ := foldlM_relate _ _
    (fun t' t : HitTally ℚ => t' = t ∧ t'.criticalSuccess = 0) _ htally' htally
    ⟨rfl, rfl⟩ fun t' next' t next c hc ht hnext' hnext => by
      obtain ⟨rfl, hzero⟩ := ht
      obtain ⟨holds', hholds', hnext'⟩ := bind_eq_ok.1 hnext'
      obtain ⟨holds, hholds, hnext⟩ := bind_eq_ok.1 hnext
      obtain rfl := holdsPinned_agree hrate hleft hright hholds' hholds
      rw [isCriticalCombination_zero hrate hbelow hc] at hnext'
      rw [isCriticalCombination_withoutRate] at hnext
      rw [← pure_eq_ok.1 hnext', ← pure_eq_ok.1 hnext]
      refine ⟨rfl, ?_⟩
      cases holds' <;> exact hzero
  exact .of_check rfl rfl (tally'.neverCritical hzero _)

/-- Tallies of a conditional that have the same in their branches, where nothing is critical. -/
structure BranchTally.SameAs (t' t : BranchTally ℚ) : Prop where
  hits : t'.hits = t.hits
  normalHit : t'.normalHit = t.normalHit
  criticalHit : t'.criticalHit = t.criticalHit
  miss : t'.miss = t.miss
  uncritical : t'.hits.criticalSuccess = 0

theorem BranchTally.SameAs.evaluation {t' t : BranchTally ℚ} (h : t'.SameAs t) (ids : List ℕ)
    (condition : Node) : (t'.evaluation ids condition).NoHits
      ∧ (t'.evaluation ids condition).distribution = (t.evaluation [] condition).distribution := by
  have hnever := t'.hits.neverCritical h.uncritical ids
  have hnested : ∀ entry ∈ (.root condition.text (t'.hits.check ids)
      :: nestedConditions t'.nested (t'.hits.check ids).total), entry.NoHits := by
    refine List.forall_mem_cons.2 ⟨.inr fun _ => hnever.criticalHit_eq, fun entry hentry => ?_⟩
    obtain ⟨p, -, rfl⟩ := List.mem_map.1 hentry
    exact .inr nofun
  unfold BranchTally.evaluation
  dsimp only
  rw [h.normalHit, h.criticalHit, h.miss]
  cases hcritical : (t'.hits.check ids).critical with
  | none => exact ⟨⟨nofun, hnested⟩, rfl⟩
  | some shares =>
    exact ⟨⟨fun p hp => Option.some.inj hp ▸ hnever.criticalHit_eq hcritical, hnested⟩, rfl⟩

/-- A combination that is not critical does the same to both tallies. -/
theorem BranchTally.SameAs.visit (hrate : s.rate = some 0) (hleft : left.Fits)
    (hright : right.Fits) {ifTrue ifFalse : Node} (htrue : ifTrue.Fits) (hfalse : ifFalse.Fits)
    {c : Pins × ℚ} {t' t next' next : BranchTally ℚ} (h : t'.SameAs t)
    (huncritical : isCriticalCombination s ids c.1 = false)
    (hnext' : BranchTally.Visit s ids relation left right ifTrue ifFalse c t' next')
    (hnext : BranchTally.Visit s.withoutRate [] relation left right ifTrue ifFalse c t next) :
    next'.SameAs next := by
  cases hnext' with
  | hit hholds' hbranch' =>
    cases hnext with
    | hit hholds hbranch =>
      rw [huncritical] at hbranch' ⊢
      rw [isCriticalCombination_withoutRate] at hbranch ⊢
      have hbranch := (Node.sameAs_pinned hrate htrue hbranch' hbranch).distribution
      simp only [BranchTally.addHit, Bool.false_eq_true, if_false]
      exact ⟨by simp only [h.hits], by simp only [h.normalHit, hbranch], h.criticalHit, h.miss,
        h.uncritical⟩
    | miss hholds _ => cases holdsPinned_agree hrate hleft hright hholds' hholds
  | miss hholds' hbranch' =>
    cases hnext with
    | hit hholds _ => cases holdsPinned_agree hrate hleft hright hholds' hholds
    | miss hholds hbranch =>
      have hbranch := (Node.sameAs_pinned hrate hfalse hbranch' hbranch).distribution
      unfold BranchTally.addMiss
      exact ⟨by simp only [h.hits], h.normalHit, h.criticalHit, by simp only [h.miss, hbranch],
        h.uncritical⟩

theorem reuseConditional_zero (hrate : s.rate = some 0) (hleft : left.Fits) (hright : right.Fits)
    {condition ifTrue ifFalse : Node} (htrue : ifTrue.Fits) (hfalse : ifFalse.Fits)
    (hbelow : StaysBelow s groups (decidingIds s condition))
    (he' : reuseConditional s groups condition ifTrue ifFalse relation left right = .ok e')
    (he : reuseConditional s.withoutRate groups condition ifTrue ifFalse relation left right
      = .ok e) : e'.NoHits ∧ e'.distribution = e.distribution := by
  obtain ⟨visit', tally', htally', rfl, hvisit'⟩ := reuseConditional_eq_ok he'
  obtain ⟨visit, tally, htally, rfl, hvisit⟩ := reuseConditional_eq_ok he
  have hsame : tally'.SameAs tally := foldlM_relate visit' visit BranchTally.SameAs _ htally' htally
    ⟨rfl, rfl, rfl, rfl, rfl⟩ fun t' next' t next c hc h hnext' hnext =>
      h.visit hrate hleft hright htrue hfalse (isCriticalCombination_zero hrate hbelow hc)
        (hvisit' t' c next' hnext') (hvisit t c next hnext)
  exact hsame.evaluation _ condition

theorem reusePlain_agree (hrate : s.rate = some 0) (hfits : root.Fits)
    (he' : reusePlain s groups root = .ok e')
    (he : reusePlain s.withoutRate groups root = .ok e) : e' = e := by
  obtain ⟨sum', hsum', he'⟩ := bind_eq_ok.1 he'
  obtain ⟨sum, hsum, he⟩ := bind_eq_ok.1 he
  rw [forCombinations_eq] at hsum' hsum
  rw [← pure_eq_ok.1 he', ← pure_eq_ok.1 he, foldlM_agree _ _ _ hsum' hsum
    fun sum c _ next' next hnext' hnext => by
      obtain ⟨values', hvalues', hnext'⟩ := bind_eq_ok.1 hnext'
      obtain ⟨values, hvalues, hnext⟩ := bind_eq_ok.1 hnext
      rw [← pure_eq_ok.1 hnext', ← pure_eq_ok.1 hnext,
        Node.values_pinned hrate hfits hvalues' hvalues]]

/-- Nothing is added to the critical part. -/
theorem reuseSplit_zero (hrate : s.rate = some 0) (hfits : root.Fits)
    (hbelow : StaysBelow s groups ids) (he' : reuseSplit s groups root ids = .ok e')
    (he : reusePlain s.withoutRate groups root = .ok e) :
    ∃ values, e = .plain values ∧ e' = .mixture (.ofParts values .empty) := by
  obtain ⟨sums, hsums, he'⟩ := bind_eq_ok.1 he'
  obtain ⟨sum, hsum, he⟩ := bind_eq_ok.1 he
  rw [forCombinations_eq] at hsums hsum
  obtain ⟨rfl, hempty⟩ := foldlM_relate _ _
    (fun (sums : Distribution ℚ × Distribution ℚ) sum => sums.1 = sum ∧ sums.2 = .empty) _ hsums
    hsum ⟨rfl, rfl⟩ fun sums next' sum next c hc h hnext' hnext => by
      obtain ⟨rfl, hempty⟩ := h
      rw [isCriticalCombination_zero hrate hbelow hc] at hnext'
      obtain ⟨values', hvalues', hnext'⟩ := bind_eq_ok.1 hnext'
      obtain ⟨values, hvalues, hnext⟩ := bind_eq_ok.1 hnext
      obtain rfl := Node.values_pinned hrate hfits hvalues' hvalues
      rw [← pure_eq_ok.1 hnext', ← pure_eq_ok.1 hnext]
      exact ⟨rfl, hempty⟩
  refine ⟨sums.1.rounded, (pure_eq_ok.1 he).symm, ?_⟩
  rw [← pure_eq_ok.1 he', hempty]
  rfl

/-- The normal reading is what there is without a rate, before it is rounded. -/
theorem reuseReadings_zero (hrate : s.rate = some 0) (hfits : root.Fits)
    {normal critical : Distribution ℚ}
    (hreadings : reuseReadings s groups root = .ok (normal, critical))
    (he : reusePlain s.withoutRate groups root = .ok e) : e = .plain normal.rounded := by
  obtain ⟨sum, hsum, he⟩ := bind_eq_ok.1 he
  rw [reuseReadings, forCombinations_eq] at hreadings
  rw [forCombinations_eq] at hsum
  have hsame : normal = sum := foldlM_relate _ _
    (fun (sums : Distribution ℚ × Distribution ℚ) sum => sums.1 = sum) _ hreadings hsum rfl
    fun sums next' sum next c _ h hnext' hnext => by
      subst h
      obtain ⟨values', hvalues', hnext'⟩ := bind_eq_ok.1 hnext'
      obtain ⟨_, -, hnext'⟩ := bind_eq_ok.1 hnext'
      obtain ⟨values, hvalues, hnext⟩ := bind_eq_ok.1 hnext
      rw [← pure_eq_ok.1 hnext', ← pure_eq_ok.1 hnext,
        Node.values_pinned hrate hfits hvalues' hvalues]
  rw [← pure_eq_ok.1 he, hsame]

end Loops

end DiceOdds
