import DiceOdds.Proofs.Reuse.Lowest
import DiceOdds.Proofs.Reuse.Whole
import DiceOdds.Proofs.Safety.Nonempty
import DiceOdds.Report

/-!
# A calculation that succeeds has an answer

With references, all combinations of the values of the dice are gone through one by one, and none of
them is ever lost altogether: the one in which every die shows its lowest face has a single value
for every part of the formula (`Node.Lowest`), which no rounding of a mixture can spread.

Without references, only two things leave a calculation without an answer.  The rounding of a
conditional may lose all of its branches (`Node.Vanishes`), and a critical mixture has no normal
reading where a die that decides about critical hits has no other faces.

## Why the critical reading is not needed

What is critical is what all rolls have more than those without critical faces.  This difference may
be empty, but the normal reading stays, so the whole does not get lost.
-/

namespace DiceOdds

variable {s : Settings ℚ} {root : Node} {e : Evaluation ℚ}

open DiceOdds.Distribution (HasUnit PositiveWhole)

/-! ## 1. Mixtures by the rate -/

theorem larger_eq_max (a b : ℚ) : Weight.larger a b = max a b := by
  unfold Weight.larger
  rcases lt_or_ge b a with h | h
  · simp [h, h.le]
  · simp [not_lt.2 h, h]

/-- Each reading fits into the total of the mixture a hundred times. -/
theorem le_rateTotal (normal critical : Distribution ℚ) :
    100 * normal.total ≤ rateTotal normal critical
      ∧ 100 * critical.total ≤ rateTotal normal critical := by
  have hmax : 100 * normal.total ≤ 100 * max normal.total critical.total
      ∧ 100 * critical.total ≤ 100 * max normal.total critical.total :=
    ⟨mul_le_mul_of_nonneg_left (le_max_left _ _) (by norm_num),
      mul_le_mul_of_nonneg_left (le_max_right _ _) (by norm_num)⟩
  unfold rateTotal Mixing.targetTotal
  dsimp only
  rw [larger_eq_max]
  split
  · next common hcommon =>
    split
    · obtain ⟨base, totals, hbase, htotals, -, -, hone, rfl, -⟩ := Mixing.of_commonTotal? hcommon
      rw [Nat.cast_mul, ← hbase]
      have hle : ∀ t ∈ [normal.total, critical.total], t ≤ ((totals : Multiset ℕ).lcm : ℚ) := by
        intro t ht
        rw [htotals] at ht
        obtain ⟨n, hn, rfl⟩ := List.mem_map.1 ht
        exact Nat.cast_le.2 (Mixing.le_lcm (fun t ht => (hone t ht).1) hn)
      exact ⟨mul_le_mul_of_nonneg_left (hle _ (by simp)) (by norm_num),
        mul_le_mul_of_nonneg_left (hle _ (by simp)) (by norm_num)⟩
    · exact hmax
  · rw [if_neg (lt_irrefl _)]
    exact hmax

namespace Distribution

variable {d : Distribution ℚ}

theorem HasUnit.one_le_total (h : d.HasUnit) : 1 ≤ d.total := by
  obtain ⟨v, hv⟩ := h.exists_unit
  have hmem := List.mem_map_of_mem (f := Prod.snd) (mem_toList_of_weightOf (d := d) (v := v)
    (by linarith))
  rw [total_eq_sum]
  refine hv.trans (List.single_le_sum (fun w hw => ?_) _ hmem)
  obtain ⟨p, hp, rfl⟩ := List.mem_map.1 hw
  exact h.nonneg p hp

/-- A part that is as likely as not keeps its outcome, if it fits into the total. -/
theorem HasUnit.total_mix_pos (h : d.HasUnit) {parts : List (ℚ × Distribution ℚ)} {p target : ℚ}
    (hparts : ∀ part ∈ parts, 0 ≤ part.1 ∧ part.2.Nonneg) (hpart : (p, d) ∈ parts)
    (hp : 1 / 2 ≤ p) (htarget : d.total ≤ target) : 0 < (mix parts target).total := by
  obtain ⟨v, hv⟩ := h.exists_unit
  have htotal : 0 < d.total := zero_lt_one.trans_le h.one_le_total
  have hblend := weightOf_blend_le (htotal.le.trans htarget) hparts hpart v
  have hscale : 1 ≤ target / d.total := (one_le_div htotal).2 htarget
  have hhalf : 1 / 2 ≤ target * p / d.total * d.weightOf v := by
    have hprod : 1 / 2 ≤ (target / d.total * p) * d.weightOf v := by
      have hfirst : p ≤ target / d.total * p := le_mul_of_one_le_left (by linarith) hscale
      exact (hp.trans hfirst).trans (le_mul_of_one_le_right (by linarith) hv)
    rwa [mul_div_right_comm]
  rw [mix_eq_rounded]
  exact (positive_blend parts target).nonneg.total_rounded_pos (hhalf.trans hblend)

end Distribution

/-- One of the two readings is as likely as not. -/
theorem total_mixReadings_pos {p : ℚ} (hzero : 0 ≤ p) (hone : p ≤ 1)
    {normal critical : Distribution ℚ} (hnormal : normal.HasUnit) (hcritical : critical.HasUnit) :
    0 < (Distribution.mix [(1 - p, normal), (p, critical)] (rateTotal normal critical)).total := by
  have hparts : ∀ part ∈ [(1 - p, normal), (p, critical)], 0 ≤ part.1 ∧ part.2.Nonneg := by
    simp [hzero, hone, hnormal.nonneg, hcritical.nonneg]
  obtain ⟨hn, hc⟩ := le_rateTotal normal critical
  have hnone := hnormal.one_le_total
  have hcone := hcritical.one_le_total
  rcases le_total (1 / 2) p with hhalf | hhalf
  · exact hcritical.total_mix_pos hparts (by simp) hhalf (by linarith)
  · exact hnormal.total_mix_pos hparts (p := 1 - p) (by simp) (by linarith) (by linarith)

theorem total_mixByRate_pos (hrate : ∀ rate, s.rate = some rate → 0 ≤ rate ∧ rate ≤ 100)
    {normal critical : Distribution ℚ} (hnormal : normal.HasUnit) (hcritical : critical.HasUnit) :
    0 < (mixByRate s normal critical).combined.total := by
  unfold mixByRate
  dsimp only
  split
  · next rate hsome =>
    obtain ⟨hzero, hhundred⟩ := hrate rate hsome
    rw [rateProbability]
    refine total_mixReadings_pos (div_nonneg hzero (Nat.cast_nonneg _))
      (div_le_one_of_le₀ ?_ (Nat.cast_nonneg _)) hnormal hcritical
    exact_mod_cast hhundred
  · exact total_mixReadings_pos le_rfl zero_le_one hnormal hcritical

/-! ## 2. Ways to go through combinations -/

/-- There is something to report, and a check has counted in whole cases. -/
structure Evaluation.Answers (e : Evaluation ℚ) : Prop where
  total_pos : 0 < e.distribution.total
  nonneg_check : ∀ c, e = .check c → 0 ≤ c.success ∧ 0 ≤ c.failure

section Combinations

variable {groups : List (DiceGroup ℚ)}

/-- A loop over all combinations comes past the lowest one: what it brings about there and every
combination keeps holds at the end. -/
theorem Enumerates.reaches (h : Enumerates groups root) {σ : Type}
    {visit : σ → Pins × ℚ → Except EvalError σ} (I P : σ → Prop) {start final : σ}
    (hloop : (combinations groups [] 1).foldlM visit start = .ok final) (hstart : I start)
    (hI : ∀ t next c, I t → visit t c = .ok next → I next)
    (hlowest : ∀ t next c, root.Lowest c.1 → 1 ≤ c.2 → I t → visit t c = .ok next → P next)
    (hP : ∀ t next c, P t → visit t c = .ok next → P next) : P final := by
  obtain ⟨c, hc, hone, hlow⟩ := h.exists_lowest
  exact foldlM_reaches visit I P hloop hstart (fun t next c _ => hI t next c) hc
    (fun t next => hlowest t next c hlow hone) fun t next c _ => hP t next c

theorem Enumerates.answers_reusePlain (h : Enumerates groups root)
    (he : reusePlain s groups root = .ok e) : e.Answers := by
  obtain ⟨sum, hsum, he⟩ := bind_eq_ok.1 he
  obtain rfl := pure_eq_ok.1 he
  rw [forCombinations_eq] at hsum
  have hunit : sum.HasUnit := by
    refine h.reaches Distribution.Nonneg HasUnit hsum Distribution.nonneg_empty ?_ ?_ ?_
    · intro sum next c hnonneg hnext
      obtain ⟨d, -, hnext⟩ := bind_eq_ok.1 hnext
      obtain rfl := pure_eq_ok.1 hnext
      exact hnonneg.addWeighted d c.2
    · intro sum next c hlow hone hnonneg hnext
      obtain ⟨d, hd, hnext⟩ := bind_eq_ok.1 hnext
      obtain rfl := pure_eq_ok.1 hnext
      obtain ⟨e, he, rfl⟩ := Node.values_eq_ok hd
      exact (hlow.certain_walk rfl rfl he).hasUnit_addWeighted hnonneg hone
    · intro sum next c hunit hnext
      obtain ⟨d, -, hnext⟩ := bind_eq_ok.1 hnext
      obtain rfl := pure_eq_ok.1 hnext
      exact hunit.addWeighted d c.2
  exact ⟨hunit.total_rounded_pos, fun _ h => by cases h⟩

theorem Enumerates.one_le_prod (h : Enumerates groups root) :
    1 ≤ (groups.map fun group => group.2.total).prod := by
  obtain ⟨c, hc, hone, -⟩ := h.exists_lowest
  have hsum := sum_combinations groups [] 1
  rw [one_mul] at hsum
  rw [← hsum]
  refine hone.trans (List.single_le_sum (fun w hw => ?_) _ (List.mem_map_of_mem hc))
  obtain ⟨c, hc, rfl⟩ := List.mem_map.1 hw
  exact nonneg_of_mem_combinations h.nonneg zero_le_one hc

theorem Enumerates.answers_reuseCheck (h : Enumerates groups root) {relation : Relation}
    {left right : Node} (hguard : root.guard? = some (relation, left, right))
    (he : reuseCheck s groups root relation left right = .ok e) : e.Answers := by
  have hconserves := conserves_reuseCheck h hguard he
  obtain ⟨tally, -, he⟩ := bind_eq_ok.1 he
  obtain rfl := pure_eq_ok.1 he
  obtain ⟨htotal, hweight⟩ := hconserves.check _ rfl
  have hs : 0 ≤ (tally.check (decidingIds s root)).success :=
    (h.answerWeight_nonneg true).trans_eq (hweight true).symm
  have hf : 0 ≤ (tally.check (decidingIds s root)).failure :=
    (h.answerWeight_nonneg false).trans_eq (hweight false).symm
  refine ⟨?_, fun c hc => ?_⟩
  · rw [Evaluation.distribution, Check.distribution, Distribution.total_bernoulli hs hf,
      ← Check.total, htotal]
    exact zero_lt_one.trans_le h.one_le_prod
  · cases hc
    exact ⟨hs, hf⟩

namespace BranchTally

variable {condition ifTrue ifFalse left right : Node} {relation : Relation} {ids : List ℕ}
  {t next : BranchTally ℚ} {c : Pins × ℚ}

/-- No branch has outcomes of negative weight. -/
structure Nonneg (t : BranchTally ℚ) : Prop where
  normalHit : t.normalHit.Nonneg
  criticalHit : t.criticalHit.Nonneg
  miss : t.miss.Nonneg

/-- Some branch has an outcome that rounding does not lose. -/
def HasUnit (t : BranchTally ℚ) : Prop :=
  t.normalHit.HasUnit ∨ t.criticalHit.HasUnit ∨ t.miss.HasUnit

theorem Nonneg.visit (ht : t.Nonneg)
    (hvisit : Visit s ids relation left right ifTrue ifFalse c t next) : next.Nonneg := by
  cases hvisit with
  | hit _ _ =>
    unfold addHit
    dsimp only
    split
    · exact { ht with criticalHit := ht.criticalHit.addWeighted _ _ }
    · exact { ht with normalHit := ht.normalHit.addWeighted _ _ }
  | miss _ _ => exact { ht with miss := ht.miss.addWeighted _ _ }

theorem HasUnit.visit (ht : t.HasUnit)
    (hvisit : Visit s ids relation left right ifTrue ifFalse c t next) : next.HasUnit := by
  cases hvisit with
  | hit _ _ =>
    unfold addHit
    dsimp only
    split
    · exact ht.imp_right (Or.imp_left fun hunit => hunit.addWeighted _ _)
    · exact ht.imp_left fun hunit => hunit.addWeighted _ _
  | miss _ _ => exact ht.imp_right (Or.imp_right fun hunit => hunit.addWeighted _ _)

/-- In the lowest combination both branches are certain, whichever of them is taken. -/
theorem Nonneg.hasUnit_visit (ht : t.Nonneg) (hone : 1 ≤ c.2) (htrue : ifTrue.Lowest c.1)
    (hfalse : ifFalse.Lowest c.1)
    (hvisit : Visit s ids relation left right ifTrue ifFalse c t next) : next.HasUnit := by
  cases hvisit with
  | hit _ hbranch =>
    have hcertain := htrue.certain_walk rfl rfl hbranch
    unfold addHit
    dsimp only
    split
    · exact .inr (.inl (hcertain.hasUnit_addWeighted ht.criticalHit hone))
    · exact .inl (hcertain.hasUnit_addWeighted ht.normalHit hone)
  | miss _ hbranch =>
    have hcertain := hfalse.certain_walk rfl rfl hbranch
    exact .inr (.inr (hcertain.hasUnit_addWeighted ht.miss hone))

theorem HasUnit.total_evaluation_pos (ht : t.HasUnit) (ids : List ℕ) (condition : Node) :
    0 < (t.evaluation ids condition).distribution.total := by
  have hnonneg (d : Distribution ℚ) : 0 ≤ d.rounded.total :=
    (Distribution.whole_rounded d).nonneg.total_nonneg
  rw [distribution_evaluation,
    Distribution.total_addScaled (Distribution.whole_rounded _).nonneg zero_le_one,
    Distribution.total_addScaled (Distribution.whole_rounded _).nonneg zero_le_one, one_mul,
    one_mul]
  have hn := hnonneg t.normalHit
  have hcrit := hnonneg t.criticalHit
  have hm := hnonneg t.miss
  obtain hunit | hunit | hunit := ht <;> linarith [hunit.total_rounded_pos]

end BranchTally

theorem Enumerates.answers_reuseConditional (h : Enumerates groups root) {relation : Relation}
    {condition ifTrue ifFalse left right : Node}
    (hstrip : root.stripGroups = .conditional condition ifTrue ifFalse)
    (hcondition : condition.comparison? = some (relation, left, right))
    (he : reuseConditional s groups condition ifTrue ifFalse relation left right = .ok e) :
    e.Answers := by
  have hparts : root.valueParts = [ifTrue, ifFalse] := by
    rw [Node.valueParts, hstrip]
    simp [Node.isComparison, hcondition]
  have hgroups : ∀ part ∈ [ifTrue, ifFalse], part.groups ⊆ root.groups := fun part hpart =>
    (Node.groups_sublist_of_mem_valueParts (hparts ▸ hpart)).subset
  obtain ⟨visit, tally, htally, rfl, hvisit⟩ := reuseConditional_eq_ok he
  have hunit : tally.HasUnit := h.reaches BranchTally.Nonneg BranchTally.HasUnit htally
    ⟨Distribution.nonneg_empty, Distribution.nonneg_empty, Distribution.nonneg_empty⟩
    (fun t next c hnonneg hnext => hnonneg.visit (hvisit t c next hnext))
    (fun t next c hlow hone hnonneg hnext => hnonneg.hasUnit_visit hone
      (hlow.mono (hgroups ifTrue (by simp))) (hlow.mono (hgroups ifFalse (by simp)))
      (hvisit t c next hnext))
    fun t next c hunit hnext => hunit.visit (hvisit t c next hnext)
  exact ⟨hunit.total_evaluation_pos _ _, fun check hcheck =>
    absurd hcheck (tally.evaluation_ne_check _ _ check)⟩

theorem Enumerates.answers_reuseSplit (h : Enumerates groups root) {ids : List ℕ}
    (he : reuseSplit s groups root ids = .ok e) : e.Answers := by
  obtain ⟨sums, hsums, he⟩ := bind_eq_ok.1 he
  obtain rfl := pure_eq_ok.1 he
  rw [forCombinations_eq] at hsums
  have hunit : sums.1.HasUnit ∨ sums.2.HasUnit := by
    refine h.reaches
      (fun sums : Distribution ℚ × Distribution ℚ => sums.1.Nonneg ∧ sums.2.Nonneg)
      (fun sums => sums.1.HasUnit ∨ sums.2.HasUnit) hsums
      ⟨Distribution.nonneg_empty, Distribution.nonneg_empty⟩ ?_ ?_ ?_
    · rintro sums next c ⟨hn, hcrit⟩ hnext
      obtain ⟨d, -, hnext⟩ := bind_eq_ok.1 hnext
      obtain rfl := pure_eq_ok.1 hnext
      split
      · exact ⟨hn, hcrit.addWeighted d c.2⟩
      · exact ⟨hn.addWeighted d c.2, hcrit⟩
    · rintro sums next c hlow hone ⟨hn, hcrit⟩ hnext
      obtain ⟨d, hd, hnext⟩ := bind_eq_ok.1 hnext
      obtain rfl := pure_eq_ok.1 hnext
      obtain ⟨e, he, rfl⟩ := Node.values_eq_ok hd
      have hcertain := hlow.certain_walk rfl rfl he
      split
      · exact .inr (hcertain.hasUnit_addWeighted hcrit hone)
      · exact .inl (hcertain.hasUnit_addWeighted hn hone)
    · intro sums next c hunit hnext
      obtain ⟨d, -, hnext⟩ := bind_eq_ok.1 hnext
      obtain rfl := pure_eq_ok.1 hnext
      split
      · exact hunit.imp_right fun hunit => hunit.addWeighted d c.2
      · exact hunit.imp_left fun hunit => hunit.addWeighted d c.2
  have htotal : 0 < (sums.1.rounded.addScaled sums.2.rounded 1).total := by
    rw [Distribution.total_addScaled (Distribution.whole_rounded _).nonneg zero_le_one, one_mul]
    have hn := (Distribution.whole_rounded sums.1).nonneg.total_nonneg
    have hcrit := (Distribution.whole_rounded sums.2).nonneg.total_nonneg
    obtain hunit | hunit := hunit <;> linarith [hunit.total_rounded_pos]
  exact ⟨htotal, fun _ h => by cases h⟩

theorem Enumerates.hasUnit_reuseReadings (h : Enumerates groups root)
    {readings : Distribution ℚ × Distribution ℚ}
    (hreadings : reuseReadings s groups root = .ok readings) :
    readings.1.HasUnit ∧ readings.2.HasUnit := by
  rw [reuseReadings, forCombinations_eq] at hreadings
  refine h.reaches
    (fun sums : Distribution ℚ × Distribution ℚ => sums.1.Nonneg ∧ sums.2.Nonneg)
    (fun sums => sums.1.HasUnit ∧ sums.2.HasUnit) hreadings
    ⟨Distribution.nonneg_empty, Distribution.nonneg_empty⟩ ?_ ?_ ?_
  · rintro sums next c ⟨hn, hcrit⟩ hnext
    obtain ⟨d, -, hnext⟩ := bind_eq_ok.1 hnext
    obtain ⟨d', -, hnext⟩ := bind_eq_ok.1 hnext
    obtain rfl := pure_eq_ok.1 hnext
    exact ⟨hn.addWeighted d c.2, hcrit.addWeighted d' c.2⟩
  · rintro sums next c hlow hone ⟨hn, hcrit⟩ hnext
    obtain ⟨d, hd, hnext⟩ := bind_eq_ok.1 hnext
    obtain ⟨d', hd', hnext⟩ := bind_eq_ok.1 hnext
    obtain rfl := pure_eq_ok.1 hnext
    obtain ⟨e, he, rfl⟩ := Node.values_eq_ok hd
    obtain ⟨e', he', rfl⟩ := Node.values_eq_ok hd'
    exact ⟨(hlow.certain_walk rfl rfl he).hasUnit_addWeighted hn hone,
      (hlow.certain_walk rfl rfl he').hasUnit_addWeighted hcrit hone⟩
  · rintro sums next c ⟨hn, hcrit⟩ hnext
    obtain ⟨d, -, hnext⟩ := bind_eq_ok.1 hnext
    obtain ⟨d', -, hnext⟩ := bind_eq_ok.1 hnext
    obtain rfl := pure_eq_ok.1 hnext
    exact ⟨hn.addWeighted d c.2, hcrit.addWeighted d' c.2⟩

/-- **Whatever way combinations are gone through, the lowest one is still there at the end.** -/
theorem Enumerates.answers_reuseByGroups (h : Enumerates groups root)
    (hrate : ∀ rate, s.rate = some rate → 0 ≤ rate ∧ rate ≤ 100)
    (he : reuseByGroups s groups root = .ok e) : e.Answers := by
  cases reuseRoute_of_ok he with
  | conditional hroot hcondition he => exact h.answers_reuseConditional hroot hcondition he
  | check hroot he => exact h.answers_reuseCheck (by rw [Node.guard?, hroot]) he
  | unguarded _ _ he | plain _ _ _ he => exact h.answers_reusePlain he
  | byRate _ _ _ _ hreadings =>
    obtain ⟨hn, hc⟩ := h.hasUnit_reuseReadings hreadings
    exact ⟨total_mixByRate_pos hrate hn hc, fun _ h => by cases h⟩
  | decided _ _ _ _ he => exact h.answers_reuseSplit he

end Combinations

/-! ## 3. Formulas without references -/

/-- The reading that a formula without references cannot do without: the one without critical faces
where dice decide about critical hits, all rolls otherwise. -/
def Settings.reading (s : Settings ℚ) (root : Node) : Context where
  restrictCritical := wantsMixture s root && root.hasCriticalDice

theorem hasUnit_evaluate (hregistry : s.registry = []) {ctx : Context} (hctx : ctx.pinned = none)
    (h : root.Lasts s ctx) (he : root.evaluate s ctx = .ok e) : e.distribution.HasUnit := by
  have hpos := Node.total_evaluate_pos hregistry hctx h he
  have hwhole := Node.positiveWhole_evaluate hctx he
  obtain ⟨p, hp⟩ := List.exists_mem_of_ne_nil _ (Distribution.ne_nil_of_total_pos hpos)
  obtain ⟨n, hn, hweight⟩ := hwhole.exists_natCast hp
  refine ⟨hwhole.positive.nonneg, p.1, ?_⟩
  have hentry : e.distribution.weightOf p.1 = p.2 := mem_toList hp
  rw [hentry, hweight, Nat.one_le_cast]
  exact hn

theorem hasUnit_values (hregistry : s.registry = []) {ctx : Context} (hctx : ctx.pinned = none)
    (h : root.Lasts s ctx) {d : Distribution ℚ} (hd : root.values s ctx = .ok d) : d.HasUnit := by
  obtain ⟨e, he, rfl⟩ := Node.values_eq_ok hd
  exact hasUnit_evaluate hregistry hctx h he

theorem answers_criticalMixture (hregistry : s.registry = [])
    (hrate : ∀ rate, s.rate = some rate → 0 ≤ rate ∧ rate ≤ 100)
    (hwants : wantsMixture s root = true) (h : root.Lasts s (s.reading root))
    (he : criticalMixture s root = .ok e) : e.Answers := by
  rw [Settings.reading, hwants, Bool.true_and] at h
  cases mixtureRoute_of_ok he with
  | @decided normal all low hmarks hnormal hall hlow =>
    rw [hmarks] at h
    have hunit := hasUnit_values hregistry rfl h hnormal
    have hcritical : (all.subtract low).Nonneg :=
      (PositiveWhole.subtract (Node.positiveWhole_values rfl hall).whole
        (Node.positiveWhole_values rfl hlow).whole).positive.nonneg
    have htotal : 0 < (normal.addScaled (all.subtract low) 1).total := by
      rw [Distribution.total_addScaled hcritical zero_le_one, one_mul]
      linarith [hunit.one_le_total, hcritical.total_nonneg]
    exact ⟨htotal, fun _ h => by cases h⟩
  | byRate hmarks hnormal hcritical =>
    rw [hmarks] at h
    exact ⟨total_mixByRate_pos hrate (hasUnit_values hregistry rfl h hnormal)
      (hasUnit_values hregistry rfl (h.critical true) hcritical), fun _ h => by cases h⟩

/-! ## 4. Reports -/

namespace Report

theorem distribution_ofEvaluation (f : Formula) (e : Evaluation ℚ) :
    (ofEvaluation f e).distribution = e.distribution.record := by
  cases e <;> rfl

theorem totalOutcomes_ofEvaluation (f : Formula) (h : e.Answers) :
    (ofEvaluation f e).totalOutcomes = e.distribution.total := by
  cases e with
  | check c =>
    obtain ⟨hs, hf⟩ := h.nonneg_check c rfl
    exact (Distribution.total_bernoulli hs hf).symm
  | _ => rfl

end Report

/-- A report lists a value for every outcome, and texts are never lost. -/
theorem Distribution.isEmpty_record {d : Distribution ℚ} (h : d.toList ≠ []) :
    d.record.isEmpty = false := by
  unfold record
  obtain ⟨p, rest, hlist⟩ := List.exists_cons_of_ne_nil h
  rw [hlist, List.foldl_cons]
  exact foldl_invariant _ (fun map : Std.TreeMap String ℚ => map.isEmpty = false) rest
    Std.TreeMap.isEmpty_insert fun map q _ _ => Std.TreeMap.isEmpty_insert

/-! ## 5. Calculations -/

namespace Formula

variable {text : String} {f : Formula}

theorem pool_sides_ne_zero (h : ofText text = .ok f) {p : Pool} (hp : p ∈ f.root.pools) :
    p.dice.sides ≠ 0 := by
  obtain ⟨root, rfl, hsides⟩ := ofText_eq_ok h
  refine hsides p ?_
  unfold ofNode at hp
  split at hp
  · rwa [root.pools_withIds 1] at hp
  · exact hp

theorem sides_ne_zero_of_ofText (h : ofText text = .ok f) {n : Node} (hn : n ∈ f.root.subterms)
    {d : Dice} (hd : n.literal? = some d) : d.sides ≠ 0 := by
  cases n with
  | dice d' id modifier =>
    cases hd
    exact pool_sides_ne_zero h (p := ⟨d, modifier⟩) (List.mem_filterMap.2 ⟨_, hn, rfl⟩)
  | _ => cases hd

/-- A die may show a one where critical faces are left out, if some of its faces are not. -/
theorem lasts_reading (htext : ofText text = .ok f)
    (hmix : ∀ n ∈ f.root.subterms, ∀ critical,
      ¬ n.Vanishes s ((s.reading f.root).critical critical))
    (hlow : wantsMixture s f.root = true → ∀ d ∈ f.root.literals, d.critical = true →
      ∀ rate, s.rate = some rate → 1 < criticalThreshold rate d.sides.toNat) :
    f.root.Lasts s (s.reading f.root) where
  dice n hn d hd := by
    refine ⟨sides_ne_zero_of_ofText htext hn hd, ?_⟩
    unfold Settings.admits
    cases hrate : s.rate with
    | none => rfl
    | some rate =>
      dsimp only
      split
      · next hrestricted =>
        simp only [Settings.reading, Bool.and_eq_true] at hrestricted
        obtain ⟨⟨hwants, -⟩, hcritical⟩ := hrestricted
        exact decide_eq_true
          (hlow hwants d (List.mem_filterMap.2 ⟨n, hn, hd⟩) hcritical rate hrate)
      · rfl
  kept := hmix

theorem answers_evaluateFormula (htext : ofText text = .ok f) (hregistry : s.registry = f.registry)
    (hrate : ∀ rate, s.rate = some rate → 0 ≤ rate ∧ rate ≤ 100)
    (hlasts : f.hasReuse = false → f.root.Lasts s (s.reading f.root))
    (he : f.root.evaluateFormula s = .ok e) : e.Answers := by
  have hreuse : f.hasReuse = !s.registry.isEmpty := by rw [hregistry]; rfl
  cases route_of_ok he with
  | reuse hdice hgroups he =>
    obtain ⟨hnum, hlen, hsides⟩ := numbered_of_ofText htext (hreuse.trans (by rw [hdice]; rfl))
    have h : Enumerates _ f.root :=
      ⟨hnum, hsides, diceGroups_eq_ok hnum (hregistry ▸ hlen) hgroups, nonneg_diceGroups hgroups⟩
    exact h.answers_reuseByGroups hrate he
  | mixture hempty hmix he =>
    have h := hlasts (hreuse.trans (by rw [hempty]; rfl))
    exact answers_criticalMixture (List.isEmpty_iff.1 hempty) hrate hmix h he
  | plain hempty hmix he =>
    have h := hlasts (hreuse.trans (by rw [hempty]; rfl))
    rw [Settings.reading, hmix, Bool.false_and] at h
    have hunit := hasUnit_evaluate (List.isEmpty_iff.1 hempty) rfl h he
    refine ⟨zero_lt_one.trans_le hunit.one_le_total, ?_⟩
    rintro c rfl
    exact Node.nonneg_of_walk he

end Formula

theorem Options.rate_settings {options : Options ℚ} {registry : Registry} {rate : ℚ}
    (h : (options.settings registry).rate = some rate) : options.criticalRate = rate := by
  rw [settings] at h
  split at h
  · exact Option.some.inj h
  · cases h

theorem Options.bounds_of_hasValidRate {options : Options ℚ} (h : options.hasValidRate = true) :
    0 ≤ options.criticalRate ∧ options.criticalRate ≤ 100 := by
  simp only [hasValidRate, Bool.and_eq_true, Bool.not_eq_true', decide_eq_false_iff_not,
    not_lt] at h
  exact ⟨h.1.2, h.2⟩

/-- What a successful calculation has gone through. -/
theorem calculate_eq_ok {text : String} {options : Options ℚ} {report : Report ℚ}
    (h : calculate text options = .ok report) :
    (0 ≤ options.criticalRate ∧ options.criticalRate ≤ 100) ∧ ∃ f e,
      Formula.ofText text = .ok f ∧ f.root.evaluateFormula (options.settings f.registry) = .ok e
        ∧ report = .ofEvaluation f e := by
  unfold calculate at h
  split at h
  · cases h
  · next hvalid =>
    simp only [Bool.not_eq_true, Bool.not_eq_false'] at hvalid
    obtain ⟨f, htext, h⟩ := bind_eq_ok.1 h
    split at h
    · next e he =>
      obtain rfl := pure_eq_ok.1 h
      obtain ⟨evaluation, hevaluation, he⟩ := bind_eq_ok.1 he
      split at he
      · obtain rfl := pure_eq_ok.1 he
        exact ⟨Options.bounds_of_hasValidRate hvalid, f, evaluation, htext, hevaluation, rfl⟩
      · cases he
    · cases h

/-- **A calculation that succeeds has an answer**: always with references, and without them if no
conditional loses all of its branches to rounding and, in a critical mixture, no die has critical
faces only. -/
theorem distribution_calculate_nonempty {text : String} {options : Options ℚ} {report : Report ℚ}
    (h : calculate text options = .ok report) {f : Formula} (htext : Formula.ofText text = .ok f)
    (hmix : f.hasReuse = false → ∀ n ∈ f.root.subterms, ∀ critical,
      ¬ n.Vanishes (options.settings f.registry)
        (((options.settings f.registry).reading f.root).critical critical))
    (hlow : f.hasReuse = false → wantsMixture (options.settings f.registry) f.root = true →
      ∀ d ∈ f.root.literals, d.critical = true →
        1 < criticalThreshold options.criticalRate d.sides.toNat) :
    report.distribution.isEmpty = false ∧ 1 ≤ report.totalOutcomes := by
  obtain ⟨hrate, f', e, htext', he, rfl⟩ := calculate_eq_ok h
  obtain rfl : f' = f := by
    rw [htext] at htext'
    cases htext'
    rfl
  have hanswers : e.Answers := Formula.answers_evaluateFormula htext rfl (fun rate hsome =>
      Options.rate_settings hsome ▸ hrate) (fun hreuse => Formula.lasts_reading htext (hmix hreuse)
        fun hwants d hd hcritical rate hsome =>
      Options.rate_settings hsome ▸ hlow hreuse hwants d hd hcritical) he
  have hwhole := Node.positiveWhole_evaluateFormula he
  obtain ⟨n, hn⟩ := hwhole.whole.exists_total
  refine ⟨?_, ?_⟩
  · rw [Report.distribution_ofEvaluation]
    exact Distribution.isEmpty_record (Distribution.ne_nil_of_total_pos hanswers.total_pos)
  · have hpos := hanswers.total_pos
    rw [Report.totalOutcomes_ofEvaluation f' hanswers]
    rw [hn] at hpos ⊢
    exact_mod_cast hpos

/-- `d2>1?[2]:0`: a bonus on a critical hit that depends on a die. -/
def criticalBonus : Node :=
  .conditional (.comparison .greater (.dice ⟨1, 2, false⟩ none none) (.number 1.0))
    (.only (.number 2.0)) (.number 0.0)

/-- `D4+(d2>1?[2]:0)`: a die that decides about critical hits, and a bonus. -/
def decidingAndBonus : Formula where
  root := .binary .add (.dice ⟨1, 4, true⟩ none none) (.group criticalBonus)
  registry := []

set_option maxRecDepth 4000 in
theorem ofText_decidingAndBonus : Formula.ofText "D4+(d2>1?[2]:0)" = .ok decidingAndBonus := by
  have htokens : tokenize "D4+(d2>1?[2]:0)" = .ok [⟨.dice ⟨1, 4, true⟩, 0⟩, ⟨.symbol .plus, 2⟩,
      ⟨.symbol .leftParen, 3⟩, ⟨.dice ⟨1, 2, false⟩, 4⟩, ⟨.relation .greater, 6⟩,
      ⟨.number 1.0, 7⟩, ⟨.symbol .question, 8⟩, ⟨.symbol .leftBracket, 9⟩, ⟨.number 2.0, 10⟩,
      ⟨.symbol .rightBracket, 11⟩, ⟨.symbol .colon, 12⟩, ⟨.number 0.0, 13⟩,
      ⟨.symbol .rightParen, 14⟩] := by
    decide +kernel
  rw [Formula.ofText, htokens]
  rfl

set_option maxRecDepth 4000 in
/-- Half of the rolls of `D4` are critical, and the conditional gives one unit to each of its
branches. -/
theorem distribution_calculate_decidingAndBonus :
    ∃ report : Report ℚ, calculate "D4+(d2>1?[2]:0)"
          { criticalEnabled := true, criticalRate := (50 : ℚ) } = .ok report
        ∧ report.distribution.isEmpty = false ∧ 1 ≤ report.totalOutcomes := by
  have hok : (calculate "D4+(d2>1?[2]:0)"
      { criticalEnabled := true, criticalRate := (50 : ℚ) }).isOk = true := by
    unfold calculate
    rw [ofText_decidingAndBonus]
    decide +kernel
  have hkept : ∀ critical : Bool, (criticalBonus.evaluate
      { rate := some (50 : ℚ) }
      { criticalBranch := critical, restrictCritical := true }).toOption.any
        (fun e => !e.distribution.toList.isEmpty) = true := by decide +kernel
  cases h : calculate "D4+(d2>1?[2]:0)"
      { criticalEnabled := true, criticalRate := (50 : ℚ) } with
  | error _ => rw [h] at hok; cases hok
  | ok report =>
    refine ⟨report, rfl, distribution_calculate_nonempty h ofText_decidingAndBonus ?_ ?_⟩
    · rintro - n hn critical ⟨condition, ifTrue, ifFalse, check, e, rfl, -, he, hempty, -, -⟩
      have hn : .conditional condition ifTrue ifFalse = criticalBonus := by
        simpa [decidingAndBonus, criticalBonus, Node.subterms] using hn
      have hvalues : criticalBonus.evaluate { rate := some (50 : ℚ) }
          { criticalBranch := critical, restrictCritical := true } = .ok e := hn ▸ he
      have hkept := hkept critical
      rw [hvalues] at hkept
      simp [Except.toOption, hempty] at hkept
    · rintro - - d hd -
      have hd : ⟨1, 4, true⟩ = d ∨ ⟨1, 2, false⟩ = d := by
        simpa [decidingAndBonus, criticalBonus, Node.literals, Node.subterms, Node.literal?]
          using hd
      rcases hd with rfl | rfl
      · decide +kernel
      · decide +kernel

set_option maxRecDepth 4000 in
theorem ofText_sixShares : Formula.ofText "1>0?d6:0" = .ok
    { root := .conditional (.comparison .greater (.number 1.0) (.number 0.0))
        (.dice ⟨1, 6, false⟩ none none) (.number 0.0), registry := [] } := by
  have htokens : tokenize "1>0?d6:0" = .ok [⟨.number 1.0, 0⟩, ⟨.relation .greater, 1⟩,
      ⟨.number 0.0, 2⟩, ⟨.symbol .question, 3⟩, ⟨.dice ⟨1, 6, false⟩, 4⟩, ⟨.symbol .colon, 6⟩,
      ⟨.number 0.0, 7⟩] := by
    decide +kernel
  rw [Formula.ofText, htokens]
  rfl

set_option maxRecDepth 4000 in
theorem ofText_alwaysCritical : Formula.ofText "|D6|5|" = .ok
    { root := .switch (.dice ⟨1, 6, true⟩ none none) (.number 5.0), registry := [] } := by
  have htokens : tokenize "|D6|5|" = .ok [⟨.symbol .pipe, 0⟩, ⟨.dice ⟨1, 6, true⟩, 1⟩,
      ⟨.symbol .pipe, 3⟩, ⟨.number 5.0, 4⟩, ⟨.symbol .pipe, 5⟩] := by
    decide +kernel
  rw [Formula.ofText, htokens]
  rfl

/-- **Nothing is reported as a success** where the shares of all values are rounded away: six values
share one unit.  And where every face of the only die is critical, no roll is left for the normal
reading, and the critical one does not roll it. -/
theorem distribution_calculate_sixShares :
    (∃ report : Report ℚ, calculate "1>0?d6:0" .standard = .ok report
        ∧ report.distribution.isEmpty = true ∧ report.totalOutcomes = 0)
      ∧ ∃ report : Report ℚ, calculate "|D6|5|"
            { criticalEnabled := true, criticalRate := (100 : ℚ) } = .ok report
          ∧ report.distribution.isEmpty = true ∧ report.totalOutcomes = 0 := by
  have hsix : (calculate "1>0?d6:0" (.standard : Options ℚ)).toOption.any (fun report =>
      report.distribution.isEmpty && report.totalOutcomes == 0) = true := by
    unfold calculate
    rw [ofText_sixShares]
    decide +kernel
  have halways : (calculate "|D6|5|"
      { criticalEnabled := true, criticalRate := (100 : ℚ) }).toOption.any (fun report =>
        report.distribution.isEmpty && report.totalOutcomes == 0) = true := by
    unfold calculate
    rw [ofText_alwaysCritical]
    decide +kernel
  constructor
  · cases h : calculate "1>0?d6:0" (.standard : Options ℚ) with
    | error _ => rw [h] at hsix; cases hsix
    | ok report =>
      rw [h] at hsix
      exact ⟨report, rfl, by simpa [Except.toOption] using hsix⟩
  · cases h : calculate "|D6|5|" { criticalEnabled := true, criticalRate := (100 : ℚ) } with
    | error _ => rw [h] at halways; cases halways
    | ok report =>
      rw [h] at halways
      exact ⟨report, rfl, by simpa [Except.toOption] using halways⟩

end DiceOdds
