import DiceOdds.Proofs.Rate.Combinations
import DiceOdds.Proofs.Rate.Shares
import DiceOdds.Proofs.Critical.Mixture

/-!
# A rate of zero is no rate

A formula that is evaluated at a rate of zero has no critical hits, and every outcome has the
probability that it has with critical hits turned off.

## Why there are exceptions

A rate of zero takes every critical face away, but not all that looks for one is about faces.  For a
combination the value of a whole group is compared with the threshold of one of its dice.  A mixture
takes two readings apart that differ in more than their faces if a conditional in it asks for
critical hits itself.  And totals can depend on a critical branch that is never taken: where the
common total is too large for exact numbers, the one that is used instead rounds.  `HarmlessAtZero`
says that nothing of this happens.
-/

namespace DiceOdds

variable {s : Settings ℚ} {root : Node} {e e' : Evaluation ℚ}

/-! ## 1. The same odds -/

/-- No critical hits, and the probabilities of another evaluation. -/
structure Evaluation.SameOdds (e' e : Evaluation ℚ) : Prop where
  noHits : e'.NoHits
  share_eq : ∀ v, e'.distribution.weightOf v / e'.distribution.total
    = e.distribution.weightOf v / e.distribution.total

theorem Distribution.MultipleOf.share_eq {x y : Distribution ℚ} (h : x.MultipleOf y) (v : Outcome) :
    x.weightOf v / x.total = y.weightOf v / y.total := by
  rw [weightOf_eq_sumOver, weightOf_eq_sumOver]
  exact h.mean_eq _

namespace Evaluation.SameOdds

theorem of_multipleOf (h : e'.MultipleOf e) : e'.SameOdds e := ⟨h.noHits, h.values.share_eq⟩

theorem of_distribution (hhits : e'.NoHits) (h : e'.distribution = e.distribution) :
    e'.SameOdds e :=
  ⟨hhits, fun v => by rw [h]⟩

end Evaluation.SameOdds

/-- An ordinary evaluation has the same odds in either mode of mixing. -/
theorem Node.multipleOf_zero (hrate : s.rate = some 0) {node : Node} (hfits : node.Fits)
    (hmix : s.mixing = .exact → node.MixesExactly s) (he' : node.evaluate s {} = .ok e')
    (he : node.evaluate s.withoutRate {} = .ok e) : e'.MultipleOf e := by
  cases hmixing : s.mixing with
  | exact => exact multipleOf_evaluate hrate hmixing node hfits (hmix hmixing) he' he
  | rounded =>
    exact .of_sameAs (sameAs_evaluate hrate (s.calm_withoutRate {})
      ⟨hfits, rfl, .inl rfl, fun _ _ => .inl ⟨hmixing, rfl⟩⟩ he' he) (positive_walk node he).nonneg

/-! ## 2. Mixtures that count rolls -/

namespace Distribution

theorem subtract_self (d : Distribution ℚ) : d.subtract d = empty := by
  refine foldl_invariant _ (· = empty) d.toList rfl fun out p hp hout => ?_
  dsimp only
  rw [weightOf, mem_toList hp, sub_self, if_neg (by norm_num), hout]

theorem addScaled_empty (d : Distribution ℚ) (factor : ℚ) : d.addScaled empty factor = d := rfl

end Distribution

namespace MixtureResult

theorem combined_ofParts_empty (d : Distribution ℚ) : (ofParts d .empty).combined = d :=
  Distribution.addScaled_empty d 1

theorem criticalProbability_ofParts_empty (d : Distribution ℚ) :
    (ofParts d .empty).criticalProbability = 0 := by
  have hempty : (.empty : Distribution ℚ).total = 0 := rfl
  rw [criticalProbability_ofParts Distribution.nonneg_empty, hempty, zero_div]

end MixtureResult

/-- A mixture without a critical part is its normal part. -/
theorem Evaluation.SameOdds.ofParts {d : Distribution ℚ} (h : d = e.distribution) :
    (Evaluation.mixture (.ofParts d .empty)).SameOdds e :=
  have hzero := MixtureResult.criticalProbability_ofParts_empty d
  .of_distribution ⟨fun _ hp => (Option.some.inj hp).symm.trans hzero, List.forall_mem_nil _⟩
    ((MixtureResult.combined_ofParts_empty d).trans h)

/-! ## 3. Mixtures by the rate -/

/-- The total of the mixture by the rate is not rounded: there is a common total that numbers
represent exactly, or the normal reading is the one that counts. -/
def MixesByRate (normal critical : Distribution ℚ) : Prop :=
  (Mixing.commonTotal? ((100 : ℕ) : ℚ) [normal.total, critical.total]).isSome = true
    ∨ critical.total ≤ normal.total

theorem larger_of_le {a b : ℚ} (h : b ≤ a) : Weight.larger a b = a := by
  unfold Weight.larger
  rcases h.lt_or_eq with hlt | rfl
  · rw [if_pos (by simp [hlt])]
  · exact ite_self _

/-- The total of the normal reading fits into that of the mixture a whole number of times. -/
theorem MixesByRate.exists_rateTotal {normal critical : Distribution ℚ}
    (h : MixesByRate normal critical) :
    ∃ n : ℕ, 0 < n ∧ rateTotal normal critical = n * normal.total := by
  have hle : critical.total ≤ normal.total →
      ((100 : ℕ) : ℚ) * Weight.larger normal.total critical.total = (100 : ℕ) * normal.total :=
    fun hle => by rw [larger_of_le hle]
  unfold rateTotal Mixing.targetTotal
  dsimp only
  cases hcommon : Mixing.commonTotal? ((100 : ℕ) : ℚ) [normal.total, critical.total] with
  | none =>
    rw [MixesByRate, hcommon] at h
    rw [if_neg (lt_irrefl _)]
    exact ⟨100, by norm_num, hle (h.resolve_left (by simp))⟩
  | some common =>
    obtain ⟨base, totals, hbase, htotals, -, -, hbounds, rfl, -⟩ := Mixing.of_commonTotal? hcommon
    obtain rfl : 100 = base := Nat.cast_inj.1 hbase
    have hpos : 0 < (totals : Multiset ℕ).lcm := by
      rw [Nat.pos_iff_ne_zero, ne_eq, Multiset.lcm_eq_zero_iff]
      exact fun hzero => absurd (hbounds 0 (Multiset.mem_coe.1 hzero)).1 (by norm_num)
    have hdvd : ∀ w ∈ [normal.total, critical.total],
        ∃ t : ℕ, w = t ∧ 1 ≤ t ∧ t ∣ (totals : Multiset ℕ).lcm := by
      intro w hw
      obtain ⟨t, ht, rfl⟩ := List.mem_map.1 (htotals ▸ hw)
      exact ⟨t, rfl, (hbounds t ht).1, Multiset.dvd_lcm (Multiset.mem_coe.2 ht)⟩
    obtain ⟨n, hn, hone, m, hm⟩ := hdvd normal.total (by simp)
    obtain ⟨c, hc, -, hcm⟩ := hdvd critical.total (by simp)
    dsimp only
    split
    · next hlt =>
      have hpos : 0 < m := Nat.pos_of_mul_pos_left (hm ▸ hpos)
      exact ⟨100 * m, by omega, by rw [hn, hm]; push_cast; ring⟩
    · next hlt =>
      refine ⟨100, by norm_num, hle ?_⟩
      -- the common multiple is at most one, and so are both totals
      have hsmall : (totals : Multiset ℕ).lcm ≤ 1 := by
        rw [Nat.cast_lt] at hlt
        omega
      rw [hn, hc, Nat.cast_le]
      exact ((Nat.le_of_dvd hpos hcm).trans hsmall).trans hone

namespace Distribution

/-- Alone in a mixture over a multiple of its total, a part keeps its shares. -/
theorem share_mix_one {d : Distribution ℚ} {target : ℚ} {k : ℕ} (hwhole : d.Whole) (hk : 0 < k)
    (htarget : target = k * d.total) (v : Outcome) :
    (mix [(1, d)] target).weightOf v / (mix [(1, d)] target).total = d.weightOf v / d.total := by
  by_cases hzero : d.total = 0
  · rw [htarget, hzero, mul_zero, mix_target_zero, whole_empty.weightOf_rounded,
      weightOf_eq_sumOver, sumOver_empty, zero_div, div_zero]
  have hnonneg : 0 ≤ target := by
    rw [htarget]
    exact mul_nonneg (Nat.cast_nonneg k) hwhole.nonneg.total_nonneg
  have hsum : ∀ f, (blend [(1, d)] target).sumOver f = k * d.sumOver f := by
    intro f
    rw [sumOver_blend hnonneg (by simpa using hwhole.nonneg), htarget]
    simp only [List.map_cons, List.map_nil, List.sum_cons, List.sum_nil]
    field_simp
    ring
  have hblend : (blend [(1, d)] target).Whole := whole_of_sumOver fun f hf => by
    obtain ⟨n, hn⟩ := hwhole.sumOver hf
    exact ⟨k * n, by rw [hsum, hn, Nat.cast_mul]⟩
  rw [mix_eq_rounded]
  refine MultipleOf.share_eq ⟨(positive_rounded _).nonneg, hwhole.nonneg, k, hk, fun f => ?_⟩ v
  rw [hblend.sumOver_rounded, hsum]

end Distribution

/-- **Mixed at a rate of zero, the normal reading keeps its shares.** -/
theorem MixesByRate.share_eq {normal critical : Distribution ℚ} (h : MixesByRate normal critical)
    (hrate : s.rate = some 0) (hwhole : normal.Whole) (v : Outcome) :
    (mixByRate s normal critical).combined.weightOf v / (mixByRate s normal critical).combined.total
      = normal.weightOf v / normal.total := by
  obtain ⟨k, hk, htotal⟩ := h.exists_rateTotal
  have hcombined : (mixByRate s normal critical).combined
      = .mix [(1, normal)] (rateTotal normal critical) := by
    unfold mixByRate
    rw [hrate]
    simp only [rateProbability, zero_div, sub_zero]
    unfold Distribution.mix
    simp only [List.foldl_cons, List.foldl_nil, Distribution.addPart_zero]
  rw [hcombined, Distribution.share_mix_one hwhole hk htotal]

/-- The mixture by a rate of zero says that nothing is critical. -/
theorem noHits_mixByRate (hrate : s.rate = some 0) (normal critical : Distribution ℚ) :
    (Evaluation.mixture (mixByRate s normal critical)).NoHits := by
  refine ⟨fun p hp => ?_, List.forall_mem_nil _⟩
  rw [← Option.some.inj hp, mixByRate, hrate]
  exact zero_div _

/-! ## 4. Whole formulas -/

/-- The ids of the dice that decide about the critical hits of a formula with references. -/
def Node.hitIds (s : Settings ℚ) (root : Node) : List ℕ :=
  match root.stripGroups with
  | .comparison _ _ _ => decidingIds s root
  | .conditional condition _ _ => decidingIds s condition
  | _ => if wantsMixture s root then root.criticalIds else []

/-- What has to hold of a formula for a rate of zero to do nothing. -/
structure Node.HarmlessAtZero (s : Settings ℚ) (root : Node) : Prop where
  /-- The threshold of each die is one above its highest face. -/
  fits : root.Fits
  /-- Without references, where dice decide about a mixture, no conditional asks for critical hits
  itself. -/
  quiet : s.registry.isEmpty = true → wantsMixture s root = true → root.hasCriticalDice = true →
    root.subterms.any isLoud = false
  /-- Without references, exact mixing is within the bounds of exact numbers. -/
  mixes : s.registry.isEmpty = true → s.mixing = .exact → root.MixesExactly s
  /-- Where no die decides, neither is the mixture by the rate rounded. -/
  rates : ∀ normal critical, root.evaluateFormula s = .ok (.mixture (mixByRate s normal critical)) →
    MixesByRate normal critical ∧ (s.registry.isEmpty = false → normal.Whole)
  /-- With references, some deciding group stays below the threshold of its dice. -/
  decided : s.registry.isEmpty = false → ∀ groups, diceGroups s root = .ok groups →
    StaysBelow s groups (root.hitIds s)

theorem wantsMixture_withoutRate (root : Node) : wantsMixture s.withoutRate root = false := rfl

/-- A mixture without references. -/
theorem sameOdds_criticalMixture (hrate : s.rate = some 0) (hfits : root.Fits)
    (hquiet : root.hasCriticalDice = true → root.subterms.any Node.isLoud = false)
    (hmix : s.mixing = .exact → root.MixesExactly s)
    (hrates : ∀ normal critical, e' = .mixture (mixByRate s normal critical) →
      MixesByRate normal critical) (he' : criticalMixture s root = .ok e')
    (he : root.evaluate s.withoutRate {} = .ok e) : e'.SameOdds e := by
  cases mixtureRoute_of_ok he' with
  | decided hmarks hnormal hall hlow =>
    obtain ⟨n, hn, rfl⟩ := Node.values_eq_ok hnormal
    obtain ⟨a, ha, rfl⟩ := Node.values_eq_ok hall
    obtain ⟨l, hl, rfl⟩ := Node.values_eq_ok hlow
    -- both readings of the critical hit are the same, so nothing is critical
    have hfollows : root.Follows s { criticalBranch := true }
        (Context.restricted { criticalBranch := true }) :=
      ⟨hfits, rfl, .inl rfl, fun _ _ => .inr (hquiet hmarks)⟩
    have hsame := Node.sameAs_evaluate hrate (s.calm_restricted hrate _) hfollows ha hl
    rw [hsame.distribution, Distribution.subtract_self]
    have hrestricted : root.Follows s (Context.restricted {}) {} :=
      ⟨hfits, rfl, .inl rfl, fun _ hnone => nomatch hnone⟩
    have hnormal := Node.sameAs_evaluate hrate (s.calm_withoutRate {}) hrestricted hn he
    exact .ofParts hnormal.distribution
  | byRate _ hnormal =>
    obtain ⟨n, hn, rfl⟩ := Node.values_eq_ok hnormal
    refine ⟨noHits_mixByRate hrate _ _, fun v => ?_⟩
    have hwhole := Node.whole_walk rfl root hn
    exact ((hrates _ _ rfl).share_eq hrate hwhole v).trans
      ((Node.multipleOf_zero hrate hfits hmix hn he).values.share_eq v)

/-- All ways to go through combinations. -/
theorem sameOdds_reuseByGroups (hrate : s.rate = some 0) (hfits : root.Fits)
    {groups : List (DiceGroup ℚ)} (hbelow : StaysBelow s groups (root.hitIds s))
    (hrates : ∀ normal critical, e' = .mixture (mixByRate s normal critical) →
      MixesByRate normal critical ∧ normal.Whole)
    (he' : reuseByGroups s groups root = .ok e')
    (he : reuseByGroups s.withoutRate groups root = .ok e) : e'.SameOdds e := by
  have hplain : reusePlain s groups root = .ok e' →
      reusePlain s.withoutRate groups root = .ok e → e'.SameOdds e := by
    intro he' he
    have hsame := reusePlain_agree hrate hfits he' he
    obtain ⟨sum, -, he'⟩ := bind_eq_ok.1 he'
    refine .of_distribution ?_ (congrArg Evaluation.distribution hsame)
    rw [← pure_eq_ok.1 he']
    exact .plain _
  unfold reuseByGroups at he' he
  unfold Node.hitIds at hbelow
  have hstripped := hfits.of_mem root.stripGroups_mem_subterms
  cases hstrip : root.stripGroups with
  | conditional condition ifTrue ifFalse =>
    rw [hstrip] at he' he hbelow hstripped
    dsimp only at he' he hbelow
    cases hcondition : condition.comparison? with
    | none =>
      rw [hcondition] at he' he
      exact hplain he' he
    | some sides =>
      obtain ⟨relation, left, right⟩ := sides
      rw [hcondition] at he' he
      have hwhole : condition.Fits := hstripped.part (by simp [Node.parts])
      have hcheck := hwhole.of_mem (Node.mem_subterms_of_comparison? hcondition)
      obtain ⟨hhits, hsame⟩ := reuseConditional_zero hrate
        (hcheck.part (by simp [Node.parts])) (hcheck.part (by simp [Node.parts]))
        (hstripped.part (by simp [Node.parts])) (hstripped.part (by simp [Node.parts])) hbelow
        he' he
      exact .of_distribution hhits hsame
  | comparison relation left right =>
    rw [hstrip] at he' he hbelow hstripped
    have hsame := sameAs_reuseCheck hrate (hstripped.part (by simp [Node.parts]))
      (hstripped.part (by simp [Node.parts])) hbelow he' he
    exact .of_distribution hsame.noHits hsame.distribution
  | _ =>
    rw [hstrip] at he' he hbelow
    dsimp only at he' he hbelow
    rw [wantsMixture_withoutRate, if_neg Bool.false_ne_true] at he
    cases hwants : wantsMixture s root with
    | false =>
      rw [hwants, if_neg Bool.false_ne_true] at he'
      exact hplain he' he
    | true =>
      rw [hwants, if_pos rfl] at he' hbelow
      split at he'
      · obtain ⟨readings, hreadings, he'⟩ := bind_eq_ok.1 he'
        obtain rfl := pure_eq_ok.1 he'
        obtain rfl := reuseReadings_zero hrate hfits hreadings he
        obtain ⟨hmixes, hwhole⟩ := hrates _ _ rfl
        refine ⟨noHits_mixByRate hrate _ _, fun v => (hmixes.share_eq hrate hwhole v).trans ?_⟩
        change _ = readings.1.rounded.weightOf v / readings.1.rounded.total
        rw [hwhole.weightOf_rounded, hwhole.total_rounded]
      · obtain ⟨values, rfl, rfl⟩ := reuseSplit_zero hrate hfits hbelow he' he
        exact .ofParts rfl

/-- **A rate of zero is no rate.**  If a formula can be evaluated at a rate of zero and without a
rate, then at a rate of zero it has no critical hits, neither in its result nor in the conditions
inside of it that are reached, and every outcome has the same probability in both: as long as each
die has a number above its highest face, no total of a mixture is rounded, no conditional asks for
critical hits inside of a mixture or a check that critical dice decide, and no combination of values
reaches the thresholds of single dice. -/
theorem evaluateFormula_rate_zero (hrate : s.rate = some 0) (h : root.HarmlessAtZero s)
    (he' : root.evaluateFormula s = .ok e')
    (he : root.evaluateFormula { s with rate := none } = .ok e) :
    (∀ p, e'.criticalChance? = some p → p = 0) ∧ (∀ entry ∈ e'.nested, entry.NoHits)
      ∧ ∀ v, e'.distribution.weightOf v / e'.distribution.total
          = e.distribution.weightOf v / e.distribution.total := by
  have hsame : e'.SameOdds e := by
    change root.evaluateFormula s.withoutRate = .ok e at he
    have hrates : ∀ normal critical, e' = .mixture (mixByRate s normal critical) →
        MixesByRate normal critical ∧ (s.registry.isEmpty = false → normal.Whole) :=
      fun normal critical hmixture => h.rates normal critical (hmixture ▸ he')
    unfold Node.evaluateFormula at he' he
    change (if !s.registry.isEmpty then _ else _) = _ at he
    rw [wantsMixture_withoutRate] at he
    cases hempty : s.registry.isEmpty with
    | true =>
      simp only [hempty, Bool.not_true, Bool.false_eq_true, if_false] at he' he
      split at he'
      · next hwants =>
        exact sameOdds_criticalMixture hrate h.fits (h.quiet hempty hwants) (h.mixes hempty)
          (fun normal critical hmixture => (hrates normal critical hmixture).1) he' he
      · exact .of_multipleOf (Node.multipleOf_zero hrate h.fits (h.mixes hempty) he' he)
    | false =>
      simp only [hempty, Bool.not_false, if_true] at he' he
      obtain ⟨groups', hgroups', hreuse'⟩ := evaluateReuse_eq_ok he'
      obtain ⟨groups, hgroups, hreuse⟩ := evaluateReuse_eq_ok he
      obtain rfl := diceGroups_agree hrate h.fits hgroups' hgroups
      exact sameOdds_reuseByGroups hrate h.fits (h.decided hempty groups' hgroups')
        (fun normal critical hmixture => (hrates normal critical hmixture).imp_right (· hempty))
        hreuse' hreuse
  exact ⟨hsame.noHits.chance, hsame.noHits.nested, hsame.share_eq⟩

/-- `d6>=4?#d_1#:0`: where the die is high enough it counts, doubled on a critical hit. -/
def countedAgain : Formula where
  root := .conditional (.comparison .greaterEqual (.dice ⟨1, 6, false⟩ (some 1) none) (.number 4.0))
    (.double (.reference 1 false)) (.number 0.0)
  registry := [⟨1, 6, false⟩]

set_option maxRecDepth 4000 in
theorem ofText_countedAgain : Formula.ofText "d6>=4?#d_1#:0" = .ok countedAgain := by
  have htokens : tokenize "d6>=4?#d_1#:0" = .ok [⟨.dice ⟨1, 6, false⟩, 0⟩,
      ⟨.relation .greaterEqual, 2⟩, ⟨.number 4.0, 4⟩, ⟨.symbol .question, 5⟩, ⟨.symbol .hash, 6⟩,
      ⟨.reference 1 false, 7⟩, ⟨.symbol .hash, 10⟩, ⟨.symbol .colon, 11⟩, ⟨.number 0.0, 12⟩] := by
    decide +kernel
  rw [Formula.ofText, htokens]
  rfl

set_option maxRecDepth 4000 in
/-- No value of the die reaches the threshold, which is `7`. -/
theorem harmlessAtZero_countedAgain :
    countedAgain.root.HarmlessAtZero
      ({ registry := countedAgain.registry, rate := some 0 } : Settings ℚ) where
  fits := by decide
  quiet := nofun
  mixes := nofun
  rates normal critical h := by
    have hok : (match countedAgain.root.evaluateFormula
        ({ registry := countedAgain.registry, rate := some 0 } : Settings ℚ) with
      | .ok (.mixture _) => false
      | _ => true) = true := by decide +kernel
    rw [h] at hok
    cases hok
  decided _ groups h := by
    have hok : (match diceGroups
        ({ registry := countedAgain.registry, rate := some 0 } : Settings ℚ) countedAgain.root with
      | .ok groups => groups.all fun group =>
          group.2.toList.all fun p => decide (p.1 < Outcome.ofInt (7 : ℕ))
      | _ => false) = true := by decide +kernel
    rw [h] at hok
    refine .inr ⟨1, by decide, fun d hd => ?_⟩
    obtain rfl : ⟨1, 6, false⟩ = d := Option.some.inj hd
    exact ⟨by decide, fun group hgroup _ p hp =>
      of_decide_eq_true (List.all_eq_true.1 (List.all_eq_true.1 hok group hgroup) p hp)⟩

/-- The readings of a mixture. -/
def Evaluation.mixture? : Evaluation ℚ → Option (MixtureResult ℚ)
  | mixture m => some m
  | _ => none

/-- `(d6>3?[d2]:d3)+1`: no die decides about the mixture, and the branch of a critical hit has a
total of its own. -/
def maybeAnother : Node :=
  .binary .add (.group (.conditional
    (.comparison .greater (.dice ⟨1, 6, false⟩ none none) (.number 3.0))
    (.only (.dice ⟨1, 2, false⟩ none none)) (.dice ⟨1, 3, false⟩ none none))) (.number 1.0)

set_option maxRecDepth 4000 in
/-- All totals are small enough for exact numbers. -/
theorem harmlessAtZero_maybeAnother :
    maybeAnother.HarmlessAtZero ({ rate := some 0, mixing := .exact } : Settings ℚ) where
  fits := by decide
  quiet _ _ hmarks := by cases hmarks
  decided h := by cases h
  rates normal critical h := by
    have hok : ((maybeAnother.evaluateFormula
        ({ rate := some 0, mixing := .exact } : Settings ℚ)).toOption.bind (·.mixture?)).any
          (fun m => (Mixing.commonTotal? ((100 : ℕ) : ℚ)
            [m.normal.total, m.critical.total]).isSome) = true := by decide +kernel
    rw [h] at hok
    exact ⟨.inl hok, fun h => by cases h⟩
  mixes _ _ := by
    constructor
    · intro relation left right hn
      obtain ⟨rfl, rfl, rfl⟩ : relation = .greater ∧ left = .dice ⟨1, 6, false⟩ none none
          ∧ right = .number 3.0 := by
        simpa [maybeAnother, Node.subterms, Node.subtermsAll] using hn
      rfl
    · intro condition ifTrue ifFalse hn _ e check he hcheck
      obtain ⟨rfl, rfl, rfl⟩ : condition
            = .comparison .greater (.dice ⟨1, 6, false⟩ none none) (.number 3.0)
          ∧ ifTrue = .only (.dice ⟨1, 2, false⟩ none none)
          ∧ ifFalse = .dice ⟨1, 3, false⟩ none none := by
        simpa [maybeAnother, Node.subterms, Node.subtermsAll] using hn
      have hok : ((((Node.conditional
            (.comparison .greater (.dice ⟨1, 6, false⟩ none none) (.number 3.0))
            (.only (.dice ⟨1, 2, false⟩ none none)) (.dice ⟨1, 3, false⟩ none none)).evaluate
              ({ rate := some 0, mixing := .exact } : Settings ℚ) {}).toOption.any fun e =>
          (((Node.comparison .greater (.dice ⟨1, 6, false⟩ none none) (.number 3.0)).evaluate
            ({ rate := some 0, mixing := .exact } : Settings ℚ) {}).toOption.bind
              (·.check?)).any fun check => (Mixing.commonTotal? check.total
                (e.branches.map fun branch => branch.2.total)).isSome)) = true := by
        decide +kernel
      rw [he, hcheck] at hok
      exact hok

set_option maxRecDepth 4000 in
theorem evaluateFormula_rate_zero_countedAgain :
    (∃ e' e : Evaluation ℚ, Formula.ofText "d6>=4?#d_1#:0" = .ok countedAgain
        ∧ countedAgain.root.evaluateFormula
            { registry := countedAgain.registry, rate := some (0 : ℚ) } = .ok e'
        ∧ countedAgain.root.evaluateFormula { registry := countedAgain.registry } = .ok e
        ∧ e'.criticalChance? = some 0 ∧ ∀ v, e'.distribution.weightOf v / e'.distribution.total
            = e.distribution.weightOf v / e.distribution.total)
      ∧ ∃ e' e : Evaluation ℚ,
        maybeAnother.evaluateFormula { rate := some (0 : ℚ), mixing := .exact } = .ok e'
        ∧ maybeAnother.evaluateFormula { mixing := .exact } = .ok e
        ∧ e'.criticalChance? = some 0 ∧ e'.distribution.total = 3600 ∧ e.distribution.total = 18
        ∧ ∀ v, e'.distribution.weightOf v / e'.distribution.total
            = e.distribution.weightOf v / e.distribution.total := by
  have hcounted : ((countedAgain.root.evaluateFormula
      ({ registry := countedAgain.registry, rate := some 0 } : Settings ℚ)).toOption.bind some).any
        (fun e => e.criticalChance?.isSome) = true := by decide +kernel
  have hcounted' : ((countedAgain.root.evaluateFormula ({ registry := countedAgain.registry } :
      Settings ℚ)).toOption.bind some).any (fun _ => true) = true := by decide +kernel
  have hmaybe : ((maybeAnother.evaluateFormula ({ rate := some 0, mixing := .exact } :
      Settings ℚ)).toOption.bind some).any (fun e => e.criticalChance?.isSome
        && decide (e.distribution.total = 3600)) = true := by decide +kernel
  have hmaybe' : ((maybeAnother.evaluateFormula
      ({ mixing := .exact } : Settings ℚ)).toOption.bind some).any
        (fun e => decide (e.distribution.total = 18)) = true := by decide +kernel
  constructor
  · obtain ⟨e', _, he', hsome, hchance⟩ := exists_of_any hcounted
    obtain ⟨e, _, he, hsome', -⟩ := exists_of_any hcounted'
    cases hsome
    cases hsome'
    obtain ⟨hzero, -, hshares⟩ := evaluateFormula_rate_zero rfl harmlessAtZero_countedAgain he' he
    obtain ⟨p, hp⟩ := Option.isSome_iff_exists.1 hchance
    exact ⟨e', e, ofText_countedAgain, he', he, hp.trans (congrArg some (hzero p hp)), hshares⟩
  · obtain ⟨e', _, he', hsome, hvalues⟩ := exists_of_any hmaybe
    obtain ⟨e, _, he, hsome', htotal⟩ := exists_of_any hmaybe'
    cases hsome
    cases hsome'
    obtain ⟨hchance, htotal'⟩ := Bool.and_eq_true_iff.1 hvalues
    obtain ⟨hzero, -, hshares⟩ := evaluateFormula_rate_zero rfl harmlessAtZero_maybeAnother he' he
    obtain ⟨p, hp⟩ := Option.isSome_iff_exists.1 hchance
    exact ⟨e', e, he', he, hp.trans (congrArg some (hzero p hp)), of_decide_eq_true htotal',
      of_decide_eq_true htotal, hshares⟩

/-- `D20+(d6>3?[5]:0)`: the critical die stands beside a conditional that asks for critical hits. -/
def besideConditional : Formula where
  root := .binary .add (.dice ⟨1, 20, true⟩ none none) (.group (.conditional
    (.comparison .greater (.dice ⟨1, 6, false⟩ none none) (.number 3.0)) (.only (.number 5.0))
    (.number 0.0)))
  registry := []

set_option maxRecDepth 4000 in
theorem ofText_besideConditional : Formula.ofText "D20+(d6>3?[5]:0)" = .ok besideConditional := by
  have htokens : tokenize "D20+(d6>3?[5]:0)" = .ok [⟨.dice ⟨1, 20, true⟩, 0⟩,
      ⟨.symbol .plus, 3⟩, ⟨.symbol .leftParen, 4⟩, ⟨.dice ⟨1, 6, false⟩, 5⟩,
      ⟨.relation .greater, 7⟩, ⟨.number 3.0, 8⟩, ⟨.symbol .question, 9⟩,
      ⟨.symbol .leftBracket, 10⟩, ⟨.number 5.0, 11⟩,
      ⟨.symbol .rightBracket, 12⟩, ⟨.symbol .colon, 13⟩, ⟨.number 0.0, 14⟩,
      ⟨.symbol .rightParen, 15⟩] := by
    decide +kernel
  rw [Formula.ofText, htokens]
  rfl

set_option maxRecDepth 4000 in
/-- Read as a critical hit, the conditional is a miss or no critical hit after all; read without
critical faces, it is a critical hit.  The difference is taken for critical rolls, one in nine. -/
theorem criticalChance_besideConditional :
    ∃ e' e : Evaluation ℚ, Formula.ofText "D20+(d6>3?[5]:0)" = .ok besideConditional
      ∧ besideConditional.root.evaluateFormula { rate := some (0 : ℚ) } = .ok e'
      ∧ besideConditional.root.evaluateFormula ({} : Settings ℚ) = .ok e
      ∧ e'.criticalChance? = some (1 / 9)
      ∧ e'.distribution.weightOf 1 / e'.distribution.total = 1 / 15
      ∧ e.distribution.weightOf 1 / e.distribution.total = 1 / 20 := by
  have hzero : ((besideConditional.root.evaluateFormula ({ rate := some 0 } :
      Settings ℚ)).toOption.bind some).any (fun e => decide (e.criticalChance? = some (1 / 9)
        ∧ e.distribution.weightOf 1 / e.distribution.total = 1 / 15)) = true := by decide +kernel
  have hoff : ((besideConditional.root.evaluateFormula ({} : Settings ℚ)).toOption.bind some).any
      (fun e => decide (e.distribution.weightOf 1 / e.distribution.total = 1 / 20)) = true := by
    decide +kernel
  obtain ⟨e', _, he', hsome, hvalues⟩ := exists_of_any hzero
  obtain ⟨e, _, he, hsome', hvalue⟩ := exists_of_any hoff
  cases hsome
  cases hsome'
  obtain ⟨hchance, hshare⟩ := of_decide_eq_true hvalues
  exact ⟨e', e, ofText_besideConditional, he', he, hchance, hshare, of_decide_eq_true hvalue⟩

/-- `2d6>=7?#d_1#:0`: two dice reach `7`, the threshold of one of them, with their sum, and every
hit is critical. -/
example : ((Node.conditional
    (.comparison .greaterEqual (.dice ⟨2, 6, false⟩ (some 1) none) (.number 7.0))
    (.double (.reference 1 false)) (.number 0.0)).evaluateFormula
      ({ registry := [⟨2, 6, false⟩], rate := some 0 } : Settings ℚ)).toOption.bind
        Evaluation.criticalChance? = some (7 / 12) := by
  decide +kernel

/-- `D6+(d6>3?[d5]:0)>=5` with exact mixing: all rolls are counted in `180`, those without critical
faces in `36`. -/
example : ((Node.comparison .greaterEqual (.binary .add (.dice ⟨1, 6, true⟩ none none)
    (.group (.conditional (.comparison .greater (.dice ⟨1, 6, false⟩ none none) (.number 3.0))
      (.only (.dice ⟨1, 5, false⟩ none none)) (.number 0.0)))) (.number 5.0)).evaluateFormula
        ({ rate := some 0, mixing := .exact } : Settings ℚ)).toOption.bind
          Evaluation.criticalChance? = some (4 / 15) := by
  decide +kernel

end DiceOdds
