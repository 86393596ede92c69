import DiceOdds.Proofs.Mixing.Crowded
import DiceOdds.Proofs.Mixing.Divides
import DiceOdds.Proofs.Rate.Shares
import DiceOdds.Proofs.Safety.Shape

/-!
# Formulas whose dice are rolled come to something

Every operation on values keeps its total positive: totals of independent values multiply, and
whatever changes values only leaves them as they are.  Two things may still leave nothing at all.
A reading without critical faces has no roll of a die that has no other faces; and a conditional
whose branches are crowded may lose all of them to rounding, unless exact mixing has found a common
total for them (`Node.Vanishes`).

## Why the condition is about one conditional at a time

A conditional mixes the results of its branches, whatever they are.  As long as each branch comes to
something, only this one mixture can lose it, so it is enough that no single conditional does.
-/

namespace DiceOdds

variable {s : Settings ℚ} {ctx : Context}

/-! ## 1. Dice -/

theorem Distribution.total_sumOfCopies {d r : Distribution ℚ} {n : ℕ} (hd : d.Nonneg)
    (h : d.sumOfCopies n = .ok r) : r.total = d.total ^ n := by
  have hsum := sumOver_sumOfCopies hd h fun _ => 1
  rw [← total_eq_sumOver, sumOverAll_one, List.map_replicate, List.prod_replicate] at hsum
  exact hsum

namespace Pool

theorem followed_ones (again : ℕ → Bool) (n : ℕ) :
    ∃ m, followed again (List.replicate (n + 1) 1) = List.replicate (m + 1) 1 := by
  induction n with
  | zero => exact ⟨0, by simp [followed]⟩
  | succ n ih =>
    obtain ⟨m, hm⟩ := ih
    rw [List.replicate_succ, followed]
    split
    · exact ⟨m + 1, by rw [hm, ← List.replicate_succ]⟩
    · exact ⟨0, rfl⟩

/-- A die that shows nothing but ones decides with a one. -/
theorem decidingFace_ones (p : Pool) (n : ℕ) : p.decidingFace (List.replicate (n + 1) 1) = 1 := by
  unfold decidingFace
  split
  · rfl
  · next range _ _ =>
    obtain ⟨m, hm⟩ := followed_ones range.contains n
    rw [finalFace, hm, List.replicate_succ', List.getLastD_concat]
  · rfl

theorem exists_facesPerDie (p : Pool) : ∃ n, p.facesPerDie = n + 1 := by
  unfold facesPerDie
  split
  · exact ⟨0, rfl⟩
  · exact ⟨_, rfl⟩
  · exact ⟨_, rfl⟩

/-- A die may always show nothing but ones. -/
theorem exists_roll_one {p : Pool} (h : p.dice.sides ≠ 0) :
    ∃ roll ∈ p.dieRolls, p.decidingFace roll = 1 := by
  obtain ⟨n, hn⟩ := p.exists_facesPerDie
  refine ⟨List.replicate (n + 1) 1, mem_dieRolls.2 ⟨by rw [List.length_replicate, hn], ?_⟩,
    p.decidingFace_ones n⟩
  intro face hface
  obtain rfl := List.eq_of_mem_replicate hface
  have hsides : p.dice.sides.toNat ≠ 0 := fun hzero => h (UInt32.toNat_inj.1 hzero)
  omega

end Pool

theorem Settings.total_die_pos {p : Pool} (hsides : p.dice.sides ≠ 0)
    (hone : s.admits ctx p.dice 1 = true) {die : Distribution ℚ}
    (h : s.die ctx p.dice p.modifier = .ok die) : 0 < die.total := by
  obtain ⟨roll, hroll, hface⟩ := Pool.exists_roll_one hsides
  refine (counts_die h).total_pos_iff.2 (List.ne_nil_of_mem (List.mem_map_of_mem
    (List.mem_filter.2 ⟨hroll, ?_⟩)))
  rwa [hface]

/-! ## 2. Shares of a check -/

/-- No share is negative. -/
structure CriticalSplit.Nonneg (shares : CriticalSplit ℚ) : Prop where
  normalHit : 0 ≤ shares.normalHit
  criticalHit : 0 ≤ shares.criticalHit
  miss : 0 ≤ shares.miss

theorem CriticalSplit.nonneg_ofWeights {normal critical miss : ℚ} (hn : 0 ≤ normal)
    (hc : 0 ≤ critical) (hm : 0 ≤ miss) : (ofWeights normal critical miss).Nonneg := by
  have htotal : 0 ≤ normal + critical + miss := add_nonneg (add_nonneg hn hc) hm
  rw [ofWeights_eq]
  exact ⟨div_nonneg hn htotal, div_nonneg hc htotal, div_nonneg hm htotal⟩

theorem larger_zero_nonneg (w : ℚ) : 0 ≤ Weight.larger w 0 := by
  rcases le_total 0 w with h | h
  · rwa [larger_zero h]
  · rw [larger_zero_of_nonpos h]

/-- Whatever way a check is split, no share is negative. -/
theorem nonneg_splitCheck {relation : Relation} {left right : Node} {check : Check ℚ}
    {shares : CriticalSplit ℚ} (hs : 0 ≤ check.success) (hf : 0 ≤ check.failure)
    (h : splitCheck s relation left right ctx check = .ok (some shares)) : shares.Nonneg := by
  unfold splitCheck at h
  split at h
  · next rate left' right' _ _ =>
    rcases poolSplit?_cases relation left' with hnone | ⟨d, hsome⟩
    · rw [hnone] at h
      obtain ⟨_, hrestricted, h⟩ := bind_eq_ok.1 h
      cases pure_eq_ok.1 h
      obtain ⟨lowLeft, lowRight, low, hlowl, hlowr, hlow, rfl⟩ := restrictedSplit_eq_ok hrestricted
      have hlowSuccess := (Distribution.nonneg_compare (Node.positive_walk left' hlowl).nonneg
        (Node.positive_walk right' hlowr).nonneg hlow).1
      exact CriticalSplit.nonneg_ofWeights hlowSuccess (larger_zero_nonneg _) hf
    · rw [hsome] at h
      cases h
      exact CriticalSplit.nonneg_ofWeights (sub_nonneg.2 (min_le_right _ _))
        (le_min (mul_nonneg (add_nonneg hs hf) (atLeastOneCritical_nonneg rate d)) hs) hf
  · cases h

/-- The branches of a conditional are taken with probabilities that are not negative. -/
theorem Node.nonneg_branches {condition ifTrue ifFalse : Node} {e : Evaluation ℚ}
    (he : (conditional condition ifTrue ifFalse).evaluate s ctx = .ok e) :
    ∀ branch ∈ e.branches, 0 ≤ branch.1 := by
  obtain ⟨check, hcheck, ⟨shares, normalHit, criticalHit, miss, hshares, -, -, -, rfl⟩
    | ⟨yes, no, -, -, -, rfl⟩⟩ := walk_conditional_eq_ok he
  · obtain ⟨relation, left, right, l, r, full, -, hl, hr, hfull, hcase⟩ :=
      exists_compare_of_walk hcheck
    split at hcase
    · obtain ⟨critical, hsplit, rfl⟩ := hcase
      obtain rfl : critical = some shares := hshares
      obtain ⟨hs, hf⟩ := Distribution.nonneg_compare (positive_walk left hl).nonneg
        (positive_walk right hr).nonneg hfull
      obtain ⟨hn, hc, hm⟩ := nonneg_splitCheck hs hf hsplit
      simp [Evaluation.branches, CriticalResult.ofBranches, hn, hc, hm]
    · rw [hcase, Check.unsplit_compare hfull] at hshares
      cases hshares
  · obtain ⟨hs, hf⟩ := nonneg_of_walk hcheck
    have hle : check.success / check.total ≤ 1 :=
      div_le_one_of_le₀ (le_add_of_nonneg_right hf) (add_nonneg hs hf)
    simp only [Evaluation.branches, ConditionalResult.ofBranches, Check.successProbability,
      Check.share_eq, List.mem_cons, List.not_mem_nil, or_false, forall_eq_or_imp, forall_eq]
    exact ⟨div_nonneg hs (add_nonneg hs hf), sub_nonneg.2 hle⟩

/-! ## 3. Mixtures over a common total -/

theorem Mixing.le_lcm {totals : List ℕ} (hone : ∀ t ∈ totals, 1 ≤ t) {t : ℕ} (ht : t ∈ totals) :
    t ≤ (totals : Multiset ℕ).lcm := by
  refine Nat.le_of_dvd (Nat.pos_of_ne_zero ?_) (Multiset.dvd_lcm (Multiset.mem_coe.2 ht))
  rw [Ne, Multiset.lcm_eq_zero_iff]
  exact fun hzero => absurd (hone 0 (Multiset.mem_coe.1 hzero)) (by norm_num)

theorem Distribution.size_le_total {d : Distribution ℚ} (hwhole : d.Whole) (hpos : d.Positive) :
    d.size ≤ d.total := by
  have hone : ∀ w ∈ d.toList.map Prod.snd, 1 ≤ w := by
    intro w hw
    obtain ⟨p, hp, rfl⟩ := List.mem_map.1 hw
    obtain ⟨n, hn⟩ := hwhole.mem hp
    have hp := hpos p hp
    rw [hn] at hp ⊢
    exact_mod_cast hp
  have hle := List.card_nsmul_le_sum _ 1 hone
  have hsize : d.size = d.toList.length := Std.TreeMap.length_toList.symm
  rwa [List.length_map, nsmul_eq_mul, mul_one, ← hsize, ← total_eq_sum] at hle

/-- Hits and misses in whole cases: one of the shares has half a case. -/
theorem Check.RefinedBy.exists_half {check : Check ℚ} {shares : CriticalSplit ℚ}
    (h : check.RefinedBy shares) (hs : ∃ n : ℕ, check.success = n)
    (hf : ∃ n : ℕ, check.failure = n) (hone : 1 ≤ check.total) :
    ∃ p ∈ [shares.normalHit, shares.criticalHit, shares.miss], 1 ≤ 2 * (check.total * p) := by
  obtain ⟨a, ha⟩ := hs
  obtain ⟨b, hb⟩ := hf
  have hne : check.total ≠ 0 := by linarith
  have hhits : check.total * shares.normalHit + check.total * shares.criticalHit = a := by
    rw [← mul_add, h.1, successProbability, share_eq, mul_div_cancel₀ _ hne, ha]
  have hmiss : check.total * shares.miss = b := by
    rw [h.2, failureProbability, share_eq, mul_div_cancel₀ _ hne, hb]
  have htotal : check.total = a + b := by rw [total, ha, hb]
  rcases Nat.eq_zero_or_pos b with rfl | hpos
  · rcases le_total (1 / 2) (check.total * shares.normalHit) with hhalf | hhalf
    · exact ⟨shares.normalHit, by simp, by linarith⟩
    · refine ⟨shares.criticalHit, by simp, ?_⟩
      rw [Nat.cast_zero, add_zero] at htotal
      linarith
  · have hb : (1 : ℚ) ≤ b := by exact_mod_cast hpos
    exact ⟨shares.miss, by simp, by linarith⟩

theorem exists_half_splitCheck {relation : Relation} {left right : Node} {check : Check ℚ}
    {shares : CriticalSplit ℚ} (hs : ∃ n : ℕ, check.success = n) (hf : ∃ n : ℕ, check.failure = n)
    (hone : 1 ≤ check.total)
    (h : splitCheck s relation left right ctx check = .ok (some shares)) :
    ∃ p ∈ [shares.normalHit, shares.criticalHit, shares.miss], 1 ≤ 2 * (check.total * p) := by
  unfold splitCheck at h
  split at h
  · next rate left' right' _ _ =>
    split at h
    · next split hpool =>
      cases h
      exact (refinedBy_of_poolSplit? hpool).exists_half hs hf hone
    · obtain ⟨_, hrestricted, h⟩ := bind_eq_ok.1 h
      cases pure_eq_ok.1 h
      obtain ⟨lowLeft, lowRight, low, hlowl, hlowr, hlow, rfl⟩ := restrictedSplit_eq_ok hrestricted
      rcases le_total low.success check.success with hle | hle
      · exact (Check.refinedBy_of_le hle).exists_half hs hf hone
      · -- hits and misses fill the whole without critical hits, so one of the two fills half of it
        have hlarger := larger_zero_of_nonpos (sub_nonpos.2 hle)
        have hpos : low.success + check.failure ≠ 0 := by
          have htotal : check.total = check.success + check.failure := rfl
          linarith
        rw [hlarger, CriticalSplit.ofWeights_eq]
        simp only [add_zero]
        have hsum : low.success / (low.success + check.failure)
            + check.failure / (low.success + check.failure) = 1 := by
          rw [← add_div, div_self hpos]
        rcases le_total (1 / 2) (low.success / (low.success + check.failure)) with hhalf | hhalf
        · refine ⟨low.success / (low.success + check.failure), by simp, ?_⟩
          nlinarith
        · refine ⟨check.failure / (low.success + check.failure), by simp, ?_⟩
          nlinarith
  · cases h

namespace Node

variable {condition ifTrue ifFalse : Node} {check : Check ℚ} {e : Evaluation ℚ}

/-- Some branch is given half a unit of the weight of the check. -/
theorem exists_branch_half (hctx : ctx.pinned = none)
    (hcheck : condition.evaluate s ctx = .ok (.check check)) (hone : 1 ≤ check.total)
    (he : (conditional condition ifTrue ifFalse).evaluate s ctx = .ok e) :
    ∃ branch ∈ e.branches, 1 ≤ 2 * (check.total * branch.1) := by
  obtain ⟨hs, hf⟩ := nonneg_of_walk hcheck
  obtain ⟨hsuccess, hfailure⟩ := check.exists_natCast hs hf (whole_walk hctx condition hcheck)
  obtain ⟨check', hcheck', ⟨shares, normalHit, criticalHit, miss, hshares, -, -, -, rfl⟩
    | ⟨yes, no, -, -, -, rfl⟩⟩ := walk_conditional_eq_ok he
  all_goals
    obtain rfl := Evaluation.check.inj (Except.ok.inj (hcheck.symm.trans hcheck'))
  · obtain ⟨relation, left, right, l, r, full, -, -, -, hfull, hcase⟩ :=
      exists_compare_of_walk hcheck
    split at hcase
    · obtain ⟨critical, hsplit, rfl⟩ := hcase
      obtain rfl : critical = some shares := hshares
      obtain ⟨p, hp, hhalf⟩ := exists_half_splitCheck hsuccess hfailure hone hsplit
      simp only [List.mem_cons, List.not_mem_nil, or_false] at hp
      simp only [Evaluation.branches, CriticalResult.ofBranches]
      rcases hp with rfl | rfl | rfl
      · exact ⟨(shares.normalHit, normalHit.distribution), by simp, hhalf⟩
      · exact ⟨(shares.criticalHit, criticalHit.distribution), by simp, hhalf⟩
      · exact ⟨(shares.miss, miss.distribution), by simp, hhalf⟩
    · rw [hcase, Check.unsplit_compare hfull] at hshares
      cases hshares
  · -- one of the two answers has half of the cases, and there is at least one case
    rcases le_total (1 / 2) check.successProbability with hhalf | hhalf
    · refine ⟨(check.successProbability, yes.distribution), by simp [Evaluation.branches,
        ConditionalResult.ofBranches], ?_⟩
      nlinarith
    · refine ⟨(1 - check.successProbability, no.distribution), by simp [Evaluation.branches,
        ConditionalResult.ofBranches], ?_⟩
      nlinarith

/-- **Over a common total no mixture is crowded**: the smallest weight of a branch still counts. -/
theorem not_crowded_of_commonTotal (hctx : ctx.pinned = none) (hexact : s.mixing = .exact)
    (hcheck : condition.evaluate s ctx = .ok (.check check))
    (he : (conditional condition ifTrue ifFalse).evaluate s ctx = .ok e) {common : ℕ}
    (hcommon : Mixing.commonTotal? check.total (e.branches.map fun branch => branch.2.total)
      = some common) :
    ¬ Distribution.Crowded
      (s.mixing.targetTotal check.total (e.branches.map fun branch => branch.2.total))
      e.branches := by
  obtain ⟨base, totals, hbase, htotals, hone, -, hbounds, rfl, -⟩ :=
    Mixing.of_commonTotal? hcommon
  have hpositive : 1 ≤ check.total := by
    rw [hbase]
    exact_mod_cast hone
  obtain ⟨branch, hbranch, hhalf⟩ := exists_branch_half hctx hcheck hpositive he
  obtain ⟨hwhole, hpos⟩ := forall_branches (P := fun d => d.Whole ∧ d.Positive) he
    (fun critical e he =>
      have hcritical : (ctx.critical critical).pinned = none := hctx
      ⟨whole_walk hcritical ifTrue he, positive_walk ifTrue he⟩)
    (fun e he => ⟨whole_walk hctx ifFalse he, positive_walk ifFalse he⟩) branch hbranch
  have htotal : branch.2.total ≤ ((totals : Multiset ℕ).lcm : ℚ) := by
    have hmem : branch.2.total ∈ e.branches.map fun branch => branch.2.total :=
      List.mem_map_of_mem hbranch
    rw [htotals] at hmem
    obtain ⟨n, hn, htotal⟩ := List.mem_map.1 hmem
    rw [← htotal]
    exact Nat.cast_le.2 (Mixing.le_lcm (fun t ht => (hbounds t ht).1) hn)
  intro hcrowded
  have hsize := hcrowded branch hbranch
  rw [hexact, Mixing.targetTotal, hcommon] at hsize
  dsimp only at hsize
  rw [Nat.cast_mul, ← hbase] at hsize
  have hle := Distribution.size_le_total hwhole hpos
  have hlcm : (0 : ℚ) ≤ (totals : Multiset ℕ).lcm := Nat.cast_nonneg _
  nlinarith

end Node

/-! ## 4. The walk -/

/-- A conditional that comes to nothing although its branches do not: none of them is given half a
unit for each of its outcomes, and there is no total over which their weights are exact. -/
def Node.Vanishes (s : Settings ℚ) (ctx : Context) (node : Node) : Prop :=
  ∃ condition ifTrue ifFalse check e, node = conditional condition ifTrue ifFalse
    ∧ condition.evaluate s ctx = .ok (.check check) ∧ node.evaluate s ctx = .ok e
    ∧ e.distribution.toList = []
    ∧ Distribution.Crowded
        (s.mixing.targetTotal check.total (e.branches.map fun branch => branch.2.total)) e.branches
    ∧ (s.mixing = .exact →
        Mixing.commonTotal? check.total (e.branches.map fun branch => branch.2.total) = none)

namespace Node

/-- What a reading needs so that nothing gets lost in it: all dice can show a one, and no
conditional vanishes, on a critical hit or not. -/
structure Lasts (s : Settings ℚ) (ctx : Context) (node : Node) : Prop where
  dice : ∀ n ∈ node.subterms, ∀ d, n.literal? = some d → d.sides ≠ 0 ∧ s.admits ctx d 1 = true
  kept : ∀ n ∈ node.subterms, ∀ critical, ¬ n.Vanishes s (ctx.critical critical)

theorem Lasts.of_mem {node n : Node} (h : node.Lasts s ctx) (hn : n ∈ node.subterms) :
    n.Lasts s ctx where
  dice m hm := h.dice m (subterms_subset_of_mem hn hm)
  kept m hm := h.kept m (subterms_subset_of_mem hn hm)

theorem Lasts.part {node part : Node} (h : node.Lasts s ctx) (hpart : part ∈ node.parts) :
    part.Lasts s ctx :=
  h.of_mem (subterms_subset_of_mem_parts hpart (mem_subterms_self part))

theorem Lasts.critical {node : Node} (h : node.Lasts s ctx) (branch : Bool) :
    node.Lasts s (ctx.critical branch) where
  dice := h.dice
  kept := h.kept

theorem Lasts.total_die?_pos {node : Node} (h : node.Lasts s ctx) (hctx : ctx.pinned = none)
    {die : Distribution ℚ} {n : ℕ} (hdie : node.die? s ctx = .ok (some (die, n))) :
    die.Nonneg ∧ 0 < die.total := by
  cases hpool : node.strippedPool? with
  | none =>
    rw [die?_of_strippedPool?_eq_none hpool] at hdie
    cases hdie
  | some p =>
    obtain ⟨die', hsome, hd⟩ := die?_eq_ok hctx hpool hdie
    cases hsome
    have hliteral : node.stripGroups.literal? = some p.dice := by
      unfold strippedPool? at hpool
      cases hstrip : node.stripGroups with
      | dice d id modifier =>
        rw [hstrip] at hpool
        cases hpool
        rfl
      | _ =>
        rw [hstrip] at hpool
        cases hpool
    obtain ⟨hsides, hone⟩ := h.dice _ node.stripGroups_mem_subterms _ hliteral
    exact ⟨(counts_die hd).nonneg, Settings.total_die_pos hsides hone hd⟩

theorem Lasts.total_onlyDie?_pos {kind : KeepKind} {count : UInt32} {items : List Node}
    (h : (keep kind count items).Lasts s ctx) (hctx : ctx.pinned = none) {die : Distribution ℚ}
    {n : ℕ} (hdie : onlyDie? s ctx items = .ok (some (die, n))) : die.Nonneg ∧ 0 < die.total := by
  unfold onlyDie? at hdie
  split at hdie
  · next item =>
    have hitem : item.Lasts s ctx := h.part (List.mem_singleton_self _)
    exact hitem.total_die?_pos hctx hdie
  · cases hdie

theorem total_combine_pos {operation : Operation} {l r : Evaluation ℚ} {part : Unit → String}
    {d : Distribution ℚ} (hl : l.distribution.Nonneg ∧ 0 < l.distribution.total)
    (hr : r.distribution.Nonneg ∧ 0 < r.distribution.total)
    (h : l.combine operation r part = .ok d) : 0 < d.total := by
  rcases evaluationCombine_eq_ok h with h | ⟨_, h⟩ | ⟨_, h⟩
  · rw [Distribution.total_combine hl.1 hr.1 h]
    exact mul_pos hl.2 hr.2
  · rw [Distribution.total_tryMap hr.1 h]
    exact hr.2
  · rw [Distribution.total_tryMap hl.1 h]
    exact hl.2

/-- Whatever the node comes to, it comes to something. -/
def Yields (s : Settings ℚ) (ctx : Context) (node : Node) : Prop :=
  ∀ e, node.evaluate s ctx = .ok e → e.distribution.Nonneg ∧ 0 < e.distribution.total

theorem Lasts.total_dice_pos {d : Dice} {id : Option ℕ} {modifier : Option Modifier}
    {e : Evaluation ℚ} (h : (Node.dice d id modifier).Lasts s ctx) (hctx : ctx.pinned = none)
    (he : (Node.dice d id modifier).evaluate s ctx = .ok e) : 0 < e.distribution.total := by
  obtain ⟨x, hx, rfl⟩ := walk_dice_eq_ok (pinnedValue?_of_unpinned hctx _) he
  obtain ⟨die, hdie, hsum⟩ := roll_eq_ok hctx hx
  obtain ⟨hsides, hone⟩ := h.dice _ (mem_subterms_self _) d rfl
  have hcounts := counts_die (p := ⟨d, modifier⟩) hdie
  have hpos := Settings.total_die_pos (p := ⟨d, modifier⟩) hsides hone hdie
  have htotal := Distribution.total_sumOfCopies hcounts.nonneg hsum
  exact htotal.symm ▸ pow_pos hpos _

/-- What is kept has as many combinations as all values together. -/
theorem Lasts.total_keep_pos {kind : KeepKind} {count : UInt32} {items : List Node}
    {e : Evaluation ℚ} (h : (keep kind count items).Lasts s ctx) (hctx : ctx.pinned = none)
    (hitem : ∀ item ∈ items, item.Yields s ctx)
    (he : (keep kind count items).evaluate s ctx = .ok e) : 0 < e.distribution.total := by
  obtain ⟨only?, values, d, honly, hvalues, hd, rfl⟩ :=
    walk_keep_eq_ok (pinnedValue?_of_unpinned hctx _) he
  have hpos : ∀ d ∈ values, d.Nonneg ∧ 0 < d.total := by
    intro d hd
    split at hvalues
    · next die copies =>
      subst hvalues
      obtain rfl := List.eq_of_mem_replicate hd
      exact h.total_onlyDie?_pos hctx honly
    · obtain ⟨item, hmem, e, he, rfl⟩ := exists_of_mem_walkAll hvalues hd
      exact hitem item hmem e he
  have htotal := Distribution.total_keep (fun d hd => (hpos d hd).1) hd
  refine htotal.symm ▸ List.prod_pos fun t ht => ?_
  obtain ⟨d, hd, rfl⟩ := List.mem_map.1 ht
  exact (hpos d hd).2

/-- A comparison has as many cases as its sides have pairs of outcomes. -/
theorem total_comparison_pos {relation : Relation} {left right : Node} {e : Evaluation ℚ}
    (hleft : left.Yields s ctx) (hright : right.Yields s ctx)
    (he : (comparison relation left right).evaluate s ctx = .ok e) :
    0 < e.distribution.total := by
  obtain ⟨l, r, check, critical, hl, hr, hcompare, rfl⟩ := walk_comparison_any_eq_ok he
  obtain ⟨hln, hlt⟩ := hleft l hl
  obtain ⟨hrn, hrt⟩ := hright r hr
  obtain ⟨hs, hf⟩ := Distribution.nonneg_compare hln hrn hcompare
  have htotal : 0 < check.total := by
    rw [Distribution.total_compare hcompare]
    exact mul_pos hlt hrt
  exact htotal.trans_eq (Distribution.total_bernoulli hs hf).symm

/-- A conditional whose branches come to something does so itself, as it does not vanish. -/
theorem Lasts.total_conditional_pos {condition ifTrue ifFalse : Node} {e : Evaluation ℚ}
    (h : (conditional condition ifTrue ifFalse).Lasts s ctx) (hctx : ctx.pinned = none)
    (htrue : ∀ critical, ifTrue.Yields s (ctx.critical critical)) (hfalse : ifFalse.Yields s ctx)
    (he : (conditional condition ifTrue ifFalse).evaluate s ctx = .ok e) :
    0 < e.distribution.total := by
  obtain ⟨check, hcheck, -⟩ := walk_conditional_eq_ok he
  have hbranches : ∀ branch ∈ e.branches, branch.2.Nonneg ∧ 0 < branch.2.total :=
    forall_branches (P := fun d => d.Nonneg ∧ 0 < d.total) he htrue hfalse
  obtain ⟨hs, hf⟩ := nonneg_of_walk hcheck
  by_contra hzero
  have hempty : e.distribution.toList = [] := by
    by_contra hne
    exact hzero (Distribution.Positive.total_pos_of_ne_nil (positive_walk _ he) hne)
  have hcrowded : Distribution.Crowded
      (s.mixing.targetTotal check.total (e.branches.map fun branch => branch.2.total))
      e.branches := by
    by_contra hroom
    refine hzero ?_
    rw [distribution_conditional he hcheck]
    exact Distribution.total_mix_pos (targetTotal_nonneg _ (add_nonneg hs hf) _)
      (fun branch hb => ⟨nonneg_branches he branch hb, hbranches branch hb⟩) hroom
  refine h.kept _ (mem_subterms_self _) ctx.criticalBranch
    ⟨condition, ifTrue, ifFalse, check, e, rfl, hcheck, he, hempty, hcrowded, fun hexact => ?_⟩
  exact Option.eq_none_iff_forall_ne_some.2 fun common hcommon =>
    not_crowded_of_commonTotal hctx hexact hcheck he hcommon hcrowded

/-- Limits move outcomes, and never drop one. -/
theorem Lasts.total_function_pos {name : FunctionName} {args : List Node} {e : Evaluation ℚ}
    (h : (function name args).Lasts s ctx) (hctx : ctx.pinned = none)
    (harg : ∀ arg ∈ args, arg.Yields s ctx)
    (he : (function name args).evaluate s ctx = .ok e) : 0 < e.distribution.total := by
  obtain ⟨target, threshold, values, bound, clamped?, rfl, -, -, hclamped, he⟩ :=
    walk_function_any_eq_ok he
  cases clamped? with
  | some clamped =>
    obtain rfl : e = .plain clamped := he
    obtain ⟨-, hnone⟩ | ⟨-, found, hfound, ⟨-, hnone⟩ | ⟨die, n, sum, rfl, hsum, hsome⟩⟩ :=
      clampEach_eq_ok hctx hclamped
    · cases hnone
    · cases hnone
    · cases hsome
      have htarget : target.Lasts s ctx := h.part (by simp [parts])
      obtain ⟨hnonneg, hpos⟩ := htarget.total_die?_pos hctx hfound
      have htotal := Distribution.total_sumOfCopies
        (Distribution.nonneg_map die (name.clamp bound)) hsum
      rw [Distribution.total_map hnonneg] at htotal
      exact htotal.symm ▸ pow_pos hpos n
  | none =>
    obtain ⟨t, ht, rfl⟩ := he
    obtain ⟨hnonneg, hpos⟩ := harg target (by simp) t ht
    exact (Distribution.total_map hnonneg (name.clamp bound)).symm ▸ hpos

/-- **Where dice are rolled, everything comes to something**, if no conditional vanishes. -/
theorem total_evaluate_pos (hregistry : s.registry = []) {node : Node} {ctx : Context}
    (hctx : ctx.pinned = none) (h : node.Lasts s ctx) {e : Evaluation ℚ}
    (he : node.evaluate s ctx = .ok e) : 0 < e.distribution.total := by
  induction node using parts_induction generalizing ctx e with
  | h node ih =>
  have hbranch : ∀ part ∈ node.parts, ∀ critical, part.Yields s (ctx.critical critical) :=
    fun part hpart critical e he =>
      have hcritical : (ctx.critical critical).pinned = none := hctx
      ⟨(positive_walk part he).nonneg,
        ih part hpart hcritical ((h.part hpart).critical critical) he⟩
  have hpart : ∀ part ∈ node.parts, part.Yields s ctx := fun part hpart =>
    hbranch part hpart ctx.criticalBranch
  clear ih
  cases node with
  | number value =>
    obtain ⟨v, -, rfl⟩ := walk_number_eq_ok he
    exact (Distribution.total_point v).symm ▸ one_pos
  | dice d id modifier => exact h.total_dice_pos hctx he
  | reference id critical =>
    obtain ⟨x, hx, rfl⟩ := walk_reference_eq_ok he
    obtain ⟨d, hd, -⟩ := reference_eq_ok hctx hx
    rw [hregistry] at hd
    simp [Registry.get?] at hd
  | keep kind count items => exact h.total_keep_pos hctx hpart he
  | comparison relation left right =>
    exact total_comparison_pos (hpart left (by simp [parts])) (hpart right (by simp [parts])) he
  | conditional condition ifTrue ifFalse =>
    exact h.total_conditional_pos hctx (hbranch ifTrue (by simp [parts]))
      (hpart ifFalse (by simp [parts])) he
  | binary operation left right =>
    obtain ⟨l, r, d, part, hl, hr, hd, rfl⟩ := walk_binary_eq_ok he
    exact total_combine_pos (hpart left (by simp [parts]) l hl) (hpart right (by simp [parts]) r hr)
      hd
  | double inner =>
    obtain ⟨i, d, hi, rfl, hd⟩ := walk_double_eq_ok he
    obtain ⟨hnonneg, hpos⟩ := hpart inner (by simp [parts]) i hi
    split at hd
    · obtain ⟨part, hd⟩ := hd
      have htotal := Distribution.total_tryMap hnonneg hd
      exact htotal.symm ▸ hpos
    · rw [hd]
      exact hpos
  | switch normal critical =>
    obtain ⟨i, hi, rfl⟩ := walk_switch_eq_ok he
    split at hi
    · exact (hpart critical (by simp [parts]) i hi).2
    · exact (hpart normal (by simp [parts]) i hi).2
  | only inner =>
    have he := walk_only_eq_ok he
    split at he
    · obtain ⟨i, hi, rfl⟩ := he
      exact (hpart inner (by simp [parts]) i hi).2
    · rw [he]
      exact (Distribution.total_point 0).symm ▸ one_pos
  | function name args => exact h.total_function_pos hctx hpart he
  | group inner =>
    rw [evaluate, walk_group] at he
    exact (hpart inner (by simp [parts]) e he).2

end Node

end DiceOdds
