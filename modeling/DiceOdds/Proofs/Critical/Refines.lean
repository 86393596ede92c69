import DiceOdds.Proofs.Critical.Fewer

/-!
# When a split refines its check

The two kinds of hits of a split should make up the successes of the check, and its misses the
failures.

## Why the second reading must not succeed more often

What the second reading counts are the normal hits, and the critical ones are what is missing to
the successes of the check.  This works as long as the second reading succeeds at most as
often, and it does where a value is counted from its parts (`Node.below_walk`).  It need not where
the probability of a check is used as a number.  Then the weight of the second reading may exceed
the successes; no hit is called critical, and the normal hits are reported as more likely than the
check is (`Check.refinedBy_or_exceededBy`).
-/

namespace DiceOdds

variable {s : Settings ℚ} {ctx : Context}

/-! ## 1. What a split says about its check -/

/-- The hits of the split are the successes of the check, and its misses the failures. -/
def Check.RefinedBy (c : Check ℚ) (shares : CriticalSplit ℚ) : Prop :=
  shares.normalHit + shares.criticalHit = c.successProbability
    ∧ shares.miss = c.failureProbability

/-- No hit is critical, and normal hits are more likely than successes. -/
def Check.ExceededBy (c : Check ℚ) (shares : CriticalSplit ℚ) : Prop :=
  shares.criticalHit = 0 ∧ c.successProbability < shares.normalHit
    ∧ shares.miss < c.failureProbability

/-- Hits that make up the successes of a check. -/
theorem Check.refinedBy_ofWeights {c : Check ℚ} {normal critical : ℚ}
    (hsum : normal + critical = c.success) :
    c.RefinedBy (.ofWeights normal critical c.failure) := by
  have htotal : normal + critical + c.failure = c.total := by
    rw [hsum]
    rfl
  rw [RefinedBy, CriticalSplit.ofWeights_eq, htotal, successProbability, failureProbability,
    share_eq, share_eq, ← add_div, hsum]
  exact ⟨rfl, rfl⟩

theorem larger_zero_of_nonpos {w : ℚ} (h : w ≤ 0) : Weight.larger w 0 = 0 := by
  unfold Weight.larger
  have hlt : ¬ (0 : ℚ) < w := not_lt.2 h
  simp [hlt]

/-- A second reading that succeeds at most as often refines the check. -/
theorem Check.refinedBy_of_le {c : Check ℚ} {normal : ℚ} (hle : normal ≤ c.success) :
    c.RefinedBy (.ofWeights normal (Weight.larger (c.success - normal) 0) c.failure) := by
  rw [larger_zero (sub_nonneg.2 hle)]
  exact refinedBy_ofWeights (add_sub_cancel normal c.success)

/-- A second reading that succeeds more often exceeds the check, if the check can fail at all. -/
theorem Check.refinedBy_or_exceededBy {c : Check ℚ} (h : 0 < c.total) (hs : 0 ≤ c.success)
    (hf : 0 ≤ c.failure) (normal : ℚ) :
    let shares := CriticalSplit.ofWeights normal (Weight.larger (c.success - normal) 0) c.failure
    c.RefinedBy shares ∨ c.ExceededBy shares := by
  intro shares
  rcases le_or_gt normal c.success with hle | hlt
  · exact .inl (refinedBy_of_le hle)
  have hshares : shares = ⟨normal / (normal + c.failure), 0, c.failure / (normal + c.failure)⟩ := by
    have hcritical : Weight.larger (c.success - normal) 0 = 0 :=
      larger_zero_of_nonpos (sub_nonpos.2 hlt.le)
    simp only [shares, hcritical, CriticalSplit.ofWeights_eq, add_zero, zero_div]
  have htotal : c.total = c.success + c.failure := rfl
  have hpos : 0 < normal + c.failure := by linarith
  rcases hf.eq_or_lt with hzero | hf
  · -- a check that cannot fail succeeds with certainty, and so does the second reading
    left
    have hs' : c.success ≠ 0 := by
      rw [htotal, ← hzero, add_zero] at h
      exact h.ne'
    rw [RefinedBy, hshares, successProbability, failureProbability, share_eq, share_eq, htotal,
      ← hzero]
    have hn : normal ≠ 0 := (hs.trans_lt hlt).ne'
    simp [hn, hs']
  · right
    rw [ExceededBy, hshares, successProbability, failureProbability, share_eq, share_eq]
    refine ⟨rfl, ?_, ?_⟩
    · rw [div_lt_div_iff₀ h hpos, htotal]
      nlinarith
    · exact div_lt_div_of_pos_left hf h (by rw [htotal]; linarith)

/-! ## 2. Refining or exceeding -/

/-- Kept pools: critical rolls are hits as far as there are hits, and the other hits are normal. -/
theorem refinedBy_of_poolSplit? {rate : ℚ} {relation : Relation} {left : Node} {c : Check ℚ}
    {shares : CriticalSplit ℚ} (hpool : poolSplit? rate relation left c = some shares) :
    c.RefinedBy shares := by
  unfold poolSplit? at hpool
  split at hpool
  · obtain ⟨d, -, rfl⟩ := Option.map_eq_some_iff.1 hpool
    exact Check.refinedBy_ofWeights (sub_add_cancel _ _)
  · obtain ⟨d, -, rfl⟩ := Option.map_eq_some_iff.1 hpool
    exact Check.refinedBy_ofWeights (sub_add_cancel _ _)
  · cases hpool

/-- Marking the first dice of a check changes nothing but marks. -/
theorem withoutMarks_of_decidingSides? {left right left' right' : Node}
    (h : decidingSides? left right = some (left', right')) :
    left'.withoutMarks = left.withoutMarks ∧ right'.withoutMarks = right.withoutMarks := by
  unfold decidingSides? at h
  split at h
  · cases h
    exact ⟨rfl, rfl⟩
  · split at h
    · next marked hmarked =>
      cases h
      exact ⟨left.withoutMarks_markLeftmost? hmarked, rfl⟩
    · obtain ⟨marked, hmarked, h⟩ := Option.map_eq_some_iff.1 h
      cases h
      exact ⟨rfl, right.withoutMarks_markLeftmost? hmarked⟩

/-- What a check that has been split was made from. -/
theorem Node.walk_comparison_split {relation : Relation} {left right : Node} {check : Check ℚ}
    {shares : CriticalSplit ℚ}
    (he : (comparison relation left right).evaluate s ctx = .ok (.check check))
    (hsplit : check.critical = some shares) :
    ctx.pinned = none ∧ ctx.restrictCritical = false
      ∧ ∃ l r full, left.walk s (splitCheck s) ctx = .ok l ∧ right.walk s (splitCheck s) ctx = .ok r
        ∧ Check.compare relation l.distribution r.distribution = .ok full
        ∧ splitCheck s relation left right ctx full = .ok (some shares)
        ∧ check = { full with critical := some shares } := by
  obtain ⟨l, r, full, hl, hr, hfull, he⟩ := walk_comparison_eq_ok he
  split at he
  · next hcondition =>
    obtain ⟨critical, hcritical, he⟩ := he
    cases he
    obtain rfl : critical = some shares := hsplit
    simp only [Bool.and_eq_true, Option.isNone_iff_eq_none, Bool.not_eq_true'] at hcondition
    exact ⟨hcondition.1.2, hcondition.2, l, r, full, hl, hr, hfull, hcritical, rfl⟩
  · cases he
    rw [Check.unsplit_compare hfull] at hsplit
    cases hsplit

/-- **A split refines its check, or exceeds it.**  Where no part of the sides uses the probability
of a check as a number, hits are successes and misses are failures.  In general the only other
thing that can happen is that no hit is critical and the normal hits are more likely than the
successes. -/
theorem split_refines_or_exceeds {relation : Relation} {left right : Node} {check : Check ℚ}
    {shares : CriticalSplit ℚ}
    (he : (Node.comparison relation left right).evaluate s ctx = .ok (.check check))
    (hsplit : check.critical = some shares) (htotal : 0 < check.total) :
    ((∀ n ∈ left.subterms ++ right.subterms, n.usesProbability = false) → check.RefinedBy shares)
      ∧ (check.RefinedBy shares ∨ check.ExceededBy shares) := by
  obtain ⟨hctx, hfree, l, r, full, hl, hr, hfull, hcritical, rfl⟩ :=
    Node.walk_comparison_split he hsplit
  have hlpos := Node.positive_walk left hl
  have hrpos := Node.positive_walk right hr
  have hnonneg := fun answer => (Distribution.Below.refl hlpos.nonneg).weightOf_compare_le
    (.refl hrpos.nonneg) hfull hfull answer
  unfold splitCheck at hcritical
  split at hcritical
  · next rate left' right' _ hsides =>
    split at hcritical
    · next pool hpool =>
      cases hcritical
      have hrefined : full.RefinedBy shares := refinedBy_of_poolSplit? hpool
      exact ⟨fun _ => hrefined, .inl hrefined⟩
    · obtain ⟨shares', hshares, hcritical⟩ := bind_eq_ok.1 hcritical
      obtain rfl : shares' = shares := Option.some.inj (pure_eq_ok.1 hcritical)
      obtain ⟨lowLeft, lowRight, low, hlowl, hlowr, hlow, rfl⟩ := restrictedSplit_eq_ok hshares
      obtain ⟨hmarksl, hmarksr⟩ := withoutMarks_of_decidingSides? hsides
      refine ⟨fun huses => ?_, Check.refinedBy_or_exceededBy htotal (hnonneg true).1
        (hnonneg false).1 low.success⟩
      have hpinned : ctx.restricted.pinned = none := hctx
      have hbl := Node.below_walk hctx hpinned rfl hfree left left' hmarksl
        (fun n hn => huses n (List.mem_append_left _ hn)) hlowl hl
      have hbr := Node.below_walk hctx hpinned rfl hfree right right' hmarksr
        (fun n hn => huses n (List.mem_append_right _ hn)) hlowr hr
      exact Check.refinedBy_of_le (hbl.weightOf_compare_le hbr hlow hfull true).2
  · cases hcritical

/-- `(d4>=3)+D2`: a check that counts as a number, and the die that decides. -/
def checkAndDie : Node :=
  .binary .add (.group (.comparison .greaterEqual (.dice ⟨1, 4, false⟩ none none) (.number 3)))
    (.dice ⟨1, 2, true⟩ none none)

set_option maxRecDepth 4000 in
theorem split_refines_checkAndDie :
    ∃ (check : Check ℚ) (shares : CriticalSplit ℚ), (Node.comparison .greaterEqual checkAndDie
        (.number 2)).evaluate { rate := some (50 : ℚ) } {} = .ok (.check check)
      ∧ check.critical = some shares ∧ 0 < check.total ∧ check.RefinedBy shares := by
  have hok : (((Node.comparison .greaterEqual checkAndDie
      (.number 2)).evaluate { rate := some (50 : ℚ) } {}).toOption.bind Evaluation.check?).any
        (fun check => check.critical.isSome && decide (0 < check.total)) = true := by
    decide +kernel
  obtain ⟨e, check, he, hcheck, hvalues⟩ := exists_of_any hok
  obtain rfl := Node.eq_check_of_walk he hcheck
  obtain ⟨hsome, htotal⟩ := (Bool.and_eq_true _ _).mp hvalues
  obtain ⟨shares, hshares⟩ := Option.isSome_iff_exists.1 hsome
  have htotal := of_decide_eq_true htotal
  exact ⟨check, shares, he, hshares, htotal,
    (split_refines_or_exceeds he hshares htotal).1 (by decide)⟩

/-- `(d2<2)*d4>=2`: the probability of a check scales a die.  Without the critical face the check
is certain, so the second reading succeeds in three of four rolls and the check in one. -/
def scaledDie : Node :=
  .binary .mul (.group (.comparison .less (.dice ⟨1, 2, false⟩ none none) (.number 2)))
    (.dice ⟨1, 4, false⟩ none none)

set_option maxRecDepth 4000 in
theorem split_exceeds_scaledDie :
    ∃ (check : Check ℚ) (shares : CriticalSplit ℚ), (Node.comparison .greaterEqual scaledDie
        (.number 2)).evaluate { rate := some (50 : ℚ) } {} = .ok (.check check)
      ∧ check.critical = some shares ∧ 0 < check.total ∧ check.successProbability = 1 / 4
      ∧ shares = ⟨1 / 2, 0, 1 / 2⟩ ∧ ¬ check.RefinedBy shares := by
  have hok : (((Node.comparison .greaterEqual scaledDie
      (.number 2)).evaluate { rate := some (50 : ℚ) } {}).toOption.bind Evaluation.check?).any
        (fun check => decide (0 < check.total ∧ check.successProbability = 1 / 4)
          && check.critical.any fun shares => decide (shares.normalHit = 1 / 2
            ∧ shares.criticalHit = 0 ∧ shares.miss = 1 / 2)) = true := by decide +kernel
  obtain ⟨e, check, he, hcheck, hvalues⟩ := exists_of_any hok
  obtain rfl := Node.eq_check_of_walk he hcheck
  obtain ⟨hcheck, hsplit⟩ := (Bool.and_eq_true _ _).mp hvalues
  obtain ⟨htotal, hsuccess⟩ := of_decide_eq_true hcheck
  cases hshares : check.critical with
  | none => rw [hshares] at hsplit; cases hsplit
  | some shares =>
    rw [hshares] at hsplit
    obtain ⟨hnormal, hcritical, hmiss⟩ := of_decide_eq_true hsplit
    refine ⟨check, shares, he, hshares, htotal, hsuccess, ?_, ?_⟩
    · cases shares
      exact (CriticalSplit.mk.injEq ..).mpr ⟨hnormal, hcritical, hmiss⟩
    · rintro ⟨hhits, -⟩
      rw [hsuccess, hnormal, hcritical] at hhits
      norm_num at hhits

end DiceOdds
