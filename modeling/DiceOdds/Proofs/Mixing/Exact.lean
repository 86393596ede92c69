import DiceOdds.Proofs.Critical.Check
import DiceOdds.Proofs.Mixing.Blend
import DiceOdds.Evaluation.Split

/-!
# Mixtures that need no rounding

Over the total of the condition times the least common multiple of the totals of the branches, every
branch is scaled by a whole number.  So a mixture of whole weights has whole weights before it is
rounded, and the law of total probability holds as it stands.

## Why the scale of a branch is whole

A branch that is taken in `c` of the `C` cases of the condition has the share `c / C` of the total
`C * L`, which is `c * L`.  Its own total `T` divides `L`, so each of its weights is multiplied by
`c * (L / T)`.
-/

namespace DiceOdds

open Mixing (greatestExact positiveWhole? commonTotal? targetTotal)

/-! ## 1. The total of an exact mixture -/

namespace Mixing

theorem positiveWhole?_natCast {n : ℕ} (hone : 1 ≤ n) (hlt : n < greatestExact) :
    positiveWhole? (n : ℚ) = some n := by
  have hnearest : Weight.nearest? (n : ℚ) = some (n : ℤ) :=
    congrArg some (nearestOfRat_natCast n)
  unfold positiveWhole?
  rw [hnearest]
  simp [hlt, Nat.one_le_iff_ne_zero.1 hone]

theorem foldl_lcm (totals : List ℕ) :
    totals.foldl Nat.lcm 1 = (totals : Multiset ℕ).lcm :=
  (Multiset.coe_fold_l GCDMonoid.lcm 1 totals).symm

theorem mapM_positiveWhole? {totals : List ℕ} (h : ∀ t ∈ totals, 1 ≤ t ∧ t < greatestExact) :
    (totals.map (Nat.cast : ℕ → ℚ)).mapM positiveWhole? = some totals := by
  induction totals with
  | nil => rfl
  | cons t rest ih =>
    obtain ⟨ht, hrest⟩ := List.forall_mem_cons.1 h
    rw [List.map_cons, List.mapM_cons, ih hrest, positiveWhole?_natCast ht.1 ht.2]
    rfl

/-- With whole numbers within the bounds, the total is that of the condition times the least common
multiple of the others. -/
theorem targetTotal_exact {condition : ℕ} {totals : List ℕ} (hone : 1 ≤ condition)
    (hlt : condition < greatestExact) (htotals : ∀ t ∈ totals, 1 ≤ t ∧ t < greatestExact)
    (hbound : condition * (totals : Multiset ℕ).lcm ≤ greatestExact) :
    targetTotal exact (condition : ℚ) (totals.map Nat.cast)
      = (condition * (totals : Multiset ℕ).lcm : ℕ) := by
  unfold targetTotal commonTotal?
  simp only [positiveWhole?_natCast hone hlt, mapM_positiveWhole? htotals, foldl_lcm,
    Option.bind_eq_bind, Option.bind_some, if_pos hbound]

end Mixing

/-! ## 2. Branches in whole weights -/

/-- A branch of a conditional that is taken in `cases` of the cases of its condition, in whole
weights with a total that counts exactly. -/
structure WholeBranch where
  cases : ℕ
  values : Distribution ℚ
  total : ℕ
  whole : values.Whole
  total_eq : values.total = total
  one_le_total : 1 ≤ total
  total_lt : total < greatestExact

theorem WholeBranch.exists_of_ok (x : Except EvalError (Evaluation ℚ)) (cases total : ℕ)
    (ns : List ℕ) (v : Outcome) (w : ℚ) (hone : 1 ≤ total) (hlt : total < greatestExact)
    (hok : (x.toOption.bind fun e => some e.distribution).any (fun d =>
      decide (d.total = (total : ℚ) ∧ d.toList.map Prod.snd = ns.map Nat.cast
        ∧ d.weightOf v = w)) = true) :
    ∃ e, ∃ b : WholeBranch, x = .ok e ∧ b.values = e.distribution ∧ b.cases = cases
      ∧ b.total = total ∧ b.values.weightOf v = w := by
  obtain ⟨e, d, he, hd, hvalues⟩ := exists_of_any hok
  obtain rfl := Option.some.inj hd
  obtain ⟨htotal, hweights, hweight⟩ := of_decide_eq_true hvalues
  exact ⟨e, ⟨cases, e.distribution, total, .of_weights hweights, htotal, hone, hlt⟩, he, rfl, rfl,
    rfl, hweight⟩

/-- The least common multiple of the totals of some branches. -/
def commonMultiple (branches : List WholeBranch) : ℕ :=
  (branches.map WholeBranch.total : Multiset ℕ).lcm

/-- The branches of a conditional with `condition` cases, scaled to a multiple of all totals. -/
def wholeBlend (branches : List WholeBranch) (condition : ℕ) : Distribution ℚ :=
  .blend (branches.map fun b => ((b.cases : ℚ) / condition, b.values))
    (condition * commonMultiple branches : ℕ)

section Blend

variable {branches : List WholeBranch} {condition : ℕ}

theorem total_dvd {b : WholeBranch} (hb : b ∈ branches) : b.total ∣ commonMultiple branches :=
  Multiset.dvd_lcm (Multiset.mem_coe.2 (List.mem_map_of_mem hb))

theorem commonMultiple_ne_zero : commonMultiple branches ≠ 0 := by
  rw [commonMultiple, Ne, Multiset.lcm_eq_zero_iff, Multiset.mem_coe, List.mem_map]
  rintro ⟨b, -, hb⟩
  exact Nat.one_le_iff_ne_zero.1 b.one_le_total hb

/-- Each branch is scaled by a whole number. -/
theorem sumOver_wholeBlend (hone : 1 ≤ condition) (f : Outcome → ℚ) :
    (wholeBlend branches condition).sumOver f
      = (branches.map fun b =>
          ((b.cases * (commonMultiple branches / b.total) : ℕ) : ℚ) * b.values.sumOver f).sum := by
  have hcondition : (condition : ℚ) ≠ 0 := Nat.cast_ne_zero.2 (by omega)
  rw [wholeBlend, Distribution.sumOver_blend (Nat.cast_nonneg _) ?_ f, List.map_map]
  · refine congrArg List.sum (List.map_congr_left fun b hb => ?_)
    have htotal : (b.total : ℚ) ≠ 0 := Nat.cast_ne_zero.2 (by have := b.one_le_total; omega)
    rw [Function.comp_apply, b.total_eq, Nat.cast_mul, Nat.cast_mul,
      Nat.cast_div (total_dvd hb) htotal]
    field_simp
  · intro part hpart
    obtain ⟨b, -, rfl⟩ := List.mem_map.1 hpart
    exact ⟨div_nonneg (Nat.cast_nonneg _) (Nat.cast_nonneg _), b.whole.nonneg⟩

theorem weightOf_wholeBlend (hone : 1 ≤ condition) (v : Outcome) :
    (wholeBlend branches condition).weightOf v = (branches.map fun b =>
      ((b.cases * (commonMultiple branches / b.total) : ℕ) : ℚ) * b.values.weightOf v).sum := by
  simp only [Distribution.weightOf_eq_sumOver, sumOver_wholeBlend hone]

/-- Whole multiples of whole weights add up to whole weights. -/
theorem whole_wholeBlend (hone : 1 ≤ condition) : (wholeBlend branches condition).Whole := by
  intro v
  rw [weightOf_wholeBlend hone]
  generalize commonMultiple branches = multiple
  induction branches with
  | nil => exact ⟨0, by simp⟩
  | cons b rest ih =>
    obtain ⟨n, hn⟩ := ih
    obtain ⟨m, hm⟩ := b.whole v
    refine ⟨b.cases * (multiple / b.total) * m + n, ?_⟩
    rw [List.map_cons, List.sum_cons, hn, hm]
    push_cast
    rfl

/-- Every branch adds its cases, each as often as the common multiple says. -/
theorem total_wholeBlend (hone : 1 ≤ condition)
    (hcases : (branches.map WholeBranch.cases).sum = condition) :
    (wholeBlend branches condition).total = (condition * commonMultiple branches : ℕ) := by
  have hbranch : ∀ b ∈ branches, ((b.cases * (commonMultiple branches / b.total) : ℕ) : ℚ)
      * b.values.sumOver (fun _ => 1) = ((b.cases * commonMultiple branches : ℕ) : ℚ) := by
    intro b hb
    rw [← Distribution.total_eq_sumOver, b.total_eq, ← Nat.cast_mul, mul_assoc,
      Nat.div_mul_cancel (total_dvd hb)]
  rw [Distribution.total_eq_sumOver, sumOver_wholeBlend hone, List.map_congr_left hbranch,
    ← hcases, ← List.sum_map_mul_right, Nat.cast_list_sum, List.map_map]
  rfl

/-- The share of an outcome is the sum of its shares in the branches, each as likely as its
cases. -/
theorem share_wholeBlend (hone : 1 ≤ condition)
    (hcases : (branches.map WholeBranch.cases).sum = condition) (v : Outcome) :
    (wholeBlend branches condition).weightOf v / (wholeBlend branches condition).total
      = (branches.map fun b =>
          (b.cases : ℚ) / condition * (b.values.weightOf v / b.values.total)).sum := by
  have hcondition : (condition : ℚ) ≠ 0 := Nat.cast_ne_zero.2 (by omega)
  have hmultiple : (commonMultiple branches : ℚ) ≠ 0 := Nat.cast_ne_zero.2 commonMultiple_ne_zero
  rw [weightOf_wholeBlend hone, total_wholeBlend hone hcases, div_eq_inv_mul,
    ← List.sum_map_mul_left]
  refine congrArg List.sum (List.map_congr_left fun b hb => ?_)
  have htotal : (b.total : ℚ) ≠ 0 := Nat.cast_ne_zero.2 (by have := b.one_le_total; omega)
  rw [b.total_eq, Nat.cast_mul, Nat.cast_mul, Nat.cast_div (total_dvd hb) htotal]
  field_simp

end Blend

/-! ## 3. Conditionals -/

/-- Where a check leads to: what is evaluated for a success and for a failure, or, if the check is
split, for a normal hit, for a critical hit and for a miss, each of them with the number of cases
in which it is. -/
inductive LeadsTo (s : Settings ℚ) (split : SplitCheck ℚ) (ctx : Context) (check : Check ℚ)
    (ifTrue ifFalse : Node) : List WholeBranch → Prop where
  | twoWays {yes no : Evaluation ℚ} {success failure : WholeBranch}
      (hunsplit : check.critical = none) (hyes : ifTrue.walk s split ctx = .ok yes)
      (hno : ifFalse.walk s split ctx = .ok no) (hsuccess : success.cases = check.success)
      (hfailure : failure.cases = check.failure) (hyesValues : success.values = yes.distribution)
      (hnoValues : failure.values = no.distribution) :
      LeadsTo s split ctx check ifTrue ifFalse [success, failure]
  | threeWays {shares : CriticalSplit ℚ} {normalHit criticalHit miss : Evaluation ℚ}
      {normal critical missed : WholeBranch} (hsplit : check.critical = some shares)
      (hnormalHit : ifTrue.walk s split (ctx.critical false) = .ok normalHit)
      (hcriticalHit : ifTrue.walk s split (ctx.critical true) = .ok criticalHit)
      (hmiss : ifFalse.walk s split ctx = .ok miss)
      (hnormal : normal.cases = check.total * shares.normalHit)
      (hcritical : critical.cases = check.total * shares.criticalHit)
      (hmissed : missed.cases = check.total * shares.miss)
      (hnormalValues : normal.values = normalHit.distribution)
      (hcriticalValues : critical.values = criticalHit.distribution)
      (hmissedValues : missed.values = miss.distribution) :
      LeadsTo s split ctx check ifTrue ifFalse [normal, critical, missed]

section Conditional

variable {s : Settings ℚ} {split : SplitCheck ℚ} {ctx : Context} {node ifTrue ifFalse : Node}
  {e : Evaluation ℚ} {check : Check ℚ} {branches : List WholeBranch} {condition : ℕ}

/-- The result of a conditional lists what its check leads to, with the probability of each. -/
theorem LeadsTo.branches_eq (h : LeadsTo s split ctx check ifTrue ifFalse branches)
    (he : (Node.conditional node ifTrue ifFalse).walk s split ctx = .ok e)
    (hcheck : node.walk s split ctx = .ok (.check check)) (htotal : check.total = condition)
    (hone : 1 ≤ condition) :
    e.branches = branches.map fun b => ((b.cases : ℚ) / condition, b.values) := by
  have hcondition : (condition : ℚ) ≠ 0 := Nat.cast_ne_zero.2 (by omega)
  have hnonzero : check.total ≠ 0 := htotal ▸ hcondition
  obtain ⟨check', hcheck', hplain⟩ := Node.walk_conditional_eq_ok he
  rw [hcheck] at hcheck'
  cases hcheck'
  cases h with
  | twoWays hunsplit hyes hno hsuccess hfailure hyesValues hnoValues =>
    rcases hplain with ⟨_, _, _, _, hsplit, -⟩ | ⟨yes', no', -, hyes', hno', rfl⟩
    · cases hunsplit.symm.trans hsplit
    rw [hyes] at hyes'
    rw [hno] at hno'
    cases hyes'
    cases hno'
    have hp : check.successProbability = check.success / check.total :=
      if_neg (by simpa using hnonzero)
    have hq : 1 - check.successProbability = check.failure / check.total := by
      rw [hp, one_sub_div hnonzero, Check.total, add_sub_cancel_left]
    simp only [Evaluation.branches, ConditionalResult.ofBranches, hq, List.map_cons, List.map_nil]
    rw [hp, hsuccess, hfailure, hyesValues, hnoValues, htotal]
  | threeWays hsplit hnormalHit hcriticalHit hmiss hnormal hcritical hmissed hnormalValues
      hcriticalValues hmissedValues =>
    rcases hplain with ⟨_, _, _, _, hsplit', hn', hc', hm', rfl⟩ | ⟨_, _, hunsplit, -⟩
    swap
    · cases hunsplit.symm.trans hsplit
    rw [hsplit] at hsplit'
    rw [hnormalHit] at hn'
    rw [hcriticalHit] at hc'
    rw [hmiss] at hm'
    cases hsplit'
    cases hn'
    cases hc'
    cases hm'
    simp only [Evaluation.branches, CriticalResult.ofBranches, List.map_cons, List.map_nil]
    rw [hnormal, hcritical, hmissed, hnormalValues, hcriticalValues, hmissedValues, htotal,
      mul_div_cancel_left₀ _ hcondition, mul_div_cancel_left₀ _ hcondition,
      mul_div_cancel_left₀ _ hcondition]

/-- With exact mixing and all numbers within the bounds, a conditional is a whole blend. -/
theorem distribution_eq_wholeBlend (hexact : s.mixing = .exact)
    (he : (Node.conditional node ifTrue ifFalse).walk s split ctx = .ok e)
    (hcheck : node.walk s split ctx = .ok (.check check)) (htotal : check.total = condition)
    (hone : 1 ≤ condition) (hlt : condition < greatestExact)
    (hbranches : e.branches = branches.map fun b => ((b.cases : ℚ) / condition, b.values))
    (hbound : condition * commonMultiple branches ≤ greatestExact) :
    e.distribution = (wholeBlend branches condition).rounded := by
  have htotals : e.branches.map (fun branch => branch.2.total)
      = (branches.map WholeBranch.total).map Nat.cast := by
    rw [hbranches, List.map_map, List.map_map]
    exact List.map_congr_left fun b _ => b.total_eq
  have htarget : s.mixing.targetTotal check.total (e.branches.map fun branch => branch.2.total)
      = (condition * commonMultiple branches : ℕ) := by
    rw [hexact, htotal, htotals]
    refine Mixing.targetTotal_exact hone hlt (fun t ht => ?_) hbound
    obtain ⟨b, -, rfl⟩ := List.mem_map.1 ht
    exact ⟨b.one_le_total, b.total_lt⟩
  rw [Node.distribution_conditional he hcheck, htarget, hbranches, Distribution.mix_eq_rounded,
    wholeBlend]

/-- **Exact mixing is exact.**  Let the check of a conditional lead to branches in whole weights,
each in a whole number of its cases, and let all numbers be within the bounds.  Then an outcome
weighs in the mixture what it weighs in the branches, each of them taken a whole number of times,
and rounding changes nothing.  The total is that of the condition times the least common multiple,
so the law of total probability holds exactly; and the result lists the branches with their
probabilities. -/
theorem weightOf_conditional_exact (hexact : s.mixing = .exact)
    (he : (Node.conditional node ifTrue ifFalse).walk s split ctx = .ok e)
    (hcheck : node.walk s split ctx = .ok (.check check)) (htotal : check.total = condition)
    (hone : 1 ≤ condition) (hlt : condition < greatestExact)
    (hleads : LeadsTo s split ctx check ifTrue ifFalse branches)
    (hcases : (branches.map WholeBranch.cases).sum = condition)
    (hbound : condition * commonMultiple branches ≤ greatestExact) :
    (∀ v, e.distribution.weightOf v = (branches.map fun b =>
        ((b.cases * (commonMultiple branches / b.total) : ℕ) : ℚ) * b.values.weightOf v).sum)
      ∧ e.distribution.Whole
      ∧ (∃ unrounded : Distribution ℚ, e.distribution = unrounded.rounded
          ∧ ∀ v, unrounded.weightOf v = e.distribution.weightOf v)
      ∧ e.distribution.total = (condition * commonMultiple branches : ℕ)
      ∧ (∀ v, e.distribution.weightOf v / e.distribution.total = (branches.map fun b =>
          (b.cases : ℚ) / condition * (b.values.weightOf v / b.values.total)).sum)
      ∧ e.branches = branches.map fun b => ((b.cases : ℚ) / condition, b.values) := by
  have hbranches := hleads.branches_eq he hcheck htotal hone
  have hmix : e.distribution = (wholeBlend branches condition).rounded :=
    distribution_eq_wholeBlend hexact he hcheck htotal hone hlt hbranches hbound
  have hwhole : (wholeBlend branches condition).Whole := whole_wholeBlend hone
  have hweight : ∀ v, e.distribution.weightOf v = (wholeBlend branches condition).weightOf v :=
    fun v => by rw [hmix, hwhole.weightOf_rounded]
  have hall : e.distribution.total = (wholeBlend branches condition).total := by
    rw [hmix, hwhole.total_rounded]
  refine ⟨fun v => ?_, fun v => ?_, ⟨_, hmix, fun v => (hweight v).symm⟩, ?_, fun v => ?_,
    hbranches⟩
  · rw [hweight, weightOf_wholeBlend hone]
  · rw [hweight]
    exact hwhole v
  · rw [hall, total_wholeBlend hone hcases]
  · rw [hweight, hall, share_wholeBlend hone hcases]

end Conditional

/-- `d4>=3`: a check with one critical face at a rate of a quarter. -/
def highFace : Node := .comparison .greaterEqual (.dice ⟨1, 4, false⟩ none none) (.number 3)

/-- `d4>=3?d2:d3`. -/
def twoBranches : Node :=
  .conditional highFace (.dice ⟨1, 2, false⟩ none none) (.dice ⟨1, 3, false⟩ none none)

/-- `d4>=3?#d2#:(d2>1?d3:1)`: three branches, the last of them a mixture of its own. -/
def threeBranches : Node :=
  .conditional highFace (.double (.dice ⟨1, 2, false⟩ none none))
    (.group (.conditional (.comparison .greater (.dice ⟨1, 2, false⟩ none none) (.number 1))
      (.dice ⟨1, 3, false⟩ none none) (.number 1)))

theorem evaluate_highFace_unsplit : ∃ check : Check ℚ,
    highFace.evaluate { mixing := .exact } {} = .ok (.check check) ∧ check.critical = none
      ∧ check.success = (2 : ℕ) ∧ check.failure = (2 : ℕ) := by
  have hfound : ((highFace.evaluate ({ mixing := .exact } : Settings ℚ) {}).toOption.bind
      Evaluation.check?).any (fun check => decide (check.critical.isNone = true
        ∧ check.success = ((2 : ℕ) : ℚ) ∧ check.failure = ((2 : ℕ) : ℚ))) = true := by
    decide +kernel
  obtain ⟨e, check, he, hcheck, hparts⟩ := exists_of_any hfound
  obtain rfl := Node.eq_check_of_walk he hcheck
  obtain ⟨hunsplit, hsuccess, hfailure⟩ := of_decide_eq_true hparts
  exact ⟨check, he, Option.isNone_iff_eq_none.1 hunsplit, hsuccess, hfailure⟩

theorem evaluate_highFace_split : ∃ check : Check ℚ,
    highFace.evaluate { rate := some (25 : ℚ), mixing := .exact } {} = .ok (.check check)
      ∧ check.critical = some ⟨1 / 4, 1 / 4, 1 / 2⟩ ∧ check.total = (4 : ℕ) := by
  have hfound : ((highFace.evaluate ({ rate := some 25, mixing := .exact } : Settings ℚ)
      {}).toOption.bind Evaluation.check?).any (fun check => check.critical.any (fun shares =>
        decide (shares.normalHit = 1 / 4 ∧ shares.criticalHit = 1 / 4 ∧ shares.miss = 1 / 2))
          && decide (check.total = ((4 : ℕ) : ℚ))) = true := by
    decide +kernel
  obtain ⟨e, check, he, hcheck, hparts⟩ := exists_of_any hfound
  obtain rfl := Node.eq_check_of_walk he hcheck
  obtain ⟨hshares, htotal⟩ := Bool.and_eq_true_iff.1 hparts
  obtain ⟨⟨_, _, _⟩, hsplit, hvalues⟩ := (Option.any_eq_true _ _).1 hshares
  obtain ⟨rfl, rfl, rfl⟩ := of_decide_eq_true hvalues
  exact ⟨check, he, hsplit, of_decide_eq_true htotal⟩

set_option maxRecDepth 4000 in
/-- Without a rate there are two branches, with totals of `2` and `3`; at a rate of a quarter there
are two with a total of `2` and one with a total of `6`.  Both mixtures are made over `4 * 6`. -/
theorem weightOf_conditional_exact_highFace :
    (∃ (e : Evaluation ℚ) (check : Check ℚ) (branches : List WholeBranch),
      twoBranches.evaluate { mixing := .exact } {} = .ok e
        ∧ highFace.evaluate { mixing := .exact } {} = .ok (.check check)
        ∧ check.critical = none ∧ check.total = (4 : ℕ)
        ∧ (branches.map WholeBranch.cases).sum = 4 ∧ commonMultiple branches = 6
        ∧ e.distribution.total = 24 ∧ e.distribution.weightOf 1 = 10)
      ∧ ∃ (e : Evaluation ℚ) (check : Check ℚ) (branches : List WholeBranch),
        threeBranches.evaluate { rate := some (25 : ℚ), mixing := .exact } {} = .ok e
          ∧ highFace.evaluate { rate := some (25 : ℚ), mixing := .exact } {} = .ok (.check check)
          ∧ check.critical = some ⟨1 / 4, 1 / 4, 1 / 2⟩ ∧ check.total = (4 : ℕ)
          ∧ (branches.map WholeBranch.cases).sum = 4 ∧ commonMultiple branches = 6
          ∧ e.distribution.total = 24 ∧ e.distribution.weightOf 1 = 11 := by
  constructor
  · obtain ⟨e, he⟩ : Succeeds (twoBranches.evaluate { mixing := .exact } {} :
        Except EvalError (Evaluation ℚ)) := succeeds_of_isOk (by decide +kernel)
    obtain ⟨check, hc, hunsplit, hsuccess, hfailure⟩ := evaluate_highFace_unsplit
    have htotal : check.total = ((4 : ℕ) : ℚ) := by
      rw [Check.total, hsuccess, hfailure]
      norm_num
    obtain ⟨yes, success, hyes, hyesValues, hs, hst, hsw⟩ := WholeBranch.exists_of_ok
      ((Node.dice ⟨1, 2, false⟩ none none).evaluate ({ mixing := .exact } : Settings ℚ) {})
      2 2 [1, 1] 1 1 (by decide) (by decide) (by decide +kernel)
    obtain ⟨no, failure, hno, hnoValues, hf, hft, hfw⟩ := WholeBranch.exists_of_ok
      ((Node.dice ⟨1, 3, false⟩ none none).evaluate ({ mixing := .exact } : Settings ℚ) {})
      2 3 [1, 1, 1] 1 1 (by decide) (by decide) (by decide +kernel)
    have hmultiple : commonMultiple [success, failure] = 6 := by
      rw [commonMultiple, List.map_cons, List.map_cons, hst, hft]
      decide
    have hcases : ([success, failure].map WholeBranch.cases).sum = 4 := by simp [hs, hf]
    obtain ⟨hweight, -, -, hall, -⟩ := weightOf_conditional_exact rfl he hc htotal (by decide)
      (by decide) (.twoWays hunsplit hyes hno (hs ▸ hsuccess.symm) (hf ▸ hfailure.symm) hyesValues
        hnoValues) hcases (by rw [hmultiple]; decide)
    refine ⟨e, check, [success, failure], he, hc, hunsplit, htotal, hcases, hmultiple, ?_, ?_⟩
    · rw [hall, hmultiple]
      norm_num
    · simp only [hweight, hmultiple, List.map_cons, List.map_nil, List.sum_cons, List.sum_nil, hs,
        hf, hst, hft, hsw, hfw]
      norm_num
  · obtain ⟨e, he⟩ : Succeeds (threeBranches.evaluate { rate := some 25, mixing := .exact } {} :
        Except EvalError (Evaluation ℚ)) := succeeds_of_isOk (by decide +kernel)
    obtain ⟨check, hc, hsplit, htotal⟩ := evaluate_highFace_split
    obtain ⟨normalHit, normal, hnormalHit, hnormalValues, hn, hnt, hnw⟩ := WholeBranch.exists_of_ok
      ((Node.double (.dice ⟨1, 2, false⟩ none none)).evaluate
        ({ rate := some 25, mixing := .exact } : Settings ℚ) (Context.critical {} false))
      1 2 [1, 1] 1 1 (by decide) (by decide) (by decide +kernel)
    obtain ⟨criticalHit, critical, hcriticalHit, hcriticalValues, hcr, hcrt, hcrw⟩ :=
      WholeBranch.exists_of_ok ((Node.double (.dice ⟨1, 2, false⟩ none none)).evaluate
        ({ rate := some 25, mixing := .exact } : Settings ℚ) (Context.critical {} true))
      1 2 [1, 1] 1 0 (by decide) (by decide) (by decide +kernel)
    obtain ⟨miss, missed, hmiss, hmissedValues, hm, hmt, hmw⟩ := WholeBranch.exists_of_ok
      ((Node.group (.conditional (.comparison .greater (.dice ⟨1, 2, false⟩ none none) (.number 1))
        (.dice ⟨1, 3, false⟩ none none) (.number 1))).evaluate
          ({ rate := some 25, mixing := .exact } : Settings ℚ) {})
      2 6 [4, 1, 1] 1 4 (by decide) (by decide) (by decide +kernel)
    have hmultiple : commonMultiple [normal, critical, missed] = 6 := by
      rw [commonMultiple, List.map_cons, List.map_cons, List.map_cons, hnt, hcrt, hmt]
      decide
    have hcases : ([normal, critical, missed].map WholeBranch.cases).sum = 4 := by
      simp [hn, hcr, hm]
    obtain ⟨hweight, -, -, hall, -⟩ := weightOf_conditional_exact rfl he hc htotal (by decide)
      (by decide) (.threeWays hsplit hnormalHit hcriticalHit hmiss (by rw [hn, htotal]; norm_num)
        (by rw [hcr, htotal]; norm_num) (by rw [hm, htotal]; norm_num) hnormalValues hcriticalValues
        hmissedValues) hcases (by rw [hmultiple]; decide)
    refine ⟨e, check, [normal, critical, missed], he, hc, hsplit, htotal, hcases, hmultiple, ?_, ?_⟩
    · rw [hall, hmultiple]
      norm_num
    · simp only [hweight, hmultiple, List.map_cons, List.map_nil, List.sum_cons, List.sum_nil, hn,
        hcr, hm, hnt, hcrt, hmt, hnw, hcrw, hmw]
      norm_num

end DiceOdds
