import DiceOdds.Proofs.Branches.Places
import DiceOdds.Proofs.Nested.Chance
import DiceOdds.Proofs.Reuse.Whole
import DiceOdds.Proofs.Safety.Answer

/-!
# How far rounding takes a nested conditional

A conditional rounds the weights of its mixture, each by half a unit at most.  Seen from further up
this is no small change: the mixture is over the total of the condition, and the conditional around
it divides by what is left of that total.  So half a unit in a nested conditional may be half of its
values, and whatever its shares are off by, the conditional around it has that many units wrong as
its own total says.

## What the drift counts

For every nested conditional, `drift` takes how much the rounding of this one conditional changes
the share of an outcome, and weighs it by the probability of getting there.  Nothing else goes
wrong, so the root is off by its own half unit and by its drift.
-/

namespace DiceOdds

/-! ## 1. Rounding -/

namespace Distribution

variable {d : Distribution ℚ}

/-- Rounding acts on each outcome by itself. -/
theorem Nonneg.weightOf_rounded (h : d.Nonneg) (v : Outcome) :
    d.rounded.weightOf v = Weight.round (d.weightOf v) := by
  have hterms : ∀ p ∈ d.toList, Weight.round p.2 * (if p.1 = v then (1 : ℚ) else 0)
      = if p.1 = v then Weight.round (d.weightOf v) else 0 := by
    intro p hp
    by_cases hv : p.1 = v
    · rw [if_pos hv, if_pos hv, mul_one, ← hv, weightOf, mem_toList hp]
    · rw [if_neg hv, if_neg hv, mul_zero]
  have hkeys : d.toList.map Prod.fst = d.weights.keys := Std.TreeMap.map_fst_toList_eq_keys
  rw [weightOf_eq_sumOver, h.sumOver_rounded, List.map_congr_left hterms]
  by_cases hv : v ∈ d.weights.keys
  · have hsum := sum_ite_eq_of_nodup Std.TreeMap.nodup_keys hv (Weight.round (d.weightOf v))
    rwa [← hkeys, List.map_map] at hsum
  · have hzero : d.weightOf v = 0 := getD_eq_zero fun hmem => hv (Std.TreeMap.mem_keys.2 hmem)
    have hround : Weight.round (0 : ℚ) = 0 := by simpa using round_natCast 0
    rw [hzero, hround]
    simp

theorem Nonneg.abs_weightOf_rounded_sub_le (h : d.Nonneg) (v : Outcome) :
    |d.rounded.weightOf v - d.weightOf v| ≤ 1 / 2 := by
  rw [h.weightOf_rounded]
  exact abs_round_sub_le _

theorem whole_iff : d.Whole ↔ ∀ p ∈ d.toList, p.2 = p.2.num.toNat := by
  constructor
  · intro h p hp
    obtain ⟨n, hn⟩ := h.mem hp
    rw [hn, Rat.num_natCast, Int.toNat_natCast]
  · intro h
    have hweights : d.toList.map Prod.snd
        = (d.toList.map fun p => p.2.num.toNat).map (Nat.cast : ℕ → ℚ) := by
      rw [List.map_map]
      exact List.map_congr_left h
    exact .of_weights hweights

instance (d : Distribution ℚ) : Decidable d.Whole := decidable_of_iff _ whole_iff.symm

/-! ## 2. Shares -/

/-- The share of an outcome in the total, `0` if there is none. -/
def share (d : Distribution ℚ) (v : Outcome) : ℚ := d.weightOf v / d.total

/-- Values that count all rolls have the shares that their rolls have. -/
theorem share_of_counts {α : Type} {value : α → Option Outcome} {rolls : List α}
    (h : d.Counts (rolls.map value)) (v : Outcome) :
    d.share v = rolls.countP (fun roll => value roll = some v) / rolls.length := by
  rw [share, h.weightOf_map, h.total_eq, List.length_map]

section Pair

variable {p target : ℚ} {x y : Distribution ℚ}

theorem sumOver_blend_pair (htarget : 0 ≤ target) (hp : 0 ≤ p) (hp' : p ≤ 1) (hx : x.Nonneg)
    (hy : y.Nonneg) (g : Outcome → ℚ) :
    (blend [(p, x), (1 - p, y)] target).sumOver g
      = target * p / x.total * x.sumOver g + target * (1 - p) / y.total * y.sumOver g := by
  rw [sumOver_blend htarget]
  · simp
  · intro part hpart
    simp only [List.mem_cons, List.not_mem_nil, or_false] at hpart
    rcases hpart with rfl | rfl
    · exact ⟨hp, hx⟩
    · exact ⟨sub_nonneg.2 hp', hy⟩

/-- What a mixture of two parts gives to an outcome before it is rounded. -/
theorem weightOf_blend_pair (htarget : 0 ≤ target) (hp : 0 ≤ p) (hp' : p ≤ 1) (hx : x.Nonneg)
    (hy : y.Nonneg) (v : Outcome) :
    (blend [(p, x), (1 - p, y)] target).weightOf v
      = target * (p * x.share v + (1 - p) * y.share v) := by
  rw [weightOf_eq_sumOver, sumOver_blend_pair htarget hp hp' hx hy, ← weightOf_eq_sumOver,
    ← weightOf_eq_sumOver, share, share]
  ring

/-- A mixture of two parts that are not empty has the total that it is asked for. -/
theorem total_blend_pair (htarget : 0 ≤ target) (hp : 0 ≤ p) (hp' : p ≤ 1) (hx : x.Nonneg)
    (hy : y.Nonneg) (hxpos : 0 < x.total) (hypos : 0 < y.total) :
    (blend [(p, x), (1 - p, y)] target).total = target := by
  rw [total_eq_sumOver, sumOver_blend_pair htarget hp hp' hx hy, ← total_eq_sumOver,
    ← total_eq_sumOver, div_mul_cancel₀ _ hxpos.ne', div_mul_cancel₀ _ hypos.ne']
  ring

end Pair

end Distribution

/-! ## 3. Conditionals before and after rounding -/

namespace ConditionalResult

/-- The mixture of the two branches over the total of the condition, before it is rounded. -/
def unrounded (r : ConditionalResult ℚ) : Distribution ℚ :=
  .blend [(r.condition.successProbability, r.ifTrue),
    (1 - r.condition.successProbability, r.ifFalse)] r.condition.total

/-- How much rounding changes the share of an outcome. -/
def roundingChange (r : ConditionalResult ℚ) (v : Outcome) : ℚ :=
  |r.combined.share v - r.unrounded.weightOf v / r.condition.total|

end ConditionalResult

/-- The result of a conditional. -/
def Evaluation.conditional? : Evaluation ℚ → Option (ConditionalResult ℚ)
  | conditional result => some result
  | _ => none

namespace Node

variable {s : Settings ℚ} {condition ifTrue ifFalse : Node} {e : Evaluation ℚ}

/-- What a part of a formula is evaluated to, if it is a conditional without critical hits. -/
def result? (s : Settings ℚ) (node : Node) : Option (ConditionalResult ℚ) :=
  (node.evaluate s {}).toOption.bind Evaluation.conditional?

/-- How much the nested conditionals change the share of an outcome by being rounded, each weighed
by the probability of getting there. -/
def drift (s : Settings ℚ) : Node → Outcome → ℚ
  | conditional condition ifTrue ifFalse, v =>
    ((conditional condition ifTrue ifFalse).result? s).elim 0 fun result =>
      result.roundingChange v
        + (result.condition.successProbability * ifTrue.drift s v
          + (1 - result.condition.successProbability) * ifFalse.drift s v)
  | group inner, v => inner.drift s v
  | _, _ => 0

/-- In no conditional of a formula anything has to be rounded. -/
def MixesWhole (s : Settings ℚ) (node : Node) : Prop :=
  ∀ n ∈ node.subterms, ∀ result ∈ n.result? s, result.unrounded.Whole

instance (s : Settings ℚ) (node : Node) : Decidable (node.MixesWhole s) :=
  inferInstanceAs (Decidable (∀ n ∈ node.subterms, ∀ result ∈ n.result? s, result.unrounded.Whole))

theorem MixesWhole.part {node part : Node} (h : node.MixesWhole s) (hpart : part ∈ node.parts) :
    part.MixesWhole s :=
  fun n hn => h n (subterms_subset_of_mem_parts hpart hn)

/-- A node that is no conditional mixes what its parts mix. -/
theorem MixesWhole.of_parts {node : Node} (hself : node.result? s = none)
    (hparts : ∀ part ∈ node.parts, part.MixesWhole s) : node.MixesWhole s := by
  intro n hn result hresult
  rw [subterms_eq_parts, List.mem_cons] at hn
  rcases hn with rfl | hn
  · rw [hself] at hresult
    cases hresult
  · obtain ⟨part, hpart, hn⟩ := mem_subtermsAll.1 hn
    exact hparts part hpart n hn result hresult

theorem Arithmetic.result?_eq_none {node : Node} (h : node.Arithmetic) : node.result? s = none := by
  have hplain : ∀ e, node.evaluate s {} = .ok e → e.conditional? = none := by
    intro e he
    induction h with
    | group h ih =>
      rw [evaluate, walk_group] at he
      exact ih he
    | _ =>
      obtain ⟨d, rfl⟩ := exists_plain_of_walk rfl he
      rfl
  rw [result?]
  cases he : node.evaluate s {} with
  | error _ => rfl
  | ok e => exact hplain e he

/-- So a conditional whose branches have no conditionals of their own is right within one unit. -/
theorem Arithmetic.mixesWhole {node : Node} (h : node.Arithmetic) : node.MixesWhole s := by
  induction h with
  | keep kind count h ih => exact .of_parts (Arithmetic.keep kind count h).result?_eq_none ih
  | binary operation hl hr ihl ihr =>
    refine .of_parts (hl.binary operation hr).result?_eq_none fun part hpart => ?_
    simp only [parts, List.mem_cons, List.not_mem_nil, or_false] at hpart
    rcases hpart with rfl | rfl
    · exact ihl
    · exact ihr
  | function name bound h ih =>
    refine .of_parts (Arithmetic.function name bound h).result?_eq_none fun part hpart => ?_
    simp only [parts, List.mem_cons, List.not_mem_nil, or_false] at hpart
    rcases hpart with rfl | rfl
    · exact ih
    · exact .of_parts (Arithmetic.number bound).result?_eq_none (by simp [parts])
  | group h ih =>
    refine .of_parts (Arithmetic.group h).result?_eq_none fun part hpart => ?_
    obtain rfl := List.mem_singleton.1 hpart
    exact ih
  | number value => exact .of_parts (Arithmetic.number value).result?_eq_none (by simp [parts])
  | dice d id modifier =>
    exact .of_parts (Arithmetic.dice d id modifier).result?_eq_none (by simp [parts])
  | reference id critical =>
    exact .of_parts (Arithmetic.reference id critical).result?_eq_none (by simp [parts])

/-- Arithmetic does not mix. -/
theorem Arithmetic.drift_eq {node : Node} (h : node.Arithmetic) (v : Outcome) :
    node.drift s v = 0 := by
  induction h with
  | group h ih =>
    rw [drift]
    exact ih
  | _ => rfl

/-- Nested conditionals in a formula without references, in which every die has a face. -/
structure Nested (node : Node) : Prop where
  branching : node.Branching
  hasReference_eq : node.hasReference = false
  sides : ∀ p ∈ node.pools, p.dice.sides ≠ 0

namespace Nested

theorem allRolls_ne_nil {node : Node} (h : node.Nested) : allRolls node.pools ≠ [] :=
  DiceOdds.allRolls_ne_nil fun p hp => Pool.rolls_ne_nil (h.sides p hp)

theorem branches (h : (conditional condition ifTrue ifFalse).Nested) :
    ifTrue.Nested ∧ ifFalse.Nested := by
  have hyesref : ifTrue.hasReference = false :=
    hasReference_of_mem_parts h.hasReference_eq (by simp [parts])
  have hnoref : ifFalse.hasReference = false :=
    hasReference_of_mem_parts h.hasReference_eq (by simp [parts])
  have hyessides : ∀ p ∈ ifTrue.pools, p.dice.sides ≠ 0 := fun p hp => h.sides p (by simp [hp])
  have hnosides : ∀ p ∈ ifFalse.pools, p.dice.sides ≠ 0 := fun p hp => h.sides p (by simp [hp])
  cases h.branching with
  | values harith => cases harith
  | conditional _ _ _ hyes hno => exact ⟨⟨hyes, hyesref, hyessides⟩, ⟨hno, hnoref, hnosides⟩⟩

theorem inner {node : Node} (h : (group node).Nested) : node.Nested := by
  refine ⟨?_, hasReference_group node ▸ h.hasReference_eq, h.sides⟩
  cases h.branching with
  | values harith =>
    cases harith with
    | group harith => exact .values harith
  | group hinner => exact hinner

theorem stripGroups {node : Node} (h : node.Nested) : node.stripGroups.Nested where
  branching := h.branching.stripGroups
  hasReference_eq := hasReference_of_mem_subterms h.hasReference_eq node.stripGroups_mem_subterms
  sides p hp := h.sides p (node.pools_stripGroups ▸ hp)

end Nested

/-- Without critical hits, a conditional is the rounded mixture of its two branches. -/
theorem evaluate_conditional_eq_ok (hrate : s.rate = none) (hmixing : s.mixing = .rounded)
    (he : (conditional condition ifTrue ifFalse).evaluate s {} = .ok e) :
    ∃ (r : ConditionalResult ℚ) (yes no : Evaluation ℚ), e = .conditional r
      ∧ condition.evaluate s {} = .ok (.check r.condition)
      ∧ ifTrue.evaluate s {} = .ok yes ∧ r.ifTrue = yes.distribution
      ∧ ifFalse.evaluate s {} = .ok no ∧ r.ifFalse = no.distribution
      ∧ r.combined = r.unrounded.rounded := by
  obtain ⟨check, hcheck, ⟨shares, _, _, _, hsplit, -⟩ | ⟨yes, no, -, hyes, hno, rfl⟩⟩ :=
    walk_conditional_eq_ok he
  · rw [unsplit_of_walk hcheck (by rw [hrate]; rfl)] at hsplit
    cases hsplit
  · refine ⟨_, yes, no, rfl, hcheck, hyes, rfl, hno, rfl, ?_⟩
    rw [hmixing]
    rfl

/-- What is known of a conditional in which all dice are rolled. -/
structure Rolled (condition ifTrue ifFalse : Node) (r : ConditionalResult ℚ) : Prop where
  total_eq : r.condition.total = (allRolls condition.pools).length
  total_pos : 0 < r.condition.total
  chance_eq : ∀ v, (conditional condition ifTrue ifFalse).chance v
    = r.condition.successProbability * ifTrue.chance v
      + (1 - r.condition.successProbability) * ifFalse.chance v
  probability : 0 ≤ r.condition.successProbability ∧ r.condition.successProbability ≤ 1
  nonneg : r.ifTrue.Nonneg ∧ r.ifFalse.Nonneg

namespace Rolled

variable {r : ConditionalResult ℚ}

theorem weightOf_unrounded (h : Rolled condition ifTrue ifFalse r) (v : Outcome) :
    r.unrounded.weightOf v = r.condition.total * (r.condition.successProbability * r.ifTrue.share v
      + (1 - r.condition.successProbability) * r.ifFalse.share v) :=
  Distribution.weightOf_blend_pair h.total_pos.le h.probability.1 h.probability.2 h.nonneg.1
    h.nonneg.2 v

theorem total_unrounded (h : Rolled condition ifTrue ifFalse r) (hyes : 0 < r.ifTrue.total)
    (hno : 0 < r.ifFalse.total) : r.unrounded.total = r.condition.total :=
  Distribution.total_blend_pair h.total_pos.le h.probability.1 h.probability.2 h.nonneg.1 h.nonneg.2
    hyes hno

theorem nonneg_unrounded (h : Rolled condition ifTrue ifFalse r) : r.unrounded.Nonneg := by
  refine Distribution.nonneg_iff.2 fun v => ?_
  rw [h.weightOf_unrounded]
  have hyes := div_nonneg (Distribution.nonneg_iff.1 h.nonneg.1 v) h.nonneg.1.total_nonneg
  have hno := div_nonneg (Distribution.nonneg_iff.1 h.nonneg.2 v) h.nonneg.2.total_nonneg
  exact mul_nonneg h.total_pos.le (add_nonneg (mul_nonneg h.probability.1 hyes)
    (mul_nonneg (sub_nonneg.2 h.probability.2) hno))

/-- **The law of total probability, as far as it holds**: before rounding, an outcome is off by as
much as its shares in the branches are. -/
theorem abs_unrounded_sub_le (h : Rolled condition ifTrue ifFalse r) {v : Outcome} {a b : ℚ}
    (hyes : |r.ifTrue.share v - ifTrue.chance v| ≤ a)
    (hno : |r.ifFalse.share v - ifFalse.chance v| ≤ b) :
    |r.unrounded.weightOf v / r.condition.total
        - (conditional condition ifTrue ifFalse).chance v|
      ≤ r.condition.successProbability * a + (1 - r.condition.successProbability) * b := by
  obtain ⟨hp, hp'⟩ := h.probability
  have hp' := sub_nonneg.2 hp'
  rw [h.weightOf_unrounded, mul_div_cancel_left₀ _ h.total_pos.ne', h.chance_eq,
    show ∀ p x y a b : ℚ, p * x + (1 - p) * y - (p * a + (1 - p) * b)
      = p * (x - a) + (1 - p) * (y - b) from fun _ _ _ _ _ => by ring]
  refine (abs_add_le _ _).trans (add_le_add ?_ ?_)
  · rw [abs_mul, abs_of_nonneg hp]
    exact mul_le_mul_of_nonneg_left hyes hp
  · rw [abs_mul, abs_of_nonneg hp']
    exact mul_le_mul_of_nonneg_left hno hp'

end Rolled

theorem Nested.rolled (hrate : s.rate = none)
    (h : (conditional condition ifTrue ifFalse).Nested) {r : ConditionalResult ℚ}
    {yes no : Evaluation ℚ} (hcheck : condition.evaluate s {} = .ok (.check r.condition))
    (hyes : ifTrue.evaluate s {} = .ok yes) (hyes' : r.ifTrue = yes.distribution)
    (hno : ifFalse.evaluate s {} = .ok no) (hno' : r.ifFalse = no.distribution) :
    Rolled condition ifTrue ifFalse r := by
  obtain ⟨relation, left, right, hcompare, hleft, hright⟩ : ∃ relation left right,
      condition.comparison? = some (relation, left, right) ∧ left.Arithmetic
        ∧ right.Arithmetic := by
    cases h.branching with
    | values harith => cases harith
    | conditional hcompare hleft hright _ _ => exact ⟨_, _, _, hcompare, hleft, hright⟩
  have hrolls : allRolls condition.pools ≠ [] :=
    DiceOdds.allRolls_ne_nil fun p hp => Pool.rolls_ne_nil (h.sides p (by simp [hp]))
  obtain ⟨hsuccess, hfailure, htotal⟩ := check_of_walk hrate rfl rfl hcompare hleft hright
    (hasReference_of_mem_parts h.hasReference_eq (by simp [parts])) hcheck
  have hpos : 0 < r.condition.total := by
    rw [htotal, Nat.cast_pos]
    exact List.length_pos_iff.2 hrolls
  have hother : 1 - r.condition.successProbability = r.condition.failure / r.condition.total := by
    rw [Check.successProbability, Check.share_eq, eq_div_iff hpos.ne', sub_mul, one_mul,
      div_mul_cancel₀ _ hpos.ne']
    exact add_sub_cancel_left _ _
  obtain ⟨hs, hf⟩ := nonneg_of_walk hcheck
  refine ⟨htotal, hpos, fun v => ?_, successProbability_mem hs hf, ?_, ?_⟩
  · rw [chance_conditional h.branches.1.allRolls_ne_nil h.branches.2.allRolls_ne_nil, hother,
      Check.successProbability, Check.share_eq, hsuccess, hfailure, htotal]
  · rw [hyes']
    exact (positive_walk ifTrue hyes).nonneg
  · rw [hno']
    exact (positive_walk ifFalse hno).nonneg

/-! ## 4. Nested conditionals -/

theorem share_of_arithmetic {node : Node} (h : node.Arithmetic) (href : node.hasReference = false)
    (he : node.evaluate s {} = .ok e) (v : Outcome) :
    e.distribution.share v = node.chance v
      ∧ e.distribution.total = (allRolls node.pools).length := by
  obtain ⟨d, rfl, hd⟩ := counts_walk rfl h href he
  rw [Settings.admittedRolls_of_unrestricted rfl] at hd
  refine ⟨?_, ?_⟩
  · rw [chance, occurrences, h.outcomeOn_eq]
    exact Distribution.share_of_counts hd v
  · exact hd.total_eq.trans (by rw [List.length_map])

theorem drift_conditional {r : ConditionalResult ℚ}
    (he : (conditional condition ifTrue ifFalse).evaluate s {} = .ok (.conditional r))
    (v : Outcome) :
    (conditional condition ifTrue ifFalse).drift s v = r.roundingChange v
      + (r.condition.successProbability * ifTrue.drift s v
        + (1 - r.condition.successProbability) * ifFalse.drift s v) := by
  rw [drift, result?, he]
  rfl

/-- **Nothing but rounding goes wrong**: the share of an outcome differs from its chance by the
drift at most. -/
theorem abs_share_sub_chance_le (hrate : s.rate = none) (hmixing : s.mixing = .rounded)
    {node : Node} (h : node.Nested) (he : node.evaluate s {} = .ok e) (v : Outcome) :
    |e.distribution.share v - node.chance v| ≤ node.drift s v := by
  have hbranching := h.branching
  induction hbranching generalizing e with
  | values harith =>
    rw [(share_of_arithmetic harith h.hasReference_eq he v).1, sub_self, abs_zero, harith.drift_eq]
  | conditional _ _ _ _ _ ihyes ihno =>
    obtain ⟨r, yes, no, rfl, hcheck, hyes, hyes', hno, hno', -⟩ :=
      evaluate_conditional_eq_ok hrate hmixing he
    have hrolled := h.rolled hrate hcheck hyes hyes' hno hno'
    have hbranches := hrolled.abs_unrounded_sub_le (hyes' ▸ ihyes h.branches.1 hyes)
      (hno' ▸ ihno h.branches.2 hno)
    rw [drift_conditional he]
    exact (abs_sub_le _ _ _).trans (add_le_add le_rfl hbranches)
  | group _ ih =>
    rw [evaluate, walk_group] at he
    rw [← chance_stripGroups, stripGroups, chance_stripGroups, drift]
    exact ih h.inner he

/-- Where nothing has to be rounded, there is no drift, and no branch is empty. -/
theorem drift_eq_zero (hrate : s.rate = none) (hmixing : s.mixing = .rounded)
    {node : Node} (h : node.Nested) (hwhole : node.MixesWhole s)
    (he : node.evaluate s {} = .ok e) :
    0 < e.distribution.total ∧ ∀ v, node.drift s v = 0 := by
  have hbranching := h.branching
  induction hbranching generalizing e with
  | values harith =>
    refine ⟨?_, harith.drift_eq⟩
    rw [(share_of_arithmetic harith h.hasReference_eq he 0).2, Nat.cast_pos]
    exact List.length_pos_iff.2 h.allRolls_ne_nil
  | conditional _ _ _ _ _ ihyes ihno =>
    obtain ⟨r, yes, no, rfl, hcheck, hyes, hyes', hno, hno', hcombined⟩ :=
      evaluate_conditional_eq_ok hrate hmixing he
    have hrolled := h.rolled hrate hcheck hyes hyes' hno hno'
    obtain ⟨hyespos, hyesdrift⟩ := ihyes h.branches.1 (hwhole.part (by simp [parts])) hyes
    obtain ⟨hnopos, hnodrift⟩ := ihno h.branches.2 (hwhole.part (by simp [parts])) hno
    have hresult := hwhole _ (mem_subterms_self _) r (by rw [result?, he]; rfl)
    have htotal : r.combined.total = r.condition.total := by
      rw [hcombined, hresult.total_rounded]
      exact hrolled.total_unrounded (hyes' ▸ hyespos) (hno' ▸ hnopos)
    refine ⟨htotal ▸ hrolled.total_pos, fun v => ?_⟩
    rw [drift_conditional he, hyesdrift, hnodrift, ConditionalResult.roundingChange,
      Distribution.share, htotal, hcombined, hresult.weightOf_rounded]
    simp
  | group _ ih =>
    rw [evaluate, walk_group] at he
    obtain ⟨hpos, hdrift⟩ := ih h.inner (hwhole.part (by simp [parts])) he
    refine ⟨hpos, fun v => ?_⟩
    rw [drift]
    exact hdrift v

theorem hasReference_withoutIds (node : Node) :
    node.withoutIds.hasReference = node.hasReference := by
  rw [hasReference, hasReference, subterms_withoutIds, List.any_map]
  refine congrArg (List.any node.subterms) (funext fun n => ?_)
  cases n <;> rfl

theorem evaluate_stripGroups (node : Node) :
    node.stripGroups.evaluate s {} = node.evaluate s {} := by
  induction node using stripGroups.induct with
  | case1 inner ih => rw [stripGroups, ih, evaluate, evaluate, walk_group]
  | case2 node hnode =>
    rw [stripGroups]
    exact hnode

end Node

/-! ## 5. Formulas -/

section Formulas

variable {text : String} {f : Formula} {condition ifTrue ifFalse : Node} {e : Evaluation ℚ}

/-- Without references there is no registry. -/
theorem Formula.registry_eq_nil (htext : ofText text = .ok f)
    (href : f.root.hasReference = false) : f.registry = [] := by
  obtain ⟨w, root, hd, rfl⟩ := exists_derives_of_ofText htext
  unfold ofNode at href ⊢
  split at href
  · next hroot =>
    rw [← Node.hasReference_withoutIds, Node.withoutIds_withIds, Node.hasReference_withoutIds,
      hroot] at href
    cases href
  · next hroot => rw [if_neg hroot]

/-- **Rounded mixtures.**  Let a formula without references be a conditional, with conditionals in
its branches to any depth, and let critical hits be off.  The weight of an outcome differs from its
chance, in units of the total of the condition, by half a unit for the rounding of the mixture and
by what the branches have drifted.  Where no nested conditional has to be rounded, the branches have
not drifted at all, and the weight is right within one unit. -/
theorem weightOf_conditional_rounded (htext : Formula.ofText text = .ok f)
    (href : f.root.hasReference = false) (hbranching : f.root.Branching)
    (hroot : f.root.stripGroups = .conditional condition ifTrue ifFalse)
    (he : f.root.evaluateFormula ({ registry := f.registry } : Settings ℚ) = .ok e) :
    ∃ result : ConditionalResult ℚ, e = .conditional result
      ∧ result.condition.total = (allRolls condition.pools).length
      ∧ (∀ v, |e.distribution.weightOf v - result.condition.total * f.root.chance v|
          ≤ 1 / 2 + result.condition.total
            * (result.condition.successProbability * ifTrue.drift { registry := f.registry } v
              + (1 - result.condition.successProbability)
                * ifFalse.drift { registry := f.registry } v))
      ∧ (ifTrue.MixesWhole { registry := f.registry } →
          ifFalse.MixesWhole { registry := f.registry } →
          ∀ v, |e.distribution.weightOf v - result.condition.total * f.root.chance v| < 1) := by
  have hregistry := Formula.registry_eq_nil htext href
  have heval : f.root.stripGroups.evaluate ({ registry := f.registry } : Settings ℚ) {} = .ok e := by
    rw [Node.evaluate_stripGroups]
    unfold Node.evaluateFormula at he
    rw [hregistry] at he ⊢
    exact he
  have hnested : f.root.stripGroups.Nested :=
    Node.Nested.stripGroups ⟨hbranching, href, fun p => Formula.pool_sides_ne_zero htext⟩
  have hchance : ∀ v, f.root.chance v = f.root.stripGroups.chance v := fun v =>
    (f.root.chance_stripGroups v).symm
  rw [hroot] at heval hnested hchance
  obtain ⟨r, yes, no, rfl, hcheck, hyes, hyes', hno, hno', hcombined⟩ :=
    Node.evaluate_conditional_eq_ok rfl rfl heval
  have hrolled := hnested.rolled rfl hcheck hyes hyes' hno hno'
  obtain ⟨hyesnested, hnonested⟩ := hnested.branches
  have hbound : ∀ v, |r.combined.weightOf v - r.condition.total * f.root.chance v|
      ≤ 1 / 2 + r.condition.total
        * (r.condition.successProbability * ifTrue.drift { registry := f.registry } v
          + (1 - r.condition.successProbability) * ifFalse.drift { registry := f.registry } v) := by
    intro v
    have hunrounded := hrolled.abs_unrounded_sub_le
      (hyes' ▸ Node.abs_share_sub_chance_le rfl rfl hyesnested hyes v)
      (hno' ▸ Node.abs_share_sub_chance_le rfl rfl hnonested hno v)
    have hscaled : r.unrounded.weightOf v - r.condition.total * f.root.chance v
        = r.condition.total * (r.unrounded.weightOf v / r.condition.total
          - (Node.conditional condition ifTrue ifFalse).chance v) := by
      rw [hchance, mul_sub, mul_div_cancel₀ _ hrolled.total_pos.ne']
    refine (abs_sub_le _ (r.unrounded.weightOf v) _).trans (add_le_add ?_ ?_)
    · rw [hcombined]
      exact hrolled.nonneg_unrounded.abs_weightOf_rounded_sub_le v
    · rw [hscaled, abs_mul, abs_of_nonneg hrolled.total_pos.le]
      exact mul_le_mul_of_nonneg_left hunrounded hrolled.total_pos.le
  refine ⟨r, rfl, hrolled.total_eq, hbound, fun hyeswhole hnowhole v => ?_⟩
  have hyesdrift := (Node.drift_eq_zero rfl rfl hyesnested hyeswhole hyes).2 v
  have hnodrift := (Node.drift_eq_zero rfl rfl hnonested hnowhole hno).2 v
  have hhalf := hbound v
  rw [hyesdrift, hnodrift, mul_zero, mul_zero, add_zero, mul_zero, add_zero] at hhalf
  exact hhalf.trans_lt one_half_lt_one

/-- `d4>2?(d2>1?1:0):d3`: the nested conditional needs no rounding, the one around it does. -/
def coinOrDie : Formula where
  root := .conditional (.comparison .greater (.dice ⟨1, 4, false⟩ none none) (.number 2.0))
    (.group (.conditional (.comparison .greater (.dice ⟨1, 2, false⟩ none none) (.number 1.0))
      (.number 1.0) (.number 0.0))) (.dice ⟨1, 3, false⟩ none none)
  registry := []

set_option maxRecDepth 4000 in
theorem ofText_coinOrDie : Formula.ofText "d4>2?(d2>1?1:0):d3" = .ok coinOrDie := by
  have htokens : tokenize "d4>2?(d2>1?1:0):d3" = .ok [⟨.dice ⟨1, 4, false⟩, 0⟩,
      ⟨.relation .greater, 2⟩, ⟨.number 2.0, 3⟩, ⟨.symbol .question, 4⟩, ⟨.symbol .leftParen, 5⟩,
      ⟨.dice ⟨1, 2, false⟩, 6⟩, ⟨.relation .greater, 8⟩, ⟨.number 1.0, 9⟩, ⟨.symbol .question, 10⟩,
      ⟨.number 1.0, 11⟩, ⟨.symbol .colon, 12⟩, ⟨.number 0.0, 13⟩, ⟨.symbol .rightParen, 14⟩,
      ⟨.symbol .colon, 15⟩, ⟨.dice ⟨1, 3, false⟩, 16⟩] := by decide +kernel
  rw [Formula.ofText, htokens]
  rfl

/-- The outcome `1` is worth `5 / 3` of the `4` units, and gets `2`. -/
theorem weightOf_conditional_rounded_coinOrDie :
    ∃ e result, Formula.ofText "d4>2?(d2>1?1:0):d3" = .ok coinOrDie
      ∧ coinOrDie.root.evaluateFormula ({ registry := coinOrDie.registry } : Settings ℚ) = .ok e
      ∧ e = .conditional result ∧ e.distribution.weightOf 1 = 2
      ∧ |e.distribution.weightOf 1 - result.condition.total * coinOrDie.root.chance 1| < 1 := by
  have hweight : (coinOrDie.root.evaluateFormula
      ({ registry := coinOrDie.registry } : Settings ℚ)).toOption.any
        (fun e => decide (e.distribution.weightOf 1 = 2)) = true := by decide +kernel
  cases he : coinOrDie.root.evaluateFormula ({ registry := coinOrDie.registry } : Settings ℚ) with
  | error _ => rw [he] at hweight; cases hweight
  | ok e =>
    rw [he] at hweight
    obtain ⟨result, hresult, -, -, hwithin⟩ := weightOf_conditional_rounded ofText_coinOrDie rfl
      (.conditional rfl (.dice ..) (.number _) (.group (.conditional rfl (.dice ..) (.number _)
        (.values (.number _)) (.values (.number _)))) (.values (.dice ..))) rfl he
    exact ⟨e, result, ofText_coinOrDie, rfl, hresult, of_decide_eq_true hweight,
      hwithin (by decide +kernel) (Node.Arithmetic.dice ..).mixesWhole 1⟩

/-- `d20>10?(1>0?d6:0):0`: six values share the one unit of the nested conditional. -/
def sharedUnit : Formula where
  root := .conditional (.comparison .greater (.dice ⟨1, 20, false⟩ none none) (.number 10.0))
    (.group (.conditional (.comparison .greater (.number 1.0) (.number 0.0))
      (.dice ⟨1, 6, false⟩ none none) (.number 0.0))) (.number 0.0)
  registry := []

set_option maxRecDepth 4000 in
theorem ofText_sharedUnit : Formula.ofText "d20>10?(1>0?d6:0):0" = .ok sharedUnit := by
  have htokens : tokenize "d20>10?(1>0?d6:0):0" = .ok [⟨.dice ⟨1, 20, false⟩, 0⟩,
      ⟨.relation .greater, 3⟩, ⟨.number 10.0, 4⟩, ⟨.symbol .question, 6⟩, ⟨.symbol .leftParen, 7⟩,
      ⟨.number 1.0, 8⟩, ⟨.relation .greater, 9⟩, ⟨.number 0.0, 10⟩, ⟨.symbol .question, 11⟩,
      ⟨.dice ⟨1, 6, false⟩, 12⟩, ⟨.symbol .colon, 14⟩, ⟨.number 0.0, 15⟩,
      ⟨.symbol .rightParen, 16⟩, ⟨.symbol .colon, 17⟩, ⟨.number 0.0, 18⟩] := by decide +kernel
  rw [Formula.ofText, htokens]
  rfl

/-- **More than a unit is lost**: the nested conditional rounds each of its six values away, and with
them half of all rolls.  The outcome `1` is worth `5 / 3` of the `20` units and gets none. -/
theorem weightOf_conditional_sharedUnit :
    Formula.ofText "d20>10?(1>0?d6:0):0" = .ok sharedUnit ∧ sharedUnit.root.Branching
      ∧ sharedUnit.root.hasReference = false
      ∧ ∃ e result,
        sharedUnit.root.evaluateFormula ({ registry := sharedUnit.registry } : Settings ℚ) = .ok e
          ∧ e = .conditional result ∧ result.condition.total = 20
          ∧ e.distribution.weightOf 1 = 0 ∧ e.distribution.total = 10
          ∧ result.condition.total * sharedUnit.root.chance 1 = 5 / 3
          ∧ ¬ |e.distribution.weightOf 1 - result.condition.total * sharedUnit.root.chance 1| < 1 := by
  have hbranching : sharedUnit.root.Branching :=
    .conditional rfl (.dice ..) (.number _) (.group (.conditional rfl (.number _) (.number _)
      (.values (.dice ..)) (.values (.number _)))) (.values (.number _))
  refine ⟨ofText_sharedUnit, hbranching, rfl, ?_⟩
  have hvalues : (((sharedUnit.root.evaluateFormula
      ({ registry := sharedUnit.registry } : Settings ℚ)).toOption.bind Evaluation.conditional?).any
        fun result => decide (result.condition.total = 20 ∧ result.combined.weightOf 1 = 0
          ∧ result.combined.total = 10)) = true := by decide +kernel
  have hchance : sharedUnit.root.chance 1 = 1 / 12 := by decide +kernel
  cases he : sharedUnit.root.evaluateFormula ({ registry := sharedUnit.registry } : Settings ℚ) with
  | error _ => rw [he] at hvalues; cases hvalues
  | ok e =>
    rw [he] at hvalues
    cases e with
    | conditional result =>
      obtain ⟨htotal, hweight, hsum⟩ := of_decide_eq_true hvalues
      refine ⟨_, result, rfl, rfl, htotal, hweight, hsum, ?_, ?_⟩
      · rw [htotal, hchance]
        norm_num
      · rw [show (Evaluation.conditional result).distribution = result.combined from rfl, hweight,
          htotal, hchance]
        norm_num
    | _ => cases hvalues

end Formulas

end DiceOdds
