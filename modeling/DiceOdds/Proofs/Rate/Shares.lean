import DiceOdds.Proofs.Mixing.Divides
import DiceOdds.Proofs.Rate.Same

/-!
# A rate of zero changes no share

With exact mixing, a conditional that is split is mixed over a multiple of three totals where
otherwise there are two.  So its weights are not the same, but all of them are multiplied by the
same whole number, and this goes through every operation on independent values.

## Why the sides of a check are left alone

What a check calls critical is the difference between two readings of it, and only one of them
splits conditionals.  If they counted over different totals there would be a difference without any
critical face.  So a conditional whose total is changed must not stand in a side of a check
(`MixesExactly`).
-/

namespace DiceOdds

open Mixing (greatestExact)

variable {s : Settings ℚ} {split : SplitCheck ℚ} {ctx : Context}

/-! ## 1. Every weight is a whole number -/

namespace Node

theorem whole_die? (node : Node) {die : Distribution ℚ} {n : ℕ}
    (h : node.die? s ctx = .ok (some (die, n))) : die.Whole := by
  induction node using stripGroups.induct with
  | case1 inner ih => exact ih h
  | case2 node hnode =>
    cases node with
    | group inner => exact absurd rfl (hnode inner)
    | dice d id modifier =>
      rw [die?] at h
      split at h
      · cases h
      · obtain ⟨rolled, hrolled, h⟩ := bind_eq_ok.1 h
        cases pure_eq_ok.1 h
        exact Distribution.Counts.whole (counts_die (p := ⟨d, modifier⟩) (orBlame_eq_ok.1 hrolled))
    | _ => cases h

theorem whole_onlyDie? {items : List Node} {die : Distribution ℚ} {n : ℕ}
    (h : onlyDie? s ctx items = .ok (some (die, n))) : die.Whole := by
  match items, h with
  | [item], h => exact whole_die? item h

/-- **Evaluations have whole weights**: dice count rolls, and mixtures are rounded. -/
theorem whole_walk (hctx : ctx.pinned = none) (node : Node) {e : Evaluation ℚ}
    (he : node.walk s split ctx = .ok e) : e.distribution.Whole := by
  induction node using parts_induction generalizing ctx e with
  | h node ih =>
  cases node with
  | number value =>
    obtain ⟨v, -, rfl⟩ := walk_number_eq_ok he
    exact Distribution.whole_point v
  | dice d id modifier =>
    obtain ⟨x, hx, rfl⟩ := walk_dice_eq_ok (pinnedValue?_of_unpinned hctx _) he
    obtain ⟨die, hdie, hsum⟩ := roll_eq_ok hctx hx
    have hcounts := counts_die (p := ⟨d, modifier⟩) hdie
    exact Distribution.whole_sumOfCopies (Distribution.Counts.whole hcounts) hsum
  | reference id critical =>
    obtain ⟨x, hx, rfl⟩ := walk_reference_eq_ok he
    obtain ⟨d, -, hsum⟩ := reference_eq_ok hctx hx
    exact Distribution.whole_sumOfCopies
      (Distribution.Counts.whole (Distribution.counts_ofFaces d fun _ => true)) hsum
  | keep kind count items =>
    obtain ⟨only?, values, d, honly, hvalues, hd, rfl⟩ :=
      walk_keep_eq_ok (pinnedValue?_of_unpinned hctx _) he
    refine Distribution.whole_keep (fun x hx => ?_) hd
    cases only? with
    | none =>
      obtain ⟨item, hitem, i, hi, rfl⟩ := exists_of_mem_walkAll hvalues hx
      exact ih item hitem hctx hi
    | some only =>
      obtain rfl : values = List.replicate only.2 only.1 := hvalues
      obtain rfl := List.eq_of_mem_replicate hx
      exact whole_onlyDie? honly
  | comparison relation left right =>
    obtain ⟨l, r, check, critical, hl, hr, hcompare, rfl⟩ := walk_comparison_any_eq_ok he
    have hwl := ih left (by simp [parts]) hctx hl
    have hwr := ih right (by simp [parts]) hctx hr
    have hcheck := Distribution.whole_compare hwl hwr hcompare
    exact hcheck
  | conditional condition ifTrue ifFalse =>
    obtain ⟨check, -, ⟨_, _, _, _, -, -, -, -, rfl⟩ | ⟨_, _, -, -, -, rfl⟩⟩ :=
      walk_conditional_eq_ok he
    · exact Distribution.whole_rounded _
    · exact Distribution.whole_rounded _
  | binary operation left right =>
    obtain ⟨l, r, d, part, hl, hr, hd, rfl⟩ := walk_binary_eq_ok he
    have hwl := ih left (by simp [parts]) hctx hl
    have hwr := ih right (by simp [parts]) hctx hr
    rcases evaluationCombine_eq_ok hd with hd | ⟨_, hd⟩ | ⟨_, hd⟩
    · exact Distribution.whole_combine hwl hwr hd
    · exact Distribution.whole_tryMap hwr hd
    · exact Distribution.whole_tryMap hwl hd
  | double inner =>
    obtain ⟨i, d, hi, rfl, hd⟩ := walk_double_eq_ok he
    have hinner := ih inner (by simp [parts]) hctx hi
    split at hd
    · obtain ⟨part, hd⟩ := hd
      exact Distribution.whole_tryMap hinner hd
    · rwa [← hd] at hinner
  | switch normal critical =>
    obtain ⟨i, hi, rfl⟩ := walk_switch_eq_ok he
    have hinner : i.distribution.Whole := by
      split at hi
      · exact ih critical (by simp [parts]) hctx hi
      · exact ih normal (by simp [parts]) hctx hi
    exact hinner
  | only inner =>
    have he := walk_only_eq_ok he
    split at he
    · obtain ⟨i, hi, rfl⟩ := he
      have hinner := ih inner (by simp [parts]) hctx hi
      exact hinner
    · subst he
      exact Distribution.whole_point 0
  | function name args =>
    obtain ⟨target, threshold, values, bound, clamped?, rfl, -, -, hclamped, he⟩ :=
      walk_function_any_eq_ok he
    cases clamped? with
    | none =>
      obtain ⟨t, ht, rfl⟩ := he
      exact Distribution.whole_map (ih target (by simp [parts]) hctx ht) _
    | some clamped =>
      obtain rfl : e = .plain clamped := he
      rcases clampEach_eq_ok hctx hclamped with
        ⟨-, hnone⟩ | ⟨-, _, hfound, ⟨-, hnone⟩ | ⟨die, n, sum, rfl, hsum, hclamped⟩⟩
      · cases hnone
      · cases hnone
      · obtain rfl := Option.some.inj hclamped
        exact Distribution.whole_sumOfCopies
          (Distribution.whole_map (whole_die? target hfound) _) hsum
  | group inner =>
    rw [walk_group] at he
    exact ih inner (by simp [parts]) hctx he

end Node

/-! ## 2. Multiples -/

namespace Distribution

variable {x y x' y' z z' : Distribution ℚ}

/-- All weights of `x` are those of `y`, multiplied by the same whole number. -/
structure MultipleOf (x y : Distribution ℚ) : Prop where
  nonneg : x.Nonneg
  nonneg_base : y.Nonneg
  exists_factor : ∃ k : ℕ, 0 < k ∧ ∀ f : Outcome → ℚ, x.sumOver f = k * y.sumOver f

theorem MultipleOf.refl (h : x.Nonneg) : x.MultipleOf x :=
  ⟨h, h, 1, Nat.one_pos, fun f => by rw [Nat.cast_one, one_mul]⟩

/-- Multiples have the same shares. -/
theorem MultipleOf.mean_eq (h : x.MultipleOf y) (f : Outcome → ℚ) :
    x.sumOver f / x.total = y.sumOver f / y.total := by
  obtain ⟨k, hk, hsum⟩ := h.exists_factor
  rw [total_eq_sumOver, total_eq_sumOver, hsum, hsum,
    mul_div_mul_left _ _ (Nat.cast_ne_zero.2 hk.ne')]

/-- Of two single outcomes, one a multiple of the other, there is only one. -/
theorem MultipleOf.point_eq (h : x.MultipleOf y) (hx : x.Positive) {u v : Outcome}
    (hu : x.point? = some u) (hv : y.point? = some v) : u = v := by
  obtain ⟨k, -, hsum⟩ := h.exists_factor
  by_contra hne
  have hzero := hsum fun w => if w = u then 1 else 0
  rw [sumOver_of_point? hu, sumOver_of_point? hv, if_pos rfl, if_neg (Ne.symm hne), mul_one,
    mul_zero, mul_zero] at hzero
  exact (hx.total_pos hu).ne' hzero

theorem MultipleOf.total_dvd (h : x.MultipleOf y) {m n : ℕ} (hx : x.total = m)
    (hy : y.total = n) : n ∣ m := by
  obtain ⟨k, -, hsum⟩ := h.exists_factor
  have hprod := hsum fun _ => 1
  rw [← total_eq_sumOver, ← total_eq_sumOver, hx, hy, ← Nat.cast_mul, Nat.cast_inj] at hprod
  exact hprod ▸ Dvd.intro_left k rfl

theorem MultipleOf.map (h : x.MultipleOf y) (m : Outcome → Outcome) :
    (x.map m).MultipleOf (y.map m) := by
  obtain ⟨k, hk, hsum⟩ := h.exists_factor
  refine ⟨nonneg_map x m, nonneg_map y m, k, hk, fun f => ?_⟩
  rw [sumOver_map h.nonneg, sumOver_map h.nonneg_base, hsum]

section Partial

variable {ε : Type}

theorem MultipleOf.tryMap {m n : Outcome → Except ε Outcome} (h : x.MultipleOf y)
    (value? : Outcome → Option Outcome) (hm : ∀ v c, m v = .ok c → value? v = some c)
    (hn : ∀ v c, n v = .ok c → value? v = some c) (hx : x.tryMap m = .ok x')
    (hy : y.tryMap n = .ok y') : x'.MultipleOf y' := by
  obtain ⟨k, hk, hsum⟩ := h.exists_factor
  refine ⟨nonneg_tryMap hx, nonneg_tryMap hy, k, hk, fun f => ?_⟩
  rw [sumOver_tryMap (f := fun v => (value? v).elim 0 f)
      (fun v c hc => by rw [hm v c hc, Option.elim_some]) h.nonneg hx,
    sumOver_tryMap (f := fun v => (value? v).elim 0 f)
      (fun v c hc => by rw [hn v c hc, Option.elim_some]) h.nonneg_base hy, hsum]

theorem MultipleOf.combine {op op' : Outcome → Outcome → Except ε Outcome}
    {value? : Outcome → Outcome → Option Outcome} (hx : x.MultipleOf x') (hy : y.MultipleOf y')
    (hop : ∀ a b c, op a b = .ok c → value? a b = some c)
    (hop' : ∀ a b c, op' a b = .ok c → value? a b = some c)
    (h : x.combine y op = .ok z) (h' : x'.combine y' op' = .ok z') : z.MultipleOf z' := by
  obtain ⟨k, hk, hsumx⟩ := hx.exists_factor
  obtain ⟨l, hl, hsumy⟩ := hy.exists_factor
  refine ⟨nonneg_combine h, nonneg_combine h', k * l, Nat.mul_pos hk hl, fun f => ?_⟩
  rw [sumOver_combine (f := fun a b => (value? a b).elim 0 f)
      (fun a b c hc => by rw [hop a b c hc, Option.elim_some]) hx.nonneg hy.nonneg h,
    sumOver_combine (f := fun a b => (value? a b).elim 0 f)
      (fun a b c hc => by rw [hop' a b c hc, Option.elim_some]) hx.nonneg_base hy.nonneg_base h']
  simp only [hsumx, hsumy, sumOver_mul]
  push_cast
  ring

end Partial

theorem exists_factor_sumOverAll {ds es : List (Distribution ℚ)}
    (h : List.Forall₂ MultipleOf ds es) :
    ∃ k : ℕ, 0 < k ∧ ∀ f, sumOverAll ds f = k * sumOverAll es f := by
  induction h with
  | nil => exact ⟨1, Nat.one_pos, fun f => by rw [Nat.cast_one, one_mul]⟩
  | cons hd _ ih =>
    obtain ⟨k, hk, hsum⟩ := hd.exists_factor
    obtain ⟨l, hl, hall⟩ := ih
    refine ⟨k * l, Nat.mul_pos hk hl, fun f => ?_⟩
    simp only [sumOverAll, hsum, hall, sumOver_mul]
    push_cast
    ring

theorem MultipleOf.keep {ds es : List (Distribution ℚ)} {count : ℕ} {kind : KeepKind}
    (hitems : List.Forall₂ MultipleOf ds es) (h : keep ds count kind = .ok z)
    (h' : Distribution.keep es count kind = .ok z') : z.MultipleOf z' := by
  obtain ⟨k, hk, hall⟩ := exists_factor_sumOverAll hitems
  have hnonneg : (∀ d ∈ ds, d.Nonneg) ∧ ∀ e ∈ es, e.Nonneg := by
    clear h h' hall
    induction hitems with
    | nil => simp
    | cons hd _ ih =>
      exact ⟨List.forall_mem_cons.2 ⟨hd.nonneg, ih.1⟩,
        List.forall_mem_cons.2 ⟨hd.nonneg_base, ih.2⟩⟩
  refine ⟨(positive_keep h).nonneg, (positive_keep h').nonneg, k, hk, fun f => ?_⟩
  have hsum := sumOver_keep hnonneg.1 h fun i => (Outcome.ofHundredths? i).elim 0 f
  have hsum' := sumOver_keep hnonneg.2 h' fun i => (Outcome.ofHundredths? i).elim 0 f
  simp only [Outcome.ofHundredths?_hundredths, Option.elim_some] at hsum hsum'
  rw [hsum, hsum', hall]

end Distribution

/-! ## 3. Mixtures over multiples -/

/-- A mixture of the same shares over a multiple of the total. -/
theorem multipleOf_wholeBlend {branches branches' : List WholeBranch} {condition : ℕ}
    (hone : 1 ≤ condition) (hdvd : commonMultiple branches ∣ commonMultiple branches')
    (hshares : ∀ f : Outcome → ℚ,
      (branches'.map fun b => (b.cases : ℚ) / condition * (b.values.sumOver f / b.values.total)).sum
        = (branches.map fun b =>
            (b.cases : ℚ) / condition * (b.values.sumOver f / b.values.total)).sum) :
    (wholeBlend branches' condition).rounded.MultipleOf
      (wholeBlend branches condition).rounded := by
  have hcondition : (condition : ℚ) ≠ 0 := Nat.cast_ne_zero.2 (by omega)
  have hblend : ∀ (bs : List WholeBranch) (f : Outcome → ℚ),
      (wholeBlend bs condition).rounded.sumOver f = condition * commonMultiple bs * (bs.map fun b =>
        (b.cases : ℚ) / condition * (b.values.sumOver f / b.values.total)).sum := by
    intro bs f
    rw [(whole_wholeBlend hone).sumOver_rounded, sumOver_wholeBlend hone, ← List.sum_map_mul_left]
    refine congrArg List.sum (List.map_congr_left fun b hb => ?_)
    have htotal : (b.total : ℚ) ≠ 0 := Nat.cast_ne_zero.2 (by have := b.one_le_total; omega)
    rw [b.total_eq, Nat.cast_mul, Nat.cast_div (total_dvd hb) htotal]
    field_simp
  have hne : commonMultiple branches' ≠ 0 := commonMultiple_ne_zero
  obtain ⟨k, hk⟩ := hdvd
  have hpos : 0 < k := Nat.pos_of_ne_zero fun hzero => hne (by rw [hk, hzero, mul_zero])
  refine ⟨(Distribution.positive_rounded _).nonneg, (Distribution.positive_rounded _).nonneg, k,
    hpos, fun f => ?_⟩
  rw [hblend, hblend, hshares, hk, Nat.cast_mul]
  ring

/-- Whole weights, whole totals and whole numbers of cases. -/
theorem exists_wholeBranches {condition : ℕ} {parts : List (ℚ × Distribution ℚ)}
    {cases totals : List ℕ}
    (hcases : parts.map Prod.fst = cases.map fun n : ℕ => (n : ℚ) / condition)
    (htotals : parts.map (fun part => part.2.total) = totals.map Nat.cast)
    (hwhole : ∀ part ∈ parts, part.2.Whole) (hbounds : ∀ t ∈ totals, 1 ≤ t ∧ t < greatestExact) :
    ∃ branches : List WholeBranch,
      parts = branches.map (fun b => ((b.cases : ℚ) / condition, b.values))
        ∧ branches.map WholeBranch.total = totals := by
  induction parts generalizing cases totals with
  | nil =>
    obtain rfl : totals = [] := List.map_eq_nil_iff.1 htotals.symm
    exact ⟨[], rfl, rfl⟩
  | cons part rest ih =>
    obtain ⟨n, ns, rfl, hn, hns⟩ := List.map_eq_cons_iff.1 hcases.symm
    obtain ⟨t, ts, rfl, ht, hts⟩ := List.map_eq_cons_iff.1 htotals.symm
    obtain ⟨hpart, hrest⟩ := List.forall_mem_cons.1 hwhole
    obtain ⟨hbound, hbounds⟩ := List.forall_mem_cons.1 hbounds
    obtain ⟨branches, hbranches, htotal⟩ := ih hns.symm hts.symm hrest hbounds
    refine ⟨⟨n, part.2, t, hpart, ht.symm, hbound.1, hbound.2⟩ :: branches, ?_, ?_⟩
    · have hfirst : part = ((n : ℚ) / condition, part.2) := Prod.ext hn.symm rfl
      rw [List.map_cons, ← hbranches]
      exact congrArg (· :: rest) hfirst
    · rw [List.map_cons, htotal]

/-- Branches that others are multiples of can be scaled to a divisor of the total of these. -/
theorem exists_dividingBranches {condition : ℕ} {parts : List (ℚ × Distribution ℚ)}
    {cases : List ℕ} {branches' : List WholeBranch}
    (hcases : parts.map Prod.fst = cases.map fun n : ℕ => (n : ℚ) / condition)
    (hwhole : ∀ part ∈ parts, part.2.Whole)
    (hmultiple : ∀ part ∈ parts, ∃ b ∈ branches', b.values.MultipleOf part.2) :
    ∃ branches : List WholeBranch,
      parts = branches.map (fun b => ((b.cases : ℚ) / condition, b.values))
        ∧ commonMultiple branches ∣ commonMultiple branches' := by
  have hdivides : ∀ part ∈ parts, ∃ t : ℕ, part.2.total = t ∧ ∃ b ∈ branches', t ∣ b.total := by
    intro part hpart
    obtain ⟨b, hb, hmultiple⟩ := hmultiple part hpart
    obtain ⟨t, ht⟩ := (hwhole part hpart).sumOver fun _ => ⟨1, Nat.cast_one.symm⟩
    rw [← Distribution.total_eq_sumOver] at ht
    exact ⟨t, ht, b, hb, hmultiple.total_dvd b.total_eq ht⟩
  choose! total htotal hdvd using hdivides
  have hmap : parts.map (fun part => part.2.total) = (parts.map total).map Nat.cast := by
    rw [List.map_map]
    exact List.map_congr_left htotal
  obtain ⟨branches, hbranches, htotals⟩ := exists_wholeBranches hcases hmap hwhole fun t ht => by
    obtain ⟨part, hpart, rfl⟩ := List.mem_map.1 ht
    obtain ⟨b, -, hdvd⟩ := hdvd part hpart
    exact ⟨Nat.pos_of_dvd_of_pos hdvd b.one_le_total,
      (Nat.le_of_dvd b.one_le_total hdvd).trans_lt b.total_lt⟩
  refine ⟨branches, hbranches, ?_⟩
  rw [commonMultiple, htotals, Multiset.lcm_dvd]
  intro t ht
  obtain ⟨part, hpart, rfl⟩ := List.mem_map.1 (Multiset.mem_coe.1 ht)
  obtain ⟨b, hb, hdvd⟩ := hdvd part hpart
  exact hdvd.trans (total_dvd hb)

/-- **The mixture of a conditional over a multiple of its total.**  Where the branches have the same
shares in both readings, and each branch of the second one is there in the first as a multiple, the
first reading is a multiple of the second. -/
theorem multipleOf_conditional {s₀ : Settings ℚ} {split₀ : SplitCheck ℚ}
    {node ifTrue ifFalse : Node} {e e' : Evaluation ℚ} {check check' : Check ℚ}
    {cases cases' : List ℕ}
    (hexact : s.mixing = .exact) (hexact₀ : s₀.mixing = .exact)
    (he' : (Node.conditional node ifTrue ifFalse).walk s split ctx = .ok e')
    (he : (Node.conditional node ifTrue ifFalse).walk s₀ split₀ ctx = .ok e)
    (hcheck' : node.walk s split ctx = .ok (.check check'))
    (hcheck : node.walk s₀ split₀ ctx = .ok (.check check)) (htotal : check'.total = check.total)
    (hcases' : e'.branches.map Prod.fst = cases'.map fun n : ℕ => (n : ℚ) / check.total)
    (hcases : e.branches.map Prod.fst = cases.map fun n : ℕ => (n : ℚ) / check.total)
    (hwhole' : ∀ branch ∈ e'.branches, branch.2.Whole)
    (hwhole : ∀ branch ∈ e.branches, branch.2.Whole)
    (hbranches : ∀ branch ∈ e.branches, ∃ branch' ∈ e'.branches, branch'.2.MultipleOf branch.2)
    (hshares : ∀ f : Outcome → ℚ,
      (e'.branches.map fun branch => branch.1 * (branch.2.sumOver f / branch.2.total)).sum
        = (e.branches.map fun branch => branch.1 * (branch.2.sumOver f / branch.2.total)).sum)
    (hcommon : (Mixing.commonTotal? check'.total
      (e'.branches.map fun branch => branch.2.total)).isSome = true) :
    e'.distribution.MultipleOf e.distribution := by
  obtain ⟨common, hcommon⟩ := Option.isSome_iff_exists.1 hcommon
  obtain ⟨base, totals', hbase, htotals', hone, hlt, hbounds', rfl, hle⟩ :=
    Mixing.of_commonTotal? hcommon
  have hbase₀ : check.total = base := htotal.symm.trans hbase
  rw [hbase₀] at hcases hcases'
  obtain ⟨blend', hblend', htotal'⟩ := exists_wholeBranches hcases' htotals' hwhole' hbounds'
  have hmultiple : ∀ branch ∈ e.branches, ∃ b ∈ blend', b.values.MultipleOf branch.2 := by
    intro branch hbranch
    obtain ⟨branch', hbranch', hmultiple⟩ := hbranches branch hbranch
    rw [hblend'] at hbranch'
    obtain ⟨b, hb, rfl⟩ := List.mem_map.1 hbranch'
    exact ⟨b, hb, hmultiple⟩
  obtain ⟨blend, hblend, hdvd⟩ := exists_dividingBranches hcases hwhole hmultiple
  have hle' : base * commonMultiple blend' ≤ greatestExact := by
    rwa [commonMultiple, htotal']
  have hpos : 0 < commonMultiple blend' := Nat.pos_of_ne_zero commonMultiple_ne_zero
  rw [distribution_eq_wholeBlend hexact he' hcheck' hbase hone hlt hblend' hle',
    distribution_eq_wholeBlend hexact₀ he hcheck hbase₀ hone hlt hblend
      ((Nat.mul_le_mul_left _ (Nat.le_of_dvd hpos hdvd)).trans hle')]
  refine multipleOf_wholeBlend hone hdvd fun f => ?_
  have hshares := hshares f
  rw [hblend, hblend', List.map_map, List.map_map] at hshares
  exact hshares

/-! ## 4. The walk -/

/-- The values of one evaluation are a multiple of those of another one, checks are the same, and
there are no critical hits. -/
structure Evaluation.MultipleOf (e' e : Evaluation ℚ) : Prop where
  values : e'.distribution.MultipleOf e.distribution
  checks : e'.SameAs e ∨ e'.chance? = none ∧ e.chance? = none
  noHits : e'.NoHits

namespace Evaluation.MultipleOf

variable {e e' l l' r r' : Evaluation ℚ}

theorem of_sameAs (h : e'.SameAs e) (he : e.distribution.Nonneg) : e'.MultipleOf e :=
  ⟨by rw [h.distribution]; exact .refl he, .inl h, h.noHits⟩

theorem plain {x y : Distribution ℚ} (h : x.MultipleOf y) :
    (Evaluation.plain x).MultipleOf (.plain y) :=
  ⟨h, .inr ⟨rfl, rfl⟩, .plain x⟩

theorem chance?_eq (h : e'.MultipleOf e) : e'.chance? = e.chance? :=
  h.checks.elim SameAs.chance?_eq fun ⟨h', h⟩ => h'.trans h.symm

theorem sameAs_of_check {check : Check ℚ} (h : (Evaluation.check check).MultipleOf e) :
    (Evaluation.check check).SameAs e :=
  h.checks.resolve_right fun hnone => nomatch hnone.1

theorem combine {operation : Operation} {part part' : Unit → String} {d d' : Distribution ℚ}
    (hl : l'.MultipleOf l) (hr : r'.MultipleOf r) (h' : l'.combine operation r' part' = .ok d')
    (h : l.combine operation r part = .ok d) : d'.MultipleOf d := by
  have hscaled : ∀ {x x' : Distribution ℚ} {p : ℚ}, x'.MultipleOf x →
      x'.tryMap (scaledValue p part') = .ok d' → x.tryMap (scaledValue p part) = .ok d →
        d'.MultipleOf d := fun {_ _ p} hx h' h =>
    hx.tryMap (fun v => Outcome.ofWeight? (v.toWeight * p)) (fun _ _ => scaledValue_eq_ok)
      (fun _ _ => scaledValue_eq_ok) h' h
  have hindependent : ∀ {operation : Operation},
      (do orBlame (← l'.distribution.combine r'.distribution
        (operation.apply part')).checkWeights part') = .ok d' →
      (do orBlame (← l.distribution.combine r.distribution
        (operation.apply part)).checkWeights part) = .ok d → d'.MultipleOf d := by
    intro operation h' h
    obtain ⟨values, hvalues, h⟩ := bind_eq_ok.1 h
    obtain ⟨values', hvalues', h'⟩ := bind_eq_ok.1 h'
    obtain rfl : values = d := by simpa using orBlame_eq_ok.1 h
    obtain rfl : values' = d' := by simpa using orBlame_eq_ok.1 h'
    exact hl.values.combine hr.values (fun _ _ _ => Operation.apply_eq_ok)
      (fun _ _ _ => Operation.apply_eq_ok) hvalues' hvalues
  rw [Evaluation.combine_eq] at h h'
  rw [hl.chance?_eq, hr.chance?_eq] at h'
  generalize l.chance? = p?, r.chance? = q? at h h'
  match operation, p?, q?, h, h' with
  | .mul, some p, _, h, h' => exact hscaled hr.values h' h
  | .mul, none, some p, h, h' => exact hscaled hl.values h' h
  | .mul, none, none, h, h' => exact hindependent h' h
  | .add, _, _, h, h' => exact hindependent h' h
  | .sub, _, _, h, h' => exact hindependent h' h
  | .div, _, _, h, h' => exact hindependent h' h

end Evaluation.MultipleOf

/-- The answers of a check in whole weights have whole numbers of cases. -/
theorem Check.exists_cases {check : Check ℚ} (hs : 0 ≤ check.success) (hf : 0 ≤ check.failure)
    (hwhole : check.distribution.Whole) (hne : check.total ≠ 0) :
    ∃ yes no : ℕ, check.successProbability = yes / check.total
      ∧ 1 - check.successProbability = no / check.total := by
  obtain ⟨⟨yes, hyes⟩, no, hno⟩ := check.exists_natCast hs hf hwhole
  have hshare : check.successProbability = yes / check.total := by
    rw [Check.successProbability, Check.share_eq, hyes]
  refine ⟨yes, no, hshare, ?_⟩
  rw [hshare, sub_eq_iff_eq_add, ← add_div, ← hyes, ← hno, add_comm]
  exact (div_self hne).symm

namespace Node

/-- Without a rate a conditional has two branches. -/
theorem walk_conditional_withoutRate {condition ifTrue ifFalse : Node} {e : Evaluation ℚ}
    (he : (conditional condition ifTrue ifFalse).evaluate s.withoutRate {} = .ok e) :
    ∃ check yes no, condition.evaluate s.withoutRate {} = .ok (.check check)
      ∧ ifTrue.evaluate s.withoutRate {} = .ok yes ∧ ifFalse.evaluate s.withoutRate {} = .ok no
      ∧ e = .conditional (.ofBranches s.mixing condition.text check yes no) := by
  obtain ⟨check, hcheck, ⟨_, _, _, _, hsplit, -⟩ | ⟨yes, no, -, hyes, hno, rfl⟩⟩ :=
    walk_conditional_eq_ok he
  · rw [unsplit_of_walk hcheck (s.calm_withoutRate {}).unsplit] at hsplit
    cases hsplit
  · exact ⟨check, yes, no, hcheck, hyes, hno, rfl⟩

/-- What the parts of a conditional come to, its branches come to. -/
theorem forall_branches {P : Distribution ℚ → Prop} {condition ifTrue ifFalse : Node}
    {e : Evaluation ℚ} (he : (conditional condition ifTrue ifFalse).evaluate s ctx = .ok e)
    (htrue : ∀ critical e, ifTrue.evaluate s (ctx.critical critical) = .ok e → P e.distribution)
    (hfalse : ∀ e, ifFalse.evaluate s ctx = .ok e → P e.distribution) :
    ∀ branch ∈ e.branches, P branch.2 := by
  obtain ⟨check, -, ⟨shares, normalHit, criticalHit, miss, -, hn, hc, hm, rfl⟩
    | ⟨yes, no, -, hy, hn, rfl⟩⟩ := walk_conditional_eq_ok he
  · have hnormal := htrue false _ hn
    have hcritical := htrue true _ hc
    have hmiss := hfalse _ hm
    simp [Evaluation.branches, CriticalResult.ofBranches, hnormal, hcritical, hmiss]
  · have hyes := htrue ctx.criticalBranch _ hy
    have hno := hfalse _ hn
    simp [Evaluation.branches, ConditionalResult.ofBranches, hyes, hno]

theorem whole_branches (hctx : ctx.pinned = none) {condition ifTrue ifFalse : Node}
    {e : Evaluation ℚ} (he : (conditional condition ifTrue ifFalse).evaluate s ctx = .ok e) :
    ∀ branch ∈ e.branches, branch.2.Whole :=
  forall_branches he
    (fun critical _ h => whole_walk (show (ctx.critical critical).pinned = none from hctx) ifTrue h)
    fun _ h => whole_walk hctx ifFalse h

/-- The mixtures of a conditional at a rate of zero and without a rate. -/
theorem multipleOf_conditional_zero {condition ifTrue ifFalse : Node} {e' e : Evaluation ℚ}
    {check' check : Check ℚ} (hexact : s.mixing = .exact)
    (he' : (conditional condition ifTrue ifFalse).evaluate s {} = .ok e')
    (he : (conditional condition ifTrue ifFalse).evaluate s.withoutRate {} = .ok e)
    (hcheck' : condition.evaluate s {} = .ok (.check check'))
    (hcheck : condition.evaluate s.withoutRate {} = .ok (.check check))
    (hsame : (Evaluation.check check').SameAs (.check check))
    (htrue : ∀ {yes' yes}, ifTrue.evaluate s {} = .ok yes' →
      ifTrue.evaluate s.withoutRate {} = .ok yes → yes'.distribution.MultipleOf yes.distribution)
    (hfalse : ∀ {no' no}, ifFalse.evaluate s {} = .ok no' →
      ifFalse.evaluate s.withoutRate {} = .ok no → no'.distribution.MultipleOf no.distribution)
    (hcommon : (Mixing.commonTotal? check'.total
      (e'.branches.map fun branch => branch.2.total)).isSome = true) :
    e'.distribution.MultipleOf e.distribution := by
  obtain ⟨_, h, hsuccess, hfailure, hnever⟩ := hsame.check
  cases h
  have htotal : check'.total = check.total := by rw [Check.total, hsuccess, hfailure, Check.total]
  have hshare' : check'.successProbability = check.successProbability := by
    rw [Check.successProbability, Check.successProbability, Check.share_eq, Check.share_eq,
      hsuccess, htotal]
  have hne : check.total ≠ 0 := by
    obtain ⟨common, hcommon⟩ := Option.isSome_iff_exists.1 hcommon
    obtain ⟨base, -, hbase, -, hone, -⟩ := Mixing.of_commonTotal? hcommon
    rw [← htotal, hbase]
    exact Nat.cast_ne_zero.2 (by omega)
  obtain ⟨hs, hf⟩ := nonneg_of_walk hcheck
  obtain ⟨a, c, hyesShare, hnoShare⟩ :=
    Check.exists_cases hs hf (whole_walk rfl condition hcheck) hne
  have hexact₀ : s.withoutRate.mixing = .exact := hexact
  have hwhole' := whole_branches rfl he'
  have hwhole := whole_branches rfl he
  obtain ⟨_, yes, no, hc, hyes, hno, rfl⟩ := walk_conditional_withoutRate he
  obtain rfl := Evaluation.check.inj (Except.ok.inj (hcheck.symm.trans hc))
  have hcases : (Evaluation.conditional (.ofBranches s.mixing condition.text check yes
      no)).branches.map Prod.fst = [a, c].map fun n : ℕ => (n : ℚ) / check.total := by
    simp only [Evaluation.branches, ConditionalResult.ofBranches, List.map_cons, List.map_nil,
      hyesShare, ← hnoShare]
  obtain ⟨_, hc', hcases'⟩ := walk_conditional_eq_ok he'
  obtain rfl := Evaluation.check.inj (Except.ok.inj (hcheck'.symm.trans hc'))
  rcases hcases' with
    ⟨shares, normalHit, criticalHit, miss, hshares, hnormal, -, hmiss, rfl⟩
    | ⟨yes', no', -, hyes', hno', rfl⟩
  · obtain rfl := hnever shares hshares
    have hyes' := htrue hnormal hyes
    have hno' := hfalse hmiss hno
    have hthree : (Evaluation.critical (.ofBranches s.mixing condition.text check' check'.harmless
        normalHit criticalHit miss)).branches.map Prod.fst
          = [a, 0, c].map fun n : ℕ => (n : ℚ) / check.total := by
      simp only [Evaluation.branches, CriticalResult.ofBranches, List.map_cons, List.map_nil,
        check'.harmless_eq (htotal ▸ hne), hshare', hyesShare, ← hnoShare, Nat.cast_zero, zero_div]
    refine multipleOf_conditional hexact hexact₀ he' he hcheck' hcheck htotal hthree hcases hwhole'
      hwhole ?_ ?_ hcommon
    · simp only [Evaluation.branches, CriticalResult.ofBranches, ConditionalResult.ofBranches,
        List.forall_mem_cons, List.exists_mem_cons_iff]
      exact ⟨.inl hyes', .inr (.inr (.inl hno')), List.forall_mem_nil _⟩
    · intro f
      simp only [Evaluation.branches, CriticalResult.ofBranches, ConditionalResult.ofBranches,
        check'.harmless_eq (htotal ▸ hne), hshare', List.map_cons, List.map_nil, List.sum_cons,
        List.sum_nil, hyes'.mean_eq, hno'.mean_eq, zero_mul, zero_add]
  · have hyes' := htrue hyes' hyes
    have hno' := hfalse hno' hno
    have htwo : (Evaluation.conditional (.ofBranches s.mixing condition.text check' yes'
        no')).branches.map Prod.fst = [a, c].map fun n : ℕ => (n : ℚ) / check.total := by
      simp only [Evaluation.branches, ConditionalResult.ofBranches, List.map_cons, List.map_nil,
        hshare', hyesShare, ← hnoShare]
    refine multipleOf_conditional hexact hexact₀ he' he hcheck' hcheck htotal htwo hcases hwhole'
      hwhole ?_ ?_ hcommon
    · simp only [Evaluation.branches, ConditionalResult.ofBranches, List.forall_mem_cons,
        List.exists_mem_cons_iff]
      exact ⟨.inl hyes', .inr (.inl hno'), List.forall_mem_nil _⟩
    · intro f
      simp only [Evaluation.branches, ConditionalResult.ofBranches, hshare', List.map_cons,
        List.map_nil, List.sum_cons, List.sum_nil, hyes'.mean_eq, hno'.mean_eq]

/-- With exact mixing, a loud conditional is mixed within the bounds of exact numbers, and it does
not stand in a side of a check. -/
structure MixesExactly (s : Settings ℚ) (node : Node) : Prop where
  checks : ∀ relation left right, comparison relation left right ∈ node.subterms →
    (comparison relation left right).subterms.any isLoud = false
  mixes : ∀ condition ifTrue ifFalse, conditional condition ifTrue ifFalse ∈ node.subterms →
    (conditional condition ifTrue ifFalse).subterms.any isLoud = true → ∀ e check,
    (conditional condition ifTrue ifFalse).evaluate s {} = .ok e →
    condition.evaluate s {} = .ok (.check check) →
    (Mixing.commonTotal? check.total (e.branches.map fun branch => branch.2.total)).isSome = true

theorem MixesExactly.part {node part : Node} (h : node.MixesExactly s) (hpart : part ∈ node.parts) :
    part.MixesExactly s where
  checks relation left right hn :=
    h.checks relation left right (subterms_subset_of_mem_parts hpart hn)
  mixes condition ifTrue ifFalse hn :=
    h.mixes condition ifTrue ifFalse (subterms_subset_of_mem_parts hpart hn)

theorem forall₂_walkAll {s₀ : Settings ℚ} {split₀ : SplitCheck ℚ} {ctx₀ : Context}
    {items : List Node} {ds' ds : List (Distribution ℚ)}
    {R : Distribution ℚ → Distribution ℚ → Prop} (h' : walkAll s split items ctx = .ok ds')
    (h : walkAll s₀ split₀ items ctx₀ = .ok ds)
    (hitem : ∀ item ∈ items, ∀ e' e, item.walk s split ctx = .ok e' →
      item.walk s₀ split₀ ctx₀ = .ok e → R e'.distribution e.distribution) :
    List.Forall₂ R ds' ds := by
  have hall' := walkAll_eq_ok.1 h'
  have hall := walkAll_eq_ok.1 h
  clear h h'
  induction hall' generalizing ds with
  | nil =>
    cases hall
    exact .nil
  | cons hfirst' _ ih =>
    obtain ⟨e', he', rfl⟩ := hfirst'
    obtain _ | ⟨⟨e, he, rfl⟩, hrest⟩ := hall
    exact .cons (hitem _ (List.mem_cons_self ..) _ _ he' he)
      (ih (fun item hi => hitem item (List.mem_cons_of_mem _ hi)) hrest)

/-- What the node comes to at a rate of zero has the shares of what it comes to without one. -/
def MultipleAtZero (s : Settings ℚ) (node : Node) : Prop :=
  ∀ e' e, node.evaluate s {} = .ok e' → node.evaluate s.withoutRate {} = .ok e → e'.MultipleOf e

theorem multipleAtZero_keep (hrate : s.rate = some 0) (kind : KeepKind) (count : UInt32)
    {items : List Node} (hfits : ∀ item ∈ items, item.Fits)
    (hitem : ∀ item ∈ items, item.MultipleAtZero s) : (keep kind count items).MultipleAtZero s := by
  intro e' e he' he
  obtain ⟨only?, values, x, honly, hvalues, hx, rfl⟩ :=
    walk_keep_eq_ok (pinnedValue?_of_unpinned rfl _) he
  obtain ⟨only?', values', x', honly', hvalues', hx', rfl⟩ :=
    walk_keep_eq_ok (pinnedValue?_of_unpinned rfl _) he'
  rcases onlyDie?_calm hrate (s.calm_withoutRate {}) rfl rfl hfits honly' honly with
    ⟨rfl, rfl⟩ | ⟨die', die, n, rfl, rfl, hdie⟩
  · exact .plain (.keep (forall₂_walkAll hvalues' hvalues fun item hmem e' e h' h =>
      (hitem item hmem e' e h' h).values) hx' hx)
  · obtain rfl : values = List.replicate n die := hvalues
    obtain rfl : values' = List.replicate n die' := hvalues'
    rw [Distribution.keep_replicate_congr hdie, hx] at hx'
    cases hx'
    exact .plain (.refl (Distribution.positive_keep hx).nonneg)

/-- Where critical hits have a share of their own, that share is zero. -/
theorem multipleAtZero_conditional (hexact : s.mixing = .exact) {condition ifTrue ifFalse : Node}
    (hmix : (conditional condition ifTrue ifFalse).MixesExactly s)
    (hloud : (conditional condition ifTrue ifFalse).subterms.any isLoud = true)
    (hcondition : condition.MultipleAtZero s) (htrue : ifTrue.MultipleAtZero s)
    (hfalse : ifFalse.MultipleAtZero s) :
    (conditional condition ifTrue ifFalse).MultipleAtZero s := by
  intro e' e he' he
  obtain ⟨check, yes, no, hcheck, hyes, hno, hplain⟩ := walk_conditional_withoutRate he
  obtain ⟨check', hcheck', hplain'⟩ := walk_conditional_eq_ok he'
  have hsame := (hcondition _ _ hcheck' hcheck).sameAs_of_check
  have hcommon := hmix.mixes condition ifTrue ifFalse (mem_subterms_self _) hloud e' check' he'
    hcheck'
  have hvalues := multipleOf_conditional_zero hexact he' he hcheck' hcheck hsame
    (fun h' h => (htrue _ _ h' h).values) (fun h' h => (hfalse _ _ h' h).values) hcommon
  have hnever := hsame.never check' rfl
  have hnone : e.chance? = none := by
    rw [hplain]
    rfl
  have hhit := fun {yes'} (h' : ifTrue.evaluate s {} = .ok yes') => (htrue _ _ h' hyes).noHits
  have hmiss := fun {no'} (h' : ifFalse.evaluate s {} = .ok no') => (hfalse _ _ h' hno).noHits
  rcases hplain' with ⟨_, _, _, _, hshares, hyes', -, hno', rfl⟩ | ⟨_, _, -, hyes', hno', rfl⟩
  · exact ⟨hvalues, .inr ⟨rfl, hnone⟩, .critical hnever hshares (hhit hyes') (hmiss hno')⟩
  · exact ⟨hvalues, .inr ⟨rfl, hnone⟩, .conditional hnever (hhit hyes') (hmiss hno')⟩

theorem multipleAtZero_function (hrate : s.rate = some 0) (name : FunctionName) {args : List Node}
    (hfits : ∀ arg ∈ args, arg.Fits) (harg : ∀ arg ∈ args, arg.MultipleAtZero s) :
    (function name args).MultipleAtZero s := by
  intro e' e he' he
  obtain ⟨target, threshold, values, bound, clamped?, rfl, hvalues, hbound, hclamped, he⟩ :=
    walk_function_any_eq_ok he
  obtain ⟨target', threshold', values', bound', clamped?', hargs, hvalues', hbound', hclamped',
    he'⟩ := walk_function_any_eq_ok he'
  simp only [List.cons.injEq, and_true] at hargs
  obtain ⟨rfl, rfl⟩ := hargs
  have hthreshold := harg threshold (by simp) _ _ hvalues' hvalues
  obtain rfl := hthreshold.values.point_eq (positive_walk threshold hvalues') hbound' hbound
  obtain rfl := clampEach_calm hrate (s.calm_withoutRate {}) rfl rfl (hfits target (by simp))
    hclamped' hclamped
  cases clamped?' with
  | some clamped =>
    rw [he, he']
    exact .plain (.refl (positive_clampEach hclamped').nonneg)
  | none =>
    obtain ⟨t, ht, rfl⟩ := he
    obtain ⟨t', ht', rfl⟩ := he'
    exact .plain ((harg target (by simp) _ _ ht' ht).values.map _)

/-- **At a rate of zero a node has the shares that it has without a rate.** -/
theorem multipleOf_evaluate (hrate : s.rate = some 0) (hexact : s.mixing = .exact) (node : Node)
    (hfits : node.Fits) (hmix : node.MixesExactly s) {e' e : Evaluation ℚ}
    (he' : node.evaluate s {} = .ok e') (he : node.evaluate s.withoutRate {} = .ok e) :
    e'.MultipleOf e := by
  induction node using parts_induction generalizing e' e with
  | h node ih =>
  by_cases hquiet : node.subterms.any isLoud = false
  · exact .of_sameAs (sameAs_evaluate hrate (s.calm_withoutRate {})
      ⟨hfits, rfl, .inl rfl, fun _ _ => .inr hquiet⟩ he' he) (positive_walk node he).nonneg
  rw [Bool.not_eq_false] at hquiet
  have hpart : ∀ part ∈ node.parts, part.MultipleAtZero s :=
    fun part hpart _ _ he' he => ih part hpart (hfits.part hpart) (hmix.part hpart) he' he
  cases node with
  | number value => cases hquiet
  | dice d id modifier => cases hquiet
  | reference id critical => cases hquiet
  | keep kind count items =>
    exact multipleAtZero_keep hrate kind count (fun _ => hfits.part) hpart _ _ he' he
  | comparison relation left right =>
    rw [hmix.checks relation left right (mem_subterms_self _)] at hquiet
    cases hquiet
  | conditional condition ifTrue ifFalse =>
    exact multipleAtZero_conditional hexact hmix hquiet (hpart condition (by simp [parts]))
      (hpart ifTrue (by simp [parts])) (hpart ifFalse (by simp [parts])) _ _ he' he
  | binary operation left right =>
    obtain ⟨l, r, d, part, hl, hr, hd, rfl⟩ := walk_binary_eq_ok he
    obtain ⟨l', r', d', part', hl', hr', hd', rfl⟩ := walk_binary_eq_ok he'
    exact .plain ((hpart left (by simp [parts]) _ _ hl' hl).combine
      (hpart right (by simp [parts]) _ _ hr' hr) hd' hd)
  | double inner =>
    obtain ⟨i, d, hi, rfl, hd⟩ := walk_double_eq_ok he
    obtain ⟨i', d', hi', rfl, hd'⟩ := walk_double_eq_ok he'
    rw [if_neg Bool.false_ne_true] at hd hd'
    rw [hd, hd']
    exact .plain (hpart inner (by simp [parts]) _ _ hi' hi).values
  | switch normal critical =>
    obtain ⟨i, hi, rfl⟩ := walk_switch_eq_ok he
    obtain ⟨i', hi', rfl⟩ := walk_switch_eq_ok he'
    rw [if_neg Bool.false_ne_true] at hi hi'
    exact .plain (hpart normal (by simp [parts]) _ _ hi' hi).values
  | only inner =>
    have he := walk_only_eq_ok he
    have he' := walk_only_eq_ok he'
    rw [if_neg Bool.false_ne_true] at he he'
    rw [he, he']
    exact .plain (.refl (Distribution.nonneg_point 0))
  | function name args =>
    exact multipleAtZero_function hrate name (fun _ => hfits.part) hpart _ _ he' he
  | group inner =>
    rw [evaluate, walk_group] at he he'
    exact hpart inner (by simp [parts]) _ _ he' he

end Node

end DiceOdds
