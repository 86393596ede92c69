import DiceOdds.Proofs.Counting.Results
import DiceOdds.Proofs.Mixing.Exact
import DiceOdds.Evaluation.Reuse

/-!
# Whole weights that scale to a number of rolls

A distribution of whole weights whose total divides `n` can be scaled to the total `n`, and its
weights stay whole.  Every operation on independent values keeps this: its result scales to the
product of the numbers that its operands scale to.

## Why the total divides and does not equal

Some parts of a formula are not counted.  A critical wrapper reads one of two parts, a threshold is
a single value, and a check only scales a product.  So the total of a result need not be the number
of rolls of all parts, but it is one of its divisors.
-/

namespace DiceOdds

namespace Distribution

variable {d x y z : Distribution ℚ} {n m k : ℕ}

/-! ## 1. Whole weights -/

theorem exists_natCast_sum {l : List ℚ} (h : ∀ w ∈ l, ∃ n : ℕ, w = n) : ∃ n : ℕ, l.sum = n := by
  induction l with
  | nil => exact ⟨0, by simp⟩
  | cons w l ih =>
    obtain ⟨⟨n, rfl⟩, hl⟩ := List.forall_mem_cons.1 h
    obtain ⟨m, hm⟩ := ih hl
    exact ⟨n + m, by rw [List.sum_cons, hm, Nat.cast_add]⟩

/-- A sum of whole numbers over whole weights is whole. -/
theorem Whole.sumOver (h : d.Whole) {f : Outcome → ℚ} (hf : ∀ v, ∃ n : ℕ, f v = n) :
    ∃ n : ℕ, d.sumOver f = n := by
  refine exists_natCast_sum fun w hw => ?_
  obtain ⟨p, hp, rfl⟩ := List.mem_map.1 hw
  obtain ⟨a, ha⟩ := h.mem hp
  obtain ⟨b, hb⟩ := hf p.1
  exact ⟨a * b, by rw [ha, hb, Nat.cast_mul]⟩

theorem whole_of_sumOver (h : ∀ f : Outcome → ℚ, (∀ v, ∃ n : ℕ, f v = n) →
    ∃ n : ℕ, d.sumOver f = n) : d.Whole := by
  intro v
  rw [weightOf_eq_sumOver]
  refine h _ fun u => ?_
  split
  · exact ⟨1, Nat.cast_one.symm⟩
  · exact ⟨0, Nat.cast_zero.symm⟩

theorem whole_point (v : Outcome) : (point v 1 : Distribution ℚ).Whole := by
  have h := whole_empty.add v 1
  rwa [Nat.cast_one] at h

/-- What is not positive is not added, so whole numbers of either sign may be. -/
theorem Whole.add_int (h : d.Whole) (v : Outcome) (i : ℤ) : (d.add v i).Whole := by
  cases i with
  | ofNat n => exact h.add v n
  | negSucc n =>
    have hneg : ¬ (0 : ℚ) < (Int.negSucc n : ℤ) := by
      rw [Int.cast_pos]
      omega
    rw [Distribution.add, if_neg hneg]
    exact h

/-- Rounding leaves whole weights, whatever there was. -/
theorem whole_rounded (d : Distribution ℚ) : d.rounded.Whole :=
  foldl_invariant _ Whole d.toList whole_empty fun _ p _ hout =>
    hout.add_int p.1 (nearestOfRat p.2)

theorem whole_map (h : d.Whole) (f : Outcome → Outcome) : (d.map f).Whole :=
  whole_of_sumOver fun g hg => by
    rw [sumOver_map h.nonneg]
    exact h.sumOver fun v => hg (f v)

/-- Whole numbers for the outcomes of a function that may fail. -/
theorem exists_natCast_elim {f : Outcome → ℚ} (hf : ∀ v, ∃ n : ℕ, f v = n) (o : Option Outcome) :
    ∃ n : ℕ, o.elim 0 f = n := by
  cases o with
  | none => exact ⟨0, Nat.cast_zero.symm⟩
  | some v => exact hf v

section Partial

variable {ε : Type}

theorem whole_tryMap {f : Outcome → Except ε Outcome} (hd : d.Whole) (h : d.tryMap f = .ok z) :
    z.Whole :=
  whole_of_sumOver fun g hg => by
    rw [sumOver_tryMap (f := fun v => (f v).toOption.elim 0 g)
      (fun v c hc => by rw [hc]; rfl) hd.nonneg h]
    exact hd.sumOver fun v => exists_natCast_elim hg (f v).toOption

theorem whole_combine {op : Outcome → Outcome → Except ε Outcome} (hx : x.Whole) (hy : y.Whole)
    (h : x.combine y op = .ok z) : z.Whole :=
  whole_of_sumOver fun g hg => by
    rw [sumOver_combine (f := fun a b => (op a b).toOption.elim 0 g)
      (fun a b c hc => by rw [hc]; rfl) hx.nonneg hy.nonneg h]
    exact hx.sumOver fun a => hy.sumOver fun b => exists_natCast_elim hg (op a b).toOption

end Partial

theorem exists_natCast_sumOverAll {ds : List (Distribution ℚ)} (hds : ∀ d ∈ ds, d.Whole)
    {f : List Outcome → ℚ} (hf : ∀ vs, ∃ n : ℕ, f vs = n) : ∃ n : ℕ, sumOverAll ds f = n := by
  induction ds generalizing f with
  | nil => exact hf []
  | cons d ds ih =>
    obtain ⟨hd, hds⟩ := List.forall_mem_cons.1 hds
    exact hd.sumOver fun v => ih hds fun vs => hf (v :: vs)

theorem whole_keep {items : List (Distribution ℚ)} {count : ℕ} {kind : KeepKind}
    (hitems : ∀ d ∈ items, d.Whole) (h : keep items count kind = .ok z) : z.Whole :=
  whole_of_sumOver fun g hg => by
    have hsum := sumOver_keep (fun d hd => (hitems d hd).nonneg) h
      fun i => (Outcome.ofHundredths? i).elim 0 g
    simp only [Outcome.ofHundredths?_hundredths, Option.elim_some] at hsum
    rw [hsum]
    exact exists_natCast_sumOverAll hitems fun vs => exists_natCast_elim hg _

theorem whole_sumOfCopies {n : ℕ} (hd : d.Whole) (h : d.sumOfCopies n = .ok z) : z.Whole :=
  whole_of_sumOver fun g hg => by
    have hsum := sumOver_sumOfCopies hd.nonneg h fun i => (Outcome.ofHundredths? i).elim 0 g
    simp only [Outcome.ofHundredths?_hundredths, Option.elim_some] at hsum
    rw [hsum]
    exact exists_natCast_sumOverAll (fun e he => List.eq_of_mem_replicate he ▸ hd)
      fun vs => exists_natCast_elim hg _

/-- Both answers of a comparison have whole weights. -/
theorem exists_natCast_compare {relation : Relation} {check : Check ℚ} (hx : x.Whole) (hy : y.Whole)
    (h : Check.compare relation x y = .ok check) (answer : Bool) :
    ∃ n : ℕ, check.weightOf answer = n := by
  rw [Check.weightOf_compare h]
  refine hx.sumOver fun a => hy.sumOver fun b => ?_
  split
  · exact ⟨1, Nat.cast_one.symm⟩
  · exact ⟨0, Nat.cast_zero.symm⟩

theorem whole_compare {relation : Relation} {check : Check ℚ} (hx : x.Whole) (hy : y.Whole)
    (h : Check.compare relation x y = .ok check) : check.distribution.Whole := by
  obtain ⟨a, ha⟩ : ∃ n : ℕ, check.success = n := exists_natCast_compare hx hy h true
  obtain ⟨b, hb⟩ : ∃ n : ℕ, check.failure = n := exists_natCast_compare hx hy h false
  rw [Check.distribution, bernoulli, ha, hb]
  exact (whole_empty.add 1 a).add 0 b

/-! ## 2. Totals -/

theorem total_point (v : Outcome) : (point v 1 : Distribution ℚ).total = 1 := by
  rw [total_eq_sumOver, sumOver_point]

theorem total_map (hd : d.Nonneg) (f : Outcome → Outcome) : (d.map f).total = d.total := by
  rw [total_eq_sumOver, sumOver_map hd, total_eq_sumOver]

theorem total_tryMap {ε : Type} {f : Outcome → Except ε Outcome} (hd : d.Nonneg)
    (h : d.tryMap f = .ok z) : z.total = d.total := by
  rw [total_eq_sumOver, total_eq_sumOver,
    sumOver_tryMap (f := fun _ => 1) (fun _ _ _ => rfl) hd h]

theorem total_addScaled {c : ℚ} (hy : y.Nonneg) (hc : 0 ≤ c) :
    (x.addScaled y c).total = x.total + c * y.total := by
  simp only [total_eq_sumOver, sumOver_addScaled hy hc]

theorem sumOver_const (d : Distribution ℚ) (c : ℚ) : d.sumOver (fun _ => c) = d.total * c := by
  rw [total_eq_sumOver, mul_comm, ← sumOver_mul]
  simp only [mul_one]

theorem total_combine {ε : Type} {op : Outcome → Outcome → Except ε Outcome} (hx : x.Nonneg)
    (hy : y.Nonneg) (h : x.combine y op = .ok z) : z.total = x.total * y.total := by
  rw [total_eq_sumOver, sumOver_combine (f := fun _ _ => 1) (fun _ _ _ _ => rfl) hx hy h,
    sumOver_const, sumOver_const, mul_one]

theorem sumOverAll_one (ds : List (Distribution ℚ)) :
    sumOverAll ds (fun _ => 1) = (ds.map total).prod := by
  induction ds with
  | nil => rfl
  | cons d ds ih => rw [sumOverAll, ih, sumOver_const, List.map_cons, List.prod_cons]

theorem total_keep {items : List (Distribution ℚ)} {count : ℕ} {kind : KeepKind}
    (hitems : ∀ d ∈ items, d.Nonneg) (h : keep items count kind = .ok z) :
    z.total = (items.map total).prod := by
  rw [total_eq_sumOver, sumOver_keep hitems h fun _ => 1, sumOverAll_one]

/-- A pair of values has one of the two answers. -/
theorem total_compare {relation : Relation} {check : Check ℚ}
    (h : Check.compare relation x y = .ok check) : check.total = x.total * y.total := by
  have hanswers : ∀ a, y.sumOver (fun b => if relation.holds a b = true then 1 else 0)
      + y.sumOver (fun b => if relation.holds a b = false then 1 else 0) = y.total := by
    intro a
    rw [total_eq_sumOver, sumOver, sumOver, sumOver, tableSum, tableSum, tableSum,
      ← List.sum_map_add]
    refine congrArg List.sum (List.map_congr_left fun p _ => ?_)
    cases relation.holds a p.1 <;> simp
  have hsuccess := Check.weightOf_compare h true
  have hfailure := Check.weightOf_compare h false
  have htotal : check.total = check.weightOf true + check.weightOf false := rfl
  rw [htotal, hsuccess, hfailure, ← sumOver_const, sumOver, sumOver, sumOver, tableSum, tableSum,
    tableSum, ← List.sum_map_add]
  refine congrArg List.sum (List.map_congr_left fun p _ => ?_)
  rw [← hanswers p.1, mul_add]

theorem total_bernoulli {success failure : ℚ} (hs : 0 ≤ success) (hf : 0 ≤ failure) :
    (bernoulli success failure).total = success + failure := by
  rw [total_eq_sumOver, sumOver_bernoulli hs hf, mul_one, mul_one]

/-! ## 3. Scaling to a number of rolls -/

/-- Whole weights whose total divides `n`. -/
structure Divides (d : Distribution ℚ) (n : ℕ) : Prop where
  whole : d.Whole
  exists_dvd : ∃ t : ℕ, d.total = t ∧ t ∣ n

theorem Divides.mono (h : d.Divides n) (hdvd : n ∣ m) : d.Divides m := by
  obtain ⟨t, ht, htn⟩ := h.exists_dvd
  exact ⟨h.whole, t, ht, htn.trans hdvd⟩

theorem Divides.total_eq_one (h : d.Divides 1) : d.total = 1 := by
  obtain ⟨t, ht, htn⟩ := h.exists_dvd
  rw [ht, Nat.dvd_one.1 htn, Nat.cast_one]

theorem divides_point (v : Outcome) (n : ℕ) : (point v 1 : Distribution ℚ).Divides n :=
  ⟨whole_point v, 1, by rw [total_point, Nat.cast_one], one_dvd n⟩

theorem Divides.map (h : d.Divides n) (f : Outcome → Outcome) : (d.map f).Divides n :=
  ⟨whole_map h.whole f, by rw [total_map h.whole.nonneg]; exact h.exists_dvd⟩

theorem Divides.tryMap {ε : Type} {f : Outcome → Except ε Outcome} (hd : d.Divides n)
    (h : d.tryMap f = .ok z) : z.Divides n :=
  ⟨whole_tryMap hd.whole h, by rw [total_tryMap hd.whole.nonneg h]; exact hd.exists_dvd⟩

theorem Divides.combine {ε : Type} {op : Outcome → Outcome → Except ε Outcome}
    (hx : x.Divides n) (hy : y.Divides m) (h : x.combine y op = .ok z) : z.Divides (n * m) := by
  obtain ⟨t, ht, htn⟩ := hx.exists_dvd
  obtain ⟨u, hu, hum⟩ := hy.exists_dvd
  refine ⟨whole_combine hx.whole hy.whole h, t * u, ?_, mul_dvd_mul htn hum⟩
  rw [total_combine hx.whole.nonneg hy.whole.nonneg h, ht, hu, Nat.cast_mul]

theorem Divides.keep {items : List (Distribution ℚ)} {ns : List ℕ} {count : ℕ} {kind : KeepKind}
    (hitems : List.Forall₂ Divides items ns) (h : Distribution.keep items count kind = .ok z) :
    z.Divides ns.prod := by
  have hall : (∀ d ∈ items, d.Whole) ∧ ∃ t : ℕ, (items.map total).prod = t ∧ t ∣ ns.prod := by
    clear h
    induction hitems with
    | nil => exact ⟨List.forall_mem_nil _, 1, by simp, dvd_rfl⟩
    | cons hd _ ih =>
      obtain ⟨hwhole, t, ht, htn⟩ := ih
      obtain ⟨u, hu, hun⟩ := hd.exists_dvd
      refine ⟨List.forall_mem_cons.2 ⟨hd.whole, hwhole⟩, u * t, ?_, ?_⟩
      · rw [List.map_cons, List.prod_cons, hu, ht, Nat.cast_mul]
      · rw [List.prod_cons]
        exact mul_dvd_mul hun htn
  refine ⟨whole_keep hall.1 h, ?_⟩
  rw [total_keep (fun d hd => (hall.1 d hd).nonneg) h]
  exact hall.2

/-- Each answer of a comparison weighs as much as there are pairs that have it. -/
theorem Divides.compare {relation : Relation} {check : Check ℚ} (hx : x.Divides n)
    (hy : y.Divides m) (h : Check.compare relation x y = .ok check) :
    check.distribution.Divides (n * m) := by
  obtain ⟨t, ht, htn⟩ := hx.exists_dvd
  obtain ⟨u, hu, hum⟩ := hy.exists_dvd
  obtain ⟨hs, hf⟩ := nonneg_compare hx.whole.nonneg hy.whole.nonneg h
  have htotal : check.distribution.total = check.total := total_bernoulli hs hf
  refine ⟨whole_compare hx.whole hy.whole h, t * u, ?_, mul_dvd_mul htn hum⟩
  rw [htotal, total_compare h, ht, hu, Nat.cast_mul]

/-- **Scaled to a multiple of its total, a distribution adds whole weights**, as many as the
multiple says. -/
theorem Divides.addWeighted {sum : Distribution ℚ} (h : d.Divides n) (hn : n ≠ 0) :
    (sum.Whole → (sum.addWeighted d n).Whole)
      ∧ (sum.addWeighted d n).total = sum.total + n := by
  obtain ⟨t, ht, c, rfl⟩ := h.exists_dvd
  have htpos : 0 < t := Nat.pos_of_ne_zero fun hzero => hn (by rw [hzero, zero_mul])
  have htotal : 0 < d.total := ht ▸ Nat.cast_pos.2 htpos
  have hfactor : ((t * c : ℕ) : ℚ) / d.total = c := by
    rw [ht, Nat.cast_mul, mul_div_cancel_left₀ _ (Nat.cast_ne_zero.2 htpos.ne')]
  have hsum : ∀ f, (sum.addWeighted d (t * c : ℕ)).sumOver f = sum.sumOver f + c * d.sumOver f := by
    intro f
    rw [Distribution.addWeighted, if_pos htotal, hfactor,
      sumOver_addScaled h.whole.nonneg (Nat.cast_nonneg c)]
  refine ⟨fun hwhole => whole_of_sumOver fun f hf => ?_, ?_⟩
  · obtain ⟨a, ha⟩ := hwhole.sumOver hf
    obtain ⟨b, hb⟩ := h.whole.sumOver hf
    exact ⟨a + c * b, by rw [hsum, ha, hb, Nat.cast_add, Nat.cast_mul]⟩
  · rw [total_eq_sumOver, hsum, ← total_eq_sumOver, ← total_eq_sumOver, ht, Nat.cast_mul, mul_comm]

/-- Of two branches with a total of `1`, one is taken for certain. -/
theorem sumOver_blend_certain {p : ℕ} (hp : p ≤ 1) (hx : x.Divides 1) (hy : y.Divides 1)
    (f : Outcome → ℚ) :
    (blend [((p : ℚ), x), (1 - p, y)] 1).sumOver f = (if p = 1 then x else y).sumOver f := by
  have hle : (p : ℚ) ≤ 1 := by exact_mod_cast hp
  rw [sumOver_blend zero_le_one]
  · rcases Nat.le_one_iff_eq_zero_or_eq_one.1 hp with rfl | rfl
    · simp [hy.total_eq_one]
    · simp [hx.total_eq_one]
  · simp [hle, hx.whole.nonneg, hy.whole.nonneg]

theorem total_rounded_certain {p : ℕ} (hp : p ≤ 1) (hx : x.Divides 1) (hy : y.Divides 1) :
    (blend [((p : ℚ), x), (1 - p, y)] 1).rounded.total = 1 := by
  have hbranch : (if p = 1 then x else y).Divides 1 := by
    split
    · exact hx
    · exact hy
  have hwhole : (blend [((p : ℚ), x), (1 - p, y)] 1).Whole := whole_of_sumOver fun f hf => by
    rw [sumOver_blend_certain hp hx hy]
    exact hbranch.whole.sumOver hf
  rw [hwhole.total_rounded, total_eq_sumOver, sumOver_blend_certain hp hx hy, ← total_eq_sumOver,
    hbranch.total_eq_one]

end Distribution

/-- Scaled by a check, or combined as independent values. -/
theorem Evaluation.divides_combine {operation : Operation} {l r : Evaluation ℚ}
    {part : Unit → String} {d : Distribution ℚ} {n m : ℕ} (hl : l.distribution.Divides n)
    (hr : r.distribution.Divides m) (h : l.combine operation r part = .ok d) :
    d.Divides (n * m) := by
  rcases evaluationCombine_eq_ok h with h | ⟨_, h⟩ | ⟨_, h⟩
  · exact hl.combine hr h
  · exact (hr.tryMap h).mono (Dvd.intro_left _ rfl)
  · exact (hl.tryMap h).mono (Dvd.intro _ rfl)

/-! ## 4. Mixtures -/

namespace Mixing

theorem of_positiveWhole? {w : ℚ} {n : ℕ} (h : positiveWhole? w = some n) :
    w = n ∧ 1 ≤ n ∧ n < greatestExact := by
  unfold positiveWhole? at h
  split at h
  · next i hi =>
    split at h
    · next hcond =>
      simp only [Bool.and_eq_true, beq_iff_eq, decide_eq_true_eq] at hcond
      obtain ⟨⟨hw, hone⟩, hlt⟩ := hcond
      have htoNat : ((i.toNat : ℕ) : ℤ) = i := Int.toNat_of_nonneg (by omega)
      obtain rfl := Option.some.inj h
      refine ⟨?_, by omega, by omega⟩
      rw [← hw, ← Int.cast_natCast, htoNat]
    · cases h
  · cases h

theorem of_mapM_positiveWhole? {ws : List ℚ} {ns : List ℕ}
    (h : ws.mapM positiveWhole? = some ns) :
    ws = ns.map Nat.cast ∧ ∀ n ∈ ns, 1 ≤ n ∧ n < greatestExact := by
  induction ws generalizing ns with
  | nil =>
    obtain rfl : ns = [] := by simpa using h.symm
    exact ⟨rfl, List.forall_mem_nil _⟩
  | cons w rest ih =>
    rw [List.mapM_cons] at h
    simp only [Option.bind_eq_bind, Option.bind_eq_some_iff, Option.pure_def,
      Option.some.injEq] at h
    obtain ⟨n, hn, others, hothers, rfl⟩ := h
    obtain ⟨hw, hbounds⟩ := of_positiveWhole? hn
    obtain ⟨hrest, hall⟩ := ih hothers
    exact ⟨by rw [hw, hrest, List.map_cons], List.forall_mem_cons.2 ⟨hbounds, hall⟩⟩

/-- What it takes for a total that needs no rounding. -/
theorem of_commonTotal? {condition : ℚ} {parts : List ℚ} {common : ℕ}
    (h : commonTotal? condition parts = some common) :
    ∃ (base : ℕ) (totals : List ℕ), condition = base ∧ parts = totals.map Nat.cast ∧ 1 ≤ base
      ∧ base < greatestExact ∧ (∀ t ∈ totals, 1 ≤ t ∧ t < greatestExact)
      ∧ common = base * (totals : Multiset ℕ).lcm ∧ common ≤ greatestExact := by
  simp only [commonTotal?, Option.bind_eq_bind, Option.bind_eq_some_iff] at h
  obtain ⟨base, hbase, totals, htotals, h⟩ := h
  obtain ⟨hcondition, hone, hlt⟩ := of_positiveWhole? hbase
  obtain ⟨hparts, hall⟩ := of_mapM_positiveWhole? htotals
  split at h
  · next hle =>
    obtain rfl := Option.some.inj h
    exact ⟨base, totals, hcondition, hparts, hone, hlt, hall, by rw [foldl_lcm], hle⟩
  · cases h

/-- The total of a mixture divides the product of all totals. -/
theorem targetTotal_dvd (mixing : Mixing) (condition : ℕ) (totals : List ℕ) :
    ∃ t : ℕ, mixing.targetTotal (condition : ℚ) (totals.map Nat.cast) = t
      ∧ t ∣ condition * totals.prod := by
  have hcondition : condition ∣ condition * totals.prod := Dvd.intro _ rfl
  cases mixing with
  | rounded => exact ⟨condition, rfl, hcondition⟩
  | exact =>
    cases hcommon : commonTotal? (condition : ℚ) (totals.map (Nat.cast : ℕ → ℚ)) with
    | none => exact ⟨condition, by simp only [targetTotal, hcommon], hcondition⟩
    | some common =>
      refine ⟨common, by simp only [targetTotal, hcommon], ?_⟩
      obtain ⟨base, ns, hbase, hns, -, -, -, rfl, -⟩ := of_commonTotal? hcommon
      obtain rfl := Nat.cast_inj.1 hbase
      obtain rfl := List.map_injective_iff.2 (Nat.cast_injective (R := ℚ)) hns
      exact mul_dvd_mul_left _ (Multiset.lcm_dvd.2 fun t ht => List.dvd_prod (Multiset.mem_coe.1 ht))

end Mixing

/-- Rounding has not changed the total over which the branches are mixed. -/
def ConditionalResult.KeepsTotal (mixing : Mixing) (r : ConditionalResult ℚ) : Prop :=
  r.combined.total = mixing.targetTotal r.condition.total [r.ifTrue.total, r.ifFalse.total]

section Branches

variable {mixing : Mixing} {condition : String} {check : Check ℚ} {yes no : Evaluation ℚ}
  {n m k : ℕ}

/-- A mixture that keeps its total scales to the product of all numbers of rolls. -/
theorem divides_ofBranches (hcheck : check.distribution.Divides n)
    (hs : 0 ≤ check.success) (hf : 0 ≤ check.failure) (hyes : yes.distribution.Divides m)
    (hno : no.distribution.Divides k)
    (h : (ConditionalResult.ofBranches mixing condition check yes no).KeepsTotal mixing) :
    (ConditionalResult.ofBranches mixing condition check yes no).combined.Divides
      (n * (m * k)) := by
  obtain ⟨c, hc, hcn⟩ := hcheck.exists_dvd
  obtain ⟨t, ht, htm⟩ := hyes.exists_dvd
  obtain ⟨u, hu, huk⟩ := hno.exists_dvd
  rw [Check.distribution, Distribution.total_bernoulli hs hf] at hc
  obtain ⟨target, htarget, hdvd⟩ := mixing.targetTotal_dvd c [t, u]
  refine ⟨Distribution.whole_rounded _, target, ?_, hdvd.trans ?_⟩
  · refine h.trans (Eq.trans ?_ htarget)
    exact congrArg₂ mixing.targetTotal hc (by simp [ConditionalResult.ofBranches, ht, hu])
  · rw [List.prod_cons, List.prod_singleton]
    exact mul_dvd_mul hcn (mul_dvd_mul htm huk)

/-- A check in whole weights has whole numbers of cases. -/
theorem Check.exists_natCast (check : Check ℚ) (hs : 0 ≤ check.success) (hf : 0 ≤ check.failure)
    (h : check.distribution.Whole) :
    (∃ n : ℕ, check.success = n) ∧ ∃ n : ℕ, check.failure = n := by
  have hweight : ∀ v, check.distribution.weightOf v
      = check.success * (if (1 : Outcome) = v then 1 else 0)
        + check.failure * (if (0 : Outcome) = v then 1 else 0) := by
    intro v
    rw [Check.distribution, Distribution.weightOf_eq_sumOver, Distribution.sumOver_bernoulli hs hf]
  obtain ⟨a, ha⟩ := h 1
  obtain ⟨c, hc⟩ := h 0
  rw [hweight, if_pos rfl, if_neg (by decide), mul_one, mul_zero, add_zero] at ha
  rw [hweight, if_neg (by decide), if_pos rfl, mul_one, mul_zero, zero_add] at hc
  exact ⟨⟨a, ha⟩, c, hc⟩

/-- One case of the condition and one case of each branch: the mixture is one of the branches. -/
theorem keepsTotal_of_divides_one (hcheck : check.distribution.Divides 1)
    (hs : 0 ≤ check.success) (hf : 0 ≤ check.failure) (hyes : yes.distribution.Divides 1)
    (hno : no.distribution.Divides 1) :
    (ConditionalResult.ofBranches mixing condition check yes no).KeepsTotal mixing := by
  have htotal : check.total = 1 := by
    rw [← hcheck.total_eq_one, Check.distribution, Distribution.total_bernoulli hs hf, Check.total]
  have htarget : mixing.targetTotal check.total [yes.distribution.total, no.distribution.total]
      = 1 := by
    obtain ⟨t, ht, hdvd⟩ := mixing.targetTotal_dvd 1 [1, 1]
    rw [htotal, hyes.total_eq_one, hno.total_eq_one]
    simpa [Nat.dvd_one.1 hdvd] using ht
  -- the weight of a success is a whole number, so it is nothing or everything
  obtain ⟨⟨a, hsuccess⟩, -⟩ := check.exists_natCast hs hf hcheck.whole
  have hle : a ≤ 1 := by
    rw [← Nat.cast_le (α := ℚ), ← hsuccess, Nat.cast_one, ← htotal, Check.total]
    linarith
  have hprobability : check.successProbability = a := by
    rw [Check.successProbability, Check.share_eq, htotal, div_one, hsuccess]
  have hmix : (ConditionalResult.ofBranches mixing condition check yes no).combined
      = .mix [(check.successProbability, yes.distribution),
          (1 - check.successProbability, no.distribution)]
          (mixing.targetTotal check.total [yes.distribution.total, no.distribution.total]) := rfl
  refine Eq.trans ?_ htarget.symm
  rw [hmix, htarget, hprobability, Distribution.mix_eq_rounded]
  exact Distribution.total_rounded_certain hle hyes hno

end Branches

end DiceOdds
