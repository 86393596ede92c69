import DiceOdds.Proofs.Counting.Keep
import DiceOdds.Proofs.Critical.Check
import DiceOdds.Distribution.Mixture

/-!
# One distribution below another

A distribution lies below another one if it gives no outcome a greater weight.  Everything that is
made from distributions by counting combinations keeps this order.

## Why sums and not weights

As for equality (`sumOver`), what an operation does to a single weight is no function of single
weights.  So `Below` is said for all sums of values that are not negative, and each operation
follows from what it does to sums.

## Why stored weights are positive

A threshold has to be a single outcome.  Where a distribution below another one stores an outcome,
the other one stores it too, because nothing is ever stored with weight `0` (`Positive`).  So two
single outcomes, one below the other, are the same (`Below.point_eq`).
-/

namespace DiceOdds

namespace Distribution

/-! ## 1. Positive weights -/

/-- Only outcomes with a positive weight are stored. -/
def Positive (d : Distribution ℚ) : Prop := ∀ p ∈ d.toList, 0 < p.2

theorem Positive.nonneg {d : Distribution ℚ} (h : d.Positive) : d.Nonneg :=
  fun p hp => (h p hp).le

theorem Positive.total_pos {d : Distribution ℚ} (h : d.Positive) {v : Outcome}
    (hv : d.point? = some v) : 0 < d.total := by
  obtain ⟨w, hw⟩ := toList_of_point? hv
  have hpos : 0 < w := h (v, w) (by rw [hw]; exact List.mem_singleton_self _)
  rw [total_eq_sumOver, sumOver, tableSum, show d.weights.toList = [(v, w)] from hw]
  simpa using hpos

theorem positive_empty : (empty : Distribution ℚ).Positive := by
  intro p hp
  have hnil : (empty : Distribution ℚ).toList = [] := rfl
  rw [hnil] at hp
  cases hp

/-- What is stored after adding to a weight was stored before, or is what has been added to. -/
theorem Positive.add {d : Distribution ℚ} (h : d.Positive) (v : Outcome) (w : ℚ) :
    (d.add v w).Positive := by
  by_cases hw : 0 < w
  · intro p hp
    rw [Distribution.add, if_pos hw] at hp
    have hget := Std.TreeMap.mem_toList_iff_getElem?_eq_some.1 hp
    rw [Std.TreeMap.getElem?_alter] at hget
    split at hget
    · rw [← Option.some.inj hget]
      cases hold : d.weights[v]? with
      | none => simpa using hw
      | some old =>
        have hmem : (v, old) ∈ d.toList := Std.TreeMap.mem_toList_iff_getElem?_eq_some.2 hold
        exact add_pos (h _ hmem) hw
    · exact h p (Std.TreeMap.mem_toList_iff_getElem?_eq_some.2 hget)
  · rw [Distribution.add, if_neg hw]
    exact h

theorem positive_point (v : Outcome) : (point v 1 : Distribution ℚ).Positive :=
  positive_empty.add v 1

theorem positive_ofList (l : List (Outcome × ℚ)) : (ofList l).Positive :=
  foldl_invariant _ Positive l positive_empty fun _ p _ hd => hd.add p.1 p.2

theorem positive_bernoulli (success failure : ℚ) : (bernoulli success failure).Positive :=
  (positive_empty.add _ _).add _ _

theorem positive_map (d : Distribution ℚ) (m : Outcome → Outcome) : (d.map m).Positive :=
  foldl_invariant _ Positive d.toList positive_empty fun _ p _ hd => hd.add (m p.1) p.2

theorem positive_tryMap {ε : Type} {d e : Distribution ℚ} {m : Outcome → Except ε Outcome}
    (h : d.tryMap m = .ok e) : e.Positive := by
  refine foldlM_invariant _ Positive d.toList h positive_empty fun out next p _ hout hstep => ?_
  obtain ⟨c, -, hnext⟩ := bind_eq_ok.1 hstep
  obtain rfl := pure_eq_ok.1 hnext
  exact hout.add c _

theorem positive_combine {ε : Type} {x y z : Distribution ℚ}
    {op : Outcome → Outcome → Except ε Outcome} (h : x.combine y op = .ok z) : z.Positive := by
  refine foldlM_invariant _ Positive x.toList h positive_empty fun out next p _ hout hstep => ?_
  refine foldlM_invariant _ Positive y.toList hstep hout fun out next q _ hout hcell => ?_
  obtain ⟨c, -, hnext⟩ := bind_eq_ok.1 hcell
  obtain rfl := pure_eq_ok.1 hnext
  exact hout.add c _

theorem positive_convolve {x y z : Distribution ℚ} (h : x.convolve y = .ok z) : z.Positive :=
  positive_combine (convolve_eq x y ▸ h)

/-- Whatever is true of all sums of two values is true of a sum of many copies. -/
theorem positive_addCopies (n : ℕ) {sum base r : Distribution ℚ} (hs : sum.Positive)
    (h : addCopies sum base n = .ok r) : r.Positive := by
  induction n using Nat.strong_induction_on generalizing sum base r with
  | _ n ih =>
    rcases eq_or_ne n 0 with rfl | hn
    · rw [addCopies, dif_pos rfl] at h
      obtain rfl := pure_eq_ok.1 h
      exact hs
    rw [addCopies_digit sum base hn, bind_eq_ok] at h
    obtain ⟨odd, hodd, h⟩ := h
    have hpositive : odd.Positive := by
      split at hodd
      · exact positive_convolve hodd
      · cases hodd
        exact hs
    split at h
    · obtain rfl := pure_eq_ok.1 h
      exact hpositive
    · obtain ⟨twice, -, h⟩ := bind_eq_ok.1 h
      exact ih (n / 2) (by omega) hpositive h

theorem positive_sumOfCopies {d r : Distribution ℚ} {n : ℕ} (h : d.sumOfCopies n = .ok r) :
    r.Positive :=
  positive_addCopies n (positive_point 0) h

theorem positive_keep {items : List (Distribution ℚ)} {count : ℕ} {kind : KeepKind}
    {r : Distribution ℚ} (h : keep items count kind = .ok r) : r.Positive := by
  unfold keep at h
  split at h
  · exact foldlM_invariant _ Positive items h (positive_point 0) fun _ _ _ _ _ hstep =>
      positive_convolve hstep
  · obtain ⟨states, -, h⟩ := bind_eq_ok.1 h
    obtain ⟨d, hd, h⟩ := bind_eq_ok.1 h
    obtain rfl : d = r := by simpa using h
    refine foldlM_invariant _ Positive states.toList hd positive_empty
      fun out next p _ hout hstep => ?_
    obtain ⟨sum, -, rfl⟩ := ofKeepStates_step hstep
    exact hout.add sum _

theorem positive_rounded (d : Distribution ℚ) : d.rounded.Positive :=
  foldl_invariant _ Positive d.toList positive_empty fun _ p _ hd => hd.add p.1 _

theorem Positive.addScaled {d other : Distribution ℚ} (h : d.Positive) (c : ℚ) :
    (d.addScaled other c).Positive :=
  foldl_invariant _ Positive other.toList h fun _ p _ hd => hd.add p.1 _

theorem positive_grow {c : Chain} {accept : ℕ → Bool} {level d : Distribution ℚ}
    (h : c.grow accept level = .ok d) : d.Positive := by
  obtain ⟨next, hnext, h⟩ := bind_eq_ok.1 h
  obtain rfl : next = d := by simpa using h
  refine foldlM_invariant _ Positive _ hnext positive_empty fun out next face _ hout hstep => ?_
  unfold Chain.addFace at hstep
  split at hstep
  · split at hstep
    · obtain ⟨shifted, -, hstep⟩ := bind_eq_ok.1 hstep
      obtain rfl := pure_eq_ok.1 hstep
      exact hout.addScaled 1
    · cases hstep
      exact hout.addScaled 1
  · cases hstep
    exact hout.add _ _

theorem positive_run {c : Chain} {limit : ℕ} {accept : ℕ → Bool} {d : Distribution ℚ}
    (h : c.run limit accept = .ok d) : d.Positive := by
  unfold Chain.run at h
  split at h
  · unfold Chain.single at h
    split at h
    · dsimp only at h
      split at h
      · cases h
        exact positive_point _
      · cases h
    · cases h
      exact positive_empty
  · cases limit with
    | zero =>
      cases h
      exact positive_ofList _
    | succ n =>
      obtain ⟨level, -, h⟩ := bind_eq_ok.1 h
      exact positive_grow h

theorem Positive.filter {d : Distribution ℚ} (h : d.Positive) (keep : Outcome → Bool) :
    (d.filter keep).Positive := by
  intro p hp
  have hlist : (d.filter keep).toList = d.toList.filter fun p => keep p.1 :=
    Std.TreeMap.toList_filter
  rw [hlist] at hp
  exact h p (List.mem_of_mem_filter hp)

/-- Where all stored weights are positive, the weights say which outcomes are stored. -/
theorem Positive.getElem?_eq {d : Distribution ℚ} (h : d.Positive) (v : Outcome) :
    d.weights[v]? = if d.weightOf v = 0 then none else some (d.weightOf v) := by
  rw [weightOf, Std.TreeMap.getD_eq_getD_getElem?]
  cases hv : d.weights[v]? with
  | none => simp
  | some w =>
    have hpos : 0 < w := h (v, w) (Std.TreeMap.mem_toList_iff_getElem?_eq_some.2 hv)
    simp [hpos.ne']

theorem toList_eq_of_weightOf {x y : Distribution ℚ} (hx : x.Positive) (hy : y.Positive)
    (h : ∀ v, x.weightOf v = y.weightOf v) : x.toList = y.toList := by
  refine Std.TreeMap.Equiv.toList_eq (Std.TreeMap.Equiv.of_forall_constGet?_eq fun v => ?_)
  rw [hx.getElem?_eq, hy.getElem?_eq, h v]

/-! ## 2. The order -/

/-- No outcome weighs more in `x` than in `y`. -/
structure Below (x y : Distribution ℚ) : Prop where
  nonneg : x.Nonneg
  nonneg_above : y.Nonneg
  sumOver_le : ∀ f : Outcome → ℚ, (∀ v, 0 ≤ f v) → x.sumOver f ≤ y.sumOver f

theorem sumOver_mono {d : Distribution ℚ} (hd : d.Nonneg) {f g : Outcome → ℚ}
    (h : ∀ v, f v ≤ g v) : d.sumOver f ≤ d.sumOver g :=
  List.sum_le_sum fun p hp => mul_le_mul_of_nonneg_left (h p.1) (hd p hp)

theorem sumOver_nonneg {d : Distribution ℚ} (hd : d.Nonneg) {f : Outcome → ℚ}
    (h : ∀ v, 0 ≤ f v) : 0 ≤ d.sumOver f := by
  rw [← sumOver_zero d]
  exact sumOver_mono hd h

theorem Below.refl {d : Distribution ℚ} (h : d.Nonneg) : d.Below d :=
  ⟨h, h, fun _ _ => le_rfl⟩

theorem Below.weightOf_le {x y : Distribution ℚ} (h : x.Below y) (v : Outcome) :
    x.weightOf v ≤ y.weightOf v := by
  rw [weightOf_eq_sumOver, weightOf_eq_sumOver]
  refine h.sumOver_le _ fun u => ?_
  split
  · exact zero_le_one
  · exact le_rfl

/-- Distributions that count lists, one of them a part of the other. -/
theorem Below.of_counts {x y : Distribution ℚ} {l m : List (Option Outcome)} (hx : x.Counts l)
    (hy : y.Counts m) (h : l.Sublist m) : x.Below y := by
  refine ⟨hx.nonneg, hy.nonneg, fun f hf => ?_⟩
  have hsum := (h.map fun o : Option Outcome => o.elim 0 f).sum_le_sum fun w hw => by
    obtain ⟨o, -, rfl⟩ := List.mem_map.1 hw
    cases o with
    | none => exact le_rfl
    | some v => exact hf v
  rw [← hx fun o => o.elim 0 f, ← hy fun o => o.elim 0 f] at hsum
  exact hsum

/-- Two single outcomes, one below the other, are the same. -/
theorem Below.point_eq {x y : Distribution ℚ} (h : x.Below y) (hx : x.Positive) {u v : Outcome}
    (hu : x.point? = some u) (hv : y.point? = some v) : u = v := by
  by_contra hne
  have hle := h.weightOf_le u
  rw [weightOf_eq_sumOver, weightOf_eq_sumOver, sumOver_of_point? hu, sumOver_of_point? hv,
    if_pos rfl, if_neg (Ne.symm hne), mul_one, mul_zero] at hle
  exact absurd hle (not_le.2 (hx.total_pos hu))

/-! ## 3. Operations -/

theorem Below.map {x y : Distribution ℚ} (h : x.Below y) (m : Outcome → Outcome) :
    (x.map m).Below (y.map m) := by
  refine ⟨nonneg_map x m, nonneg_map y m, fun f hf => ?_⟩
  rw [sumOver_map h.nonneg, sumOver_map h.nonneg_above]
  exact h.sumOver_le _ fun v => hf (m v)

section Partial

variable {ε : Type}

/-- Replacing each outcome by a function that may fail, where both replacements agree. -/
theorem Below.tryMap {x y x' y' : Distribution ℚ} {m n : Outcome → Except ε Outcome}
    (h : x.Below y) (value? : Outcome → Option Outcome)
    (hm : ∀ v c, m v = .ok c → value? v = some c) (hn : ∀ v c, n v = .ok c → value? v = some c)
    (hx : x.tryMap m = .ok x') (hy : y.tryMap n = .ok y') : x'.Below y' := by
  refine ⟨nonneg_tryMap hx, nonneg_tryMap hy, fun f hf => ?_⟩
  have hvalue : ∀ v, 0 ≤ (value? v).elim 0 f := by
    intro v
    cases value? v with
    | none => exact le_rfl
    | some c => exact hf c
  rw [sumOver_tryMap (f := fun v => (value? v).elim 0 f)
      (fun v c hc => by rw [hm v c hc, Option.elim_some]) h.nonneg hx,
    sumOver_tryMap (f := fun v => (value? v).elim 0 f)
      (fun v c hc => by rw [hn v c hc, Option.elim_some]) h.nonneg_above hy]
  exact h.sumOver_le _ hvalue

/-- Combining two independent values, by operations that agree where they succeed. -/
theorem Below.combine {x y x' y' z z' : Distribution ℚ}
    {op op' : Outcome → Outcome → Except ε Outcome}
    {value? : Outcome → Outcome → Option Outcome} (hx : x.Below x') (hy : y.Below y')
    (hop : ∀ a b c, op a b = .ok c → value? a b = some c)
    (hop' : ∀ a b c, op' a b = .ok c → value? a b = some c)
    (h : x.combine y op = .ok z) (h' : x'.combine y' op' = .ok z') : z.Below z' := by
  refine ⟨nonneg_combine h, nonneg_combine h', fun f hf => ?_⟩
  have hvalue : ∀ a b, 0 ≤ (value? a b).elim 0 f := by
    intro a b
    cases value? a b with
    | none => exact le_rfl
    | some c => exact hf c
  rw [sumOver_combine (f := fun a b => (value? a b).elim 0 f)
      (fun a b c hc => by rw [hop a b c hc, Option.elim_some]) hx.nonneg hy.nonneg h,
    sumOver_combine (f := fun a b => (value? a b).elim 0 f)
      (fun a b c hc => by rw [hop' a b c hc, Option.elim_some]) hx.nonneg_above hy.nonneg_above h']
  calc x.sumOver (fun a => y.sumOver fun b => (value? a b).elim 0 f)
      ≤ x.sumOver (fun a => y'.sumOver fun b => (value? a b).elim 0 f) :=
        sumOver_mono hx.nonneg fun a => hy.sumOver_le _ (hvalue a)
    _ ≤ x'.sumOver (fun a => y'.sumOver fun b => (value? a b).elim 0 f) :=
        hx.sumOver_le _ fun a => sumOver_nonneg hy.nonneg_above (hvalue a)

end Partial

theorem nonneg_of_forall₂_below {ds es : List (Distribution ℚ)} (h : List.Forall₂ Below ds es) :
    (∀ d ∈ ds, d.Nonneg) ∧ ∀ e ∈ es, e.Nonneg := by
  induction h with
  | nil => simp
  | cons hd _ ih =>
    exact ⟨List.forall_mem_cons.2 ⟨hd.nonneg, ih.1⟩, List.forall_mem_cons.2 ⟨hd.nonneg_above, ih.2⟩⟩

theorem sumOverAll_nonneg {ds : List (Distribution ℚ)} (h : ∀ d ∈ ds, d.Nonneg)
    {f : List Outcome → ℚ} (hf : ∀ vs, 0 ≤ f vs) : 0 ≤ sumOverAll ds f := by
  induction ds generalizing f with
  | nil => exact hf []
  | cons d ds ih =>
    obtain ⟨hd, hds⟩ := List.forall_mem_cons.1 h
    exact sumOver_nonneg hd fun v => ih hds fun vs => hf (v :: vs)

/-- Draws from several distributions, one by one below those of others. -/
theorem sumOverAll_le {ds es : List (Distribution ℚ)} (h : List.Forall₂ Below ds es)
    {f : List Outcome → ℚ} (hf : ∀ vs, 0 ≤ f vs) : sumOverAll ds f ≤ sumOverAll es f := by
  induction h generalizing f with
  | nil => exact le_rfl
  | @cons d e ds es hd hes ih =>
    have hnonneg := (nonneg_of_forall₂_below hes).2
    calc d.sumOver (fun v => sumOverAll ds fun vs => f (v :: vs))
        ≤ d.sumOver (fun v => sumOverAll es fun vs => f (v :: vs)) :=
          sumOver_mono hd.nonneg fun v => ih fun vs => hf (v :: vs)
      _ ≤ e.sumOver (fun v => sumOverAll es fun vs => f (v :: vs)) :=
          hd.sumOver_le _ fun v => sumOverAll_nonneg hnonneg fun vs => hf (v :: vs)

/-- Sums of values are determined by sums over hundredths. -/
theorem Below.of_hundredths {x y : Distribution ℚ} (hx : x.Nonneg) (hy : y.Nonneg)
    (h : ∀ F : ℤ → ℚ, (∀ n, 0 ≤ F n) →
      x.sumOver (fun v => F v.hundredths) ≤ y.sumOver fun v => F v.hundredths) : x.Below y := by
  refine ⟨hx, hy, fun f hf => ?_⟩
  have hF : ∀ n, 0 ≤ (Outcome.ofHundredths? n).elim 0 f := by
    intro n
    cases Outcome.ofHundredths? n with
    | none => exact le_rfl
    | some v => exact hf v
  have := h _ hF
  simpa only [Outcome.ofHundredths?_hundredths, Option.elim_some] using this

theorem Below.keep {ds es : List (Distribution ℚ)} {count : ℕ} {kind : KeepKind}
    {x y : Distribution ℚ} (h : List.Forall₂ Below ds es) (hx : keep ds count kind = .ok x)
    (hy : Distribution.keep es count kind = .ok y) : x.Below y := by
  obtain ⟨hds, hes⟩ := nonneg_of_forall₂_below h
  refine .of_hundredths (nonneg_keep hds hx) (nonneg_keep hes hy) fun F hF => ?_
  rw [sumOver_keep hds hx, sumOver_keep hes hy]
  exact sumOverAll_le h fun vs => hF _

theorem Below.sumOfCopies {d e x y : Distribution ℚ} (h : d.Below e) {n : ℕ}
    (hx : d.sumOfCopies n = .ok x) (hy : e.sumOfCopies n = .ok y) : x.Below y := by
  refine .of_hundredths (positive_sumOfCopies hx).nonneg (positive_sumOfCopies hy).nonneg
    fun F hF => ?_
  rw [sumOver_sumOfCopies h.nonneg hx, sumOver_sumOfCopies h.nonneg_above hy]
  exact sumOverAll_le (forall₂_replicate h n) fun vs => hF _

/-- The two answers of a comparison as values. -/
theorem sumOver_bernoulli {success failure : ℚ} (hs : 0 ≤ success) (hf : 0 ≤ failure)
    (f : Outcome → ℚ) : (bernoulli success failure).sumOver f = success * f 1 + failure * f 0 := by
  rw [bernoulli, sumOver_add hf, sumOver_add hs, sumOver_empty, zero_add]

/-- Comparing two values of lesser weight: less weight for both answers. -/
theorem Below.weightOf_compare_le {x y x' y' : Distribution ℚ} {relation : Relation}
    {c c' : Check ℚ} (hx : x.Below x') (hy : y.Below y') (h : Check.compare relation x y = .ok c)
    (h' : Check.compare relation x' y' = .ok c') (answer : Bool) :
    0 ≤ c.weightOf answer ∧ c.weightOf answer ≤ c'.weightOf answer := by
  have hf : ∀ a b : Outcome, (0 : ℚ) ≤ if relation.holds a b = answer then 1 else 0 := by
    intro a b
    split
    · exact zero_le_one
    · exact le_rfl
  rw [Check.weightOf_compare h, Check.weightOf_compare h']
  refine ⟨sumOver_nonneg hx.nonneg fun a => sumOver_nonneg hy.nonneg (hf a), ?_⟩
  calc x.sumOver (fun a => y.sumOver fun b => if relation.holds a b = answer then 1 else 0)
      ≤ x.sumOver (fun a => y'.sumOver fun b => if relation.holds a b = answer then 1 else 0) :=
        sumOver_mono hx.nonneg fun a => hy.sumOver_le _ (hf a)
    _ ≤ x'.sumOver (fun a => y'.sumOver fun b => if relation.holds a b = answer then 1 else 0) :=
        hx.sumOver_le _ fun a => sumOver_nonneg hy.nonneg_above (hf a)

/-- Neither answer of a comparison has a negative weight. -/
theorem nonneg_compare {x y : Distribution ℚ} {relation : Relation} {c : Check ℚ} (hx : x.Nonneg)
    (hy : y.Nonneg) (h : Check.compare relation x y = .ok c) : 0 ≤ c.success ∧ 0 ≤ c.failure :=
  ⟨((Below.refl hx).weightOf_compare_le (.refl hy) h h true).1,
    ((Below.refl hx).weightOf_compare_le (.refl hy) h h false).1⟩

theorem Below.compare {x y x' y' : Distribution ℚ} {relation : Relation} {c c' : Check ℚ}
    (hx : x.Below x') (hy : y.Below y') (h : Check.compare relation x y = .ok c)
    (h' : Check.compare relation x' y' = .ok c') : c.distribution.Below c'.distribution := by
  obtain ⟨hs, hsle⟩ := hx.weightOf_compare_le hy h h' true
  obtain ⟨hf, hfle⟩ := hx.weightOf_compare_le hy h h' false
  have hs' := hs.trans hsle
  have hf' := hf.trans hfle
  refine ⟨(nonneg_empty.add _ _).add _ _, (nonneg_empty.add _ _).add _ _, fun f hnonneg => ?_⟩
  have hlow : c.distribution.sumOver f = c.success * f 1 + c.failure * f 0 :=
    sumOver_bernoulli hs hf f
  have hfull : c'.distribution.sumOver f = c'.success * f 1 + c'.failure * f 0 :=
    sumOver_bernoulli hs' hf' f
  rw [hlow, hfull]
  exact add_le_add (mul_le_mul_of_nonneg_right hsle (hnonneg 1))
    (mul_le_mul_of_nonneg_right hfle (hnonneg 0))

end Distribution

end DiceOdds
