import DiceOdds.Proofs.Counting.Table
import DiceOdds.Distribution.Sum

/-!
# Sums over distributions

The same reading of a distribution: `d.sumOver f` is the sum of `f` over the outcomes of `d`, each
as often as its weight says.  Each operation on distributions is described by what it does to this
sum, in exact arithmetic and whenever it succeeds.

## Why values are compared as whole numbers of hundredths

A sum of outcomes may leave the grid, and then it is no outcome.  As an integer it always exists.
So sums of outcomes are followed as integers, and a computation that succeeds shows that those it
has met do lie on the grid.
-/

namespace DiceOdds

/-! ## 1. The grid -/

namespace Outcome

theorem ofHundredths?_eq_some {n : ℤ} {a : Outcome} :
    ofHundredths? n = some a ↔ a.hundredths = n := by
  unfold ofHundredths?
  split
  · rw [Option.some_inj]
    exact ⟨fun h => h ▸ rfl, fun h => Outcome.ext h.symm⟩
  · next hn =>
    simp only [reduceCtorEq, false_iff]
    rintro rfl
    exact hn ⟨a.least_le, a.lt_bound⟩

theorem add?_eq_some {a b c : Outcome} :
    a.add? b = some c ↔ c.hundredths = a.hundredths + b.hundredths :=
  ofHundredths?_eq_some

@[simp] theorem hundredths_zero : (0 : Outcome).hundredths = 0 := rfl

/-- The exact sum of some outcomes, in hundredths. -/
def exactSum (vs : List Outcome) : ℤ := (vs.map hundredths).sum

/-- The sum of some outcomes, if it lies on the grid. -/
def sum? (vs : List Outcome) : Option Outcome := ofHundredths? (exactSum vs)

@[simp] theorem exactSum_nil : exactSum [] = 0 := rfl

@[simp] theorem exactSum_cons (v : Outcome) (vs : List Outcome) :
    exactSum (v :: vs) = v.hundredths + exactSum vs := by simp [exactSum]

theorem exactSum_append (us vs : List Outcome) : exactSum (us ++ vs) = exactSum us + exactSum vs := by
  simp [exactSum]

theorem ofHundredths?_hundredths (a : Outcome) : ofHundredths? a.hundredths = some a :=
  ofHundredths?_eq_some.2 rfl

end Outcome

namespace Distribution

/-! ## 2. The sum over a distribution -/

/-- The sum of `f` over the outcomes, each with its weight. -/
def sumOver (d : Distribution ℚ) (f : Outcome → ℚ) : ℚ := tableSum d.weights f

/-- No outcome has a negative weight. -/
def Nonneg (d : Distribution ℚ) : Prop := ∀ p ∈ d.toList, 0 ≤ p.2

@[simp] theorem sumOver_empty (f : Outcome → ℚ) : (empty : Distribution ℚ).sumOver f = 0 :=
  tableSum_empty f

theorem sumOver_congr {d : Distribution ℚ} {f g : Outcome → ℚ}
    (h : ∀ p ∈ d.toList, f p.1 = g p.1) : d.sumOver f = d.sumOver g :=
  tableSum_congr h

@[simp] theorem sumOver_zero (d : Distribution ℚ) : d.sumOver (fun _ => 0) = 0 :=
  tableSum_zero d.weights

theorem sumOver_mul (d : Distribution ℚ) (c : ℚ) (f : Outcome → ℚ) :
    d.sumOver (fun v => c * f v) = c * d.sumOver f :=
  tableSum_mul d.weights c f

theorem weightOf_eq_sumOver (d : Distribution ℚ) (v : Outcome) :
    d.weightOf v = d.sumOver fun x => if x = v then 1 else 0 :=
  (tableSum_indicator d.weights v).symm

theorem total_eq_sumOver (d : Distribution ℚ) : d.total = d.sumOver fun _ => 1 := by
  simp only [total, Weight.sum, sumOver, tableSum, mul_one, ← List.sum_eq_foldl]
  rfl

/-! ## 3. Adding outcomes -/

theorem nonneg_iff {d : Distribution ℚ} : d.Nonneg ↔ ∀ v, 0 ≤ d.weightOf v := by
  constructor
  · intro h v
    by_cases hv : v ∈ d.weights
    · obtain ⟨w, hw⟩ := Option.isSome_iff_exists.1 (Std.TreeMap.isSome_getElem?_iff_mem.2 hv)
      have hmem : (v, w) ∈ d.toList := Std.TreeMap.mem_toList_iff_getElem?_eq_some.2 hw
      rw [weightOf, mem_toList hmem]
      exact h _ hmem
    · rw [weightOf, getD_eq_zero hv]
  · intro h p hp
    rw [← mem_toList hp]
    exact h p.1

theorem Nonneg.total_nonneg {d : Distribution ℚ} (h : d.Nonneg) : 0 ≤ d.total := by
  rw [total_eq_sumOver]
  refine List.sum_nonneg fun x hx => ?_
  obtain ⟨p, hp, rfl⟩ := List.mem_map.1 hx
  rw [mul_one]
  exact h p hp

theorem nonneg_empty : (empty : Distribution ℚ).Nonneg :=
  nonneg_iff.2 fun v => (weightOf_empty v).ge

theorem Nonneg.add {d : Distribution ℚ} (h : d.Nonneg) (v : Outcome) (w : ℚ) :
    (d.add v w).Nonneg := by
  rw [nonneg_iff] at h ⊢
  intro x
  rw [weightOf_add]
  split
  · next hw => exact add_nonneg (h x) hw.1.le
  · exact h x

theorem sumOver_add {w : ℚ} (hw : 0 ≤ w) (d : Distribution ℚ) (v : Outcome) (f : Outcome → ℚ) :
    (d.add v w).sumOver f = d.sumOver f + w * f v := by
  rcases hw.eq_or_lt with rfl | hw
  · simp [add]
  · rw [add, if_pos hw]
    exact tableSum_alter d.weights v w f

@[simp] theorem sumOver_point (v : Outcome) (f : Outcome → ℚ) :
    (point v 1 : Distribution ℚ).sumOver f = f v := by
  rw [point, sumOver_add zero_le_one, sumOver_empty, zero_add, one_mul]

theorem nonneg_point (v : Outcome) : (point v 1 : Distribution ℚ).Nonneg := nonneg_empty.add v 1

theorem toList_point (v : Outcome) : (point v 1 : Distribution ℚ).toList = [(v, 1)] := by
  have hempty : (empty : Distribution ℚ).weights = ∅ := rfl
  rw [point, add, if_pos zero_lt_one, toList, hempty]
  have hlen : ((∅ : Std.TreeMap Outcome ℚ).alter v fun old => some (old.getD 0 + 1)).toList.length
      = 1 := by
    rw [Std.TreeMap.length_toList, Std.TreeMap.size_alter]
    simp
  obtain ⟨p, hp⟩ := List.length_eq_one_iff.1 hlen
  have hmem := Std.TreeMap.mem_toList_iff_getElem?_eq_some.1 (hp ▸ List.mem_singleton_self p)
  rw [Std.TreeMap.getElem?_alter] at hmem
  rw [hp]
  by_cases h : compare v p.1 = .eq
  · rw [if_pos h] at hmem
    refine congrArg (fun q => [q]) (Prod.ext (Std.compare_eq_iff_eq.1 h).symm ?_)
    simpa [eq_comm] using hmem
  · simp [h] at hmem

@[simp] theorem point?_point (v : Outcome) : (point v 1 : Distribution ℚ).point? = some v := by
  rw [point?, toList_point]

theorem toList_of_point? {d : Distribution ℚ} {v : Outcome} (h : d.point? = some v) :
    ∃ w, d.toList = [(v, w)] := by
  unfold point? at h
  split at h
  · next value w hlist => exact ⟨w, by rw [hlist, Option.some.inj h]⟩
  · cases h

/-- A distribution with a single outcome. -/
theorem sumOver_of_point? {d : Distribution ℚ} {v : Outcome} (h : d.point? = some v)
    (f : Outcome → ℚ) : d.sumOver f = d.total * f v := by
  obtain ⟨w, hw⟩ := toList_of_point? h
  have hsum : ∀ g : Outcome → ℚ, d.sumOver g = w * g v := by
    intro g
    rw [sumOver, tableSum, show d.weights.toList = [(v, w)] from hw]
    simp
  rw [total_eq_sumOver, hsum, hsum fun _ => 1, mul_one]

/-! ## 4. Operations on one distribution -/

/-- A distribution made of a list of outcomes with weights. -/
theorem sumOver_ofList {l : List (Outcome × ℚ)} (hl : ∀ p ∈ l, 0 ≤ p.2) (f : Outcome → ℚ) :
    (ofList l).sumOver f = (l.map fun p => p.2 * f p.1).sum := by
  have h := foldl_measure (fun d (p : Outcome × ℚ) => add d p.1 p.2) (fun d => d.sumOver f)
    (fun p => p.2 * f p.1) l empty fun d p hp => sumOver_add (hl p hp) d p.1 f
  rwa [sumOver_empty, zero_add] at h

theorem nonneg_ofList (l : List (Outcome × ℚ)) : (ofList l).Nonneg :=
  foldl_invariant _ Nonneg l nonneg_empty fun _ p _ hd => hd.add p.1 p.2

/-- Adding a second distribution, scaled by a factor. -/
theorem sumOver_addScaled {other : Distribution ℚ} (ho : other.Nonneg) {c : ℚ} (hc : 0 ≤ c)
    (d : Distribution ℚ) (f : Outcome → ℚ) :
    (d.addScaled other c).sumOver f = d.sumOver f + c * other.sumOver f := by
  have h := foldl_measure (fun out (p : Outcome × ℚ) => add out p.1 (p.2 * c)) (fun d => d.sumOver f)
    (fun p => c * (p.2 * f p.1)) other.toList d fun out p hp => by
      rw [sumOver_add (mul_nonneg (ho p hp) hc)]
      ring
  rwa [List.sum_map_mul_left] at h

theorem nonneg_addScaled {d : Distribution ℚ} (hd : d.Nonneg) (other : Distribution ℚ) (c : ℚ) :
    (d.addScaled other c).Nonneg :=
  foldl_invariant _ Nonneg other.toList hd fun _ p _ hd => hd.add p.1 _

theorem sumOver_map {d : Distribution ℚ} (hd : d.Nonneg) (m : Outcome → Outcome)
    (f : Outcome → ℚ) : (d.map m).sumOver f = d.sumOver fun v => f (m v) := by
  have h := foldl_measure (fun out (p : Outcome × ℚ) => add out (m p.1) p.2) (fun d => d.sumOver f)
    (fun p => p.2 * f (m p.1)) d.toList empty fun out p hp => sumOver_add (hd p hp) out (m p.1) f
  rwa [sumOver_empty, zero_add] at h

theorem nonneg_map (d : Distribution ℚ) (m : Outcome → Outcome) : (d.map m).Nonneg :=
  foldl_invariant _ Nonneg d.toList nonneg_empty fun _ p _ hd => hd.add (m p.1) p.2

theorem sumOver_filter (d : Distribution ℚ) (keep : Outcome → Bool) (f : Outcome → ℚ) :
    (d.filter keep).sumOver f = d.sumOver fun v => if keep v then f v else 0 := by
  unfold sumOver tableSum filter
  rw [Std.TreeMap.toList_filter]
  induction d.weights.toList with
  | nil => rfl
  | cons p l ih => by_cases h : keep p.1 <;> simp [h, ih]

/-- Replacing each outcome by a function that succeeds on all of them. -/
theorem sumOver_tryMap {ε : Type} {d e : Distribution ℚ} {m : Outcome → Except ε Outcome}
    {f g : Outcome → ℚ} (hm : ∀ v c, m v = .ok c → g c = f v) (hd : d.Nonneg)
    (h : d.tryMap m = .ok e) : e.sumOver g = d.sumOver f := by
  have hs := foldlM_measure _ (fun d => d.sumOver g) (fun p => p.2 * f p.1) d.toList h ?_
  · rwa [sumOver_empty, zero_add] at hs
  · intro out next p hp hstep
    obtain ⟨c, hc, hout⟩ := bind_eq_ok.1 hstep
    obtain rfl := pure_eq_ok.1 hout
    rw [sumOver_add (hd p hp), hm _ _ hc]

theorem nonneg_tryMap {ε : Type} {d e : Distribution ℚ} {m : Outcome → Except ε Outcome}
    (h : d.tryMap m = .ok e) : e.Nonneg := by
  refine foldlM_invariant _ Nonneg d.toList h nonneg_empty fun out next p _ hout hstep => ?_
  obtain ⟨c, -, hnext⟩ := bind_eq_ok.1 hstep
  obtain rfl := pure_eq_ok.1 hnext
  exact hout.add c _

/-- Moving all outcomes by one amount. -/
theorem sumOver_shift {d e : Distribution ℚ} {amount : Outcome} (hd : d.Nonneg)
    (h : d.shift amount = .ok e) (F : ℤ → ℚ) :
    e.sumOver (fun v => F v.hundredths)
      = d.sumOver fun v => F (amount.hundredths + v.hundredths) := by
  refine sumOver_tryMap (fun v c hc => ?_) hd h
  cases hadd : v.add? amount with
  | none => simp [hadd] at hc
  | some sum =>
    obtain rfl : sum = c := by simpa [hadd] using hc
    rw [Outcome.add?_eq_some.1 hadd, add_comm]

/-! ## 5. Independent values -/

/-- Combining two independent values by an operation that succeeds on all pairs. -/
theorem sumOver_combine {ε : Type} {x y z : Distribution ℚ}
    {op : Outcome → Outcome → Except ε Outcome} {f : Outcome → Outcome → ℚ} {g : Outcome → ℚ}
    (hop : ∀ a b c, op a b = .ok c → g c = f a b) (hx : x.Nonneg) (hy : y.Nonneg)
    (h : x.combine y op = .ok z) :
    z.sumOver g = x.sumOver fun a => y.sumOver fun b => f a b := by
  have hs := foldlM_measure _ (fun d => d.sumOver g)
    (fun p => p.2 * y.sumOver fun b => f p.1 b) x.toList h ?_
  · rwa [sumOver_empty, zero_add] at hs
  · intro out next p hp hstep
    have hrow := foldlM_measure _ (fun d => d.sumOver g)
      (fun q => p.2 * (q.2 * f p.1 q.1)) y.toList hstep ?_
    · rw [hrow, List.sum_map_mul_left]
      rfl
    · intro out next q hq hcell
      obtain ⟨c, hc, hout⟩ := bind_eq_ok.1 hcell
      obtain rfl := pure_eq_ok.1 hout
      rw [sumOver_add (mul_nonneg (hx p hp) (hy q hq)), hop _ _ _ hc, mul_assoc]

theorem nonneg_combine {ε : Type} {x y z : Distribution ℚ}
    {op : Outcome → Outcome → Except ε Outcome} (h : x.combine y op = .ok z) : z.Nonneg := by
  refine foldlM_invariant _ Nonneg x.toList h nonneg_empty fun out next p _ hout hstep => ?_
  refine foldlM_invariant _ Nonneg y.toList hstep hout fun out next q _ hout hcell => ?_
  obtain ⟨c, -, hnext⟩ := bind_eq_ok.1 hcell
  obtain rfl := pure_eq_ok.1 hnext
  exact hout.add c _

/-- Combining fails as the operation does on some pair of outcomes. -/
theorem exists_error_of_combine {W ε : Type} [Weight W] {x y : Distribution W}
    {op : Outcome → Outcome → Except ε Outcome} {e : ε} (h : x.combine y op = .error e) :
    ∃ a ∈ x.toList.map Prod.fst, ∃ b ∈ y.toList.map Prod.fst, op a b = .error e := by
  obtain ⟨p, hp, out, hrow⟩ := exists_error_of_foldlM h
  obtain ⟨q, hq, out, hcell⟩ := exists_error_of_foldlM hrow
  obtain hop | ⟨c, -, hc⟩ := bind_eq_error.1 hcell
  · exact ⟨p.1, List.mem_map_of_mem hp, q.1, List.mem_map_of_mem hq, hop⟩
  · cases hc

@[simp] theorem checkWeights_eq (d : Distribution ℚ) : d.checkWeights = .ok d := rfl

theorem convolve_eq (x y : Distribution ℚ) :
    x.convolve y = x.combine y fun a b => match a.add? b with
      | some sum => .ok sum
      | none => .error .value := by
  unfold convolve
  cases x.combine y _ <;> rfl

theorem add?_eq_ok {a b c : Outcome} :
    (match a.add? b with
      | some sum => .ok sum
      | none => .error Exceeded.value) = Except.ok c ↔ a.add? b = some c := by
  cases a.add? b <;> simp

/-- The sum of two independent values. -/
theorem sumOver_convolve {x y z : Distribution ℚ} (hx : x.Nonneg) (hy : y.Nonneg)
    (h : x.convolve y = .ok z) (F : ℤ → ℚ) :
    z.sumOver (fun v => F v.hundredths)
      = x.sumOver fun a => y.sumOver fun b => F (a.hundredths + b.hundredths) := by
  rw [convolve_eq] at h
  refine sumOver_combine (fun a b c hc => ?_) hx hy h
  rw [Outcome.add?_eq_some.1 (add?_eq_ok.1 hc)]

theorem nonneg_convolve {x y z : Distribution ℚ} (h : x.convolve y = .ok z) : z.Nonneg :=
  nonneg_combine (convolve_eq x y ▸ h)

/-! ## 6. Several independent values -/

/-- The sum of `f` over all ways to draw one outcome from each distribution, in order. -/
def sumOverAll : List (Distribution ℚ) → (List Outcome → ℚ) → ℚ
  | [], f => f []
  | d :: ds, f => d.sumOver fun v => sumOverAll ds fun vs => f (v :: vs)

/-- Only lists of outcomes that can happen matter. -/
theorem sumOverAll_congr {ds : List (Distribution ℚ)} {f g : List Outcome → ℚ}
    (h : ∀ vs, List.Forall₂ (fun v (d : Distribution ℚ) => v ∈ d.toList.map Prod.fst) vs ds →
      f vs = g vs) : sumOverAll ds f = sumOverAll ds g := by
  induction ds generalizing f g with
  | nil => exact h [] .nil
  | cons d ds ih =>
    exact sumOver_congr fun p hp => ih fun vs hvs =>
      h (p.1 :: vs) (.cons (List.mem_map_of_mem hp) hvs)

theorem sumOverAll_mul (ds : List (Distribution ℚ)) (c : ℚ) (f : List Outcome → ℚ) :
    sumOverAll ds (fun vs => c * f vs) = c * sumOverAll ds f := by
  induction ds generalizing f with
  | nil => rfl
  | cons d ds ih => simp only [sumOverAll, ih, sumOver_mul]

theorem sumOverAll_append (ds es : List (Distribution ℚ)) (f : List Outcome → ℚ) :
    sumOverAll (ds ++ es) f = sumOverAll ds fun us => sumOverAll es fun vs => f (us ++ vs) := by
  induction ds generalizing f with
  | nil => rfl
  | cons d ds ih => simp only [List.cons_append, sumOverAll, ih]

/-- Two copies at once, or one after the other. -/
theorem sumOverAll_double {base twice : Distribution ℚ} (hb : base.Nonneg)
    (h : base.convolve base = .ok twice) (n : ℕ) (F : ℤ → ℚ) :
    sumOverAll (List.replicate n twice) (fun vs => F (Outcome.exactSum vs))
      = sumOverAll (List.replicate (2 * n) base) fun vs => F (Outcome.exactSum vs) := by
  induction n generalizing F with
  | zero => rfl
  | succ n ih =>
    rw [List.replicate_succ, sumOverAll]
    simp only [Outcome.exactSum_cons]
    have hstep : ∀ v : Outcome,
        sumOverAll (List.replicate n twice) (fun vs => F (v.hundredths + Outcome.exactSum vs))
          = sumOverAll (List.replicate (2 * n) base)
              fun vs => F (v.hundredths + Outcome.exactSum vs) :=
      fun v => ih fun m => F (v.hundredths + m)
    simp only [hstep]
    rw [sumOver_convolve hb hb h fun m =>
      sumOverAll (List.replicate (2 * n) base) fun vs => F (m + Outcome.exactSum vs)]
    rw [show 2 * (n + 1) = 2 * n + 1 + 1 by ring, List.replicate_succ, List.replicate_succ]
    simp only [sumOverAll, Outcome.exactSum_cons, add_assoc]

/-- One binary digit of the number of copies. -/
theorem addCopies_digit (sum base : Distribution ℚ) {n : ℕ} (hn : n ≠ 0) :
    addCopies sum base n =
      (if n % 2 = 1 then sum.convolve base else .ok sum) >>= fun sum =>
        if n / 2 = 0 then pure sum
        else base.convolve base >>= fun twice => addCopies sum twice (n / 2) := by
  rw [addCopies, dif_neg hn]
  by_cases h : n % 2 = 1
  · rw [if_pos h, if_pos h]
  · rw [if_neg h, if_neg h]

/-- The invariant of repeated squaring: `n` more copies of `base` are to be added to `sum`. -/
theorem sumOver_addCopies (n : ℕ) {sum base r : Distribution ℚ} (hs : sum.Nonneg)
    (hb : base.Nonneg) (h : addCopies sum base n = .ok r) (F : ℤ → ℚ) :
    r.sumOver (fun v => F v.hundredths)
      = sum.sumOver fun a => sumOverAll (List.replicate n base)
          fun vs => F (a.hundredths + Outcome.exactSum vs) := by
  induction n using Nat.strong_induction_on generalizing sum base r F with
  | _ n ih =>
    rcases eq_or_ne n 0 with rfl | hn
    · rw [addCopies, dif_pos rfl] at h
      obtain rfl := pure_eq_ok.1 h
      simp [sumOverAll]
    rw [addCopies_digit sum base hn, bind_eq_ok] at h
    obtain ⟨odd, hodd, h⟩ := h
    -- what is added for the last binary digit
    have hdigit : odd.Nonneg ∧ ∀ F : ℤ → ℚ, odd.sumOver (fun v => F v.hundredths)
        = sum.sumOver fun a => sumOverAll (List.replicate (n % 2) base)
            fun vs => F (a.hundredths + Outcome.exactSum vs) := by
      rcases Nat.mod_two_eq_zero_or_one n with h0 | h1
      · rw [h0, if_neg zero_ne_one] at hodd
        cases hodd
        exact ⟨hs, fun F => by simp [h0, sumOverAll]⟩
      · rw [h1, if_pos rfl] at hodd
        refine ⟨nonneg_convolve hodd, fun F => ?_⟩
        rw [sumOver_convolve hs hb hodd F]
        simp [h1, sumOverAll]
    obtain ⟨hoddn, hdigit⟩ := hdigit
    have hsplit := Nat.div_add_mod n 2
    split at h
    · next hhalf =>
      obtain rfl := pure_eq_ok.1 h
      rw [hdigit, show n % 2 = n by omega]
    · next hhalf =>
      obtain ⟨twice, htwice, h⟩ := bind_eq_ok.1 h
      rw [ih (n / 2) (by omega) hoddn (nonneg_convolve htwice) h F]
      have hpairs : ∀ a : Outcome,
          sumOverAll (List.replicate (n / 2) twice) (fun vs => F (a.hundredths + Outcome.exactSum vs))
            = sumOverAll (List.replicate (2 * (n / 2)) base)
                fun vs => F (a.hundredths + Outcome.exactSum vs) :=
        fun a => sumOverAll_double hb htwice (n / 2) fun m => F (a.hundredths + m)
      simp only [hpairs]
      rw [hdigit fun m => sumOverAll (List.replicate (2 * (n / 2)) base)
        fun vs => F (m + Outcome.exactSum vs)]
      conv_rhs => rw [← hsplit, add_comm, List.replicate_add]
      simp only [sumOverAll_append, Outcome.exactSum_append, add_assoc]

/-- The sum of independent copies of one value. -/
theorem sumOver_sumOfCopies {d r : Distribution ℚ} {n : ℕ} (hd : d.Nonneg)
    (h : d.sumOfCopies n = .ok r) (F : ℤ → ℚ) :
    r.sumOver (fun v => F v.hundredths)
      = sumOverAll (List.replicate n d) fun vs => F (Outcome.exactSum vs) := by
  rw [sumOver_addCopies n (nonneg_point 0) hd h, sumOver_point]
  simp only [Outcome.hundredths_zero, zero_add]

end Distribution

end DiceOdds
