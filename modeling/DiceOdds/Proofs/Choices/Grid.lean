import DiceOdds.Proofs.Choices.Basic
import DiceOdds.Proofs.Counting.Limits
import DiceOdds.Proofs.Counting.Succeeds

/-!
# Sums that stay on the grid

A sum of copies is computed from partial sums, in an order that repeated squaring chooses, and fails
when a partial sum leaves the grid.  Here this is said without partial sums: the computation succeeds
if and only if no choice of all the values leaves the grid.

## Why the extreme values decide

The sum of `k` values lies between `k` times the least and `k` times the greatest of them.  The grid
is an interval around zero, so it holds these two multiples for all `k` if it holds them for the
last one (`OnGrid.mul_le`).  In the other direction a choice of all values is what a result stands
for, and a result lies on the grid.
-/

namespace DiceOdds

open Outcome (exactSum)

/-! ## 1. The grid -/

namespace Outcome

/-- Whether there is an outcome with this many hundredths. -/
def OnGrid (n : ℤ) : Prop := -0x8000000000000000 ≤ n ∧ n < 0x8000000000000000

instance : DecidablePred OnGrid :=
  fun n => inferInstanceAs (Decidable (-0x8000000000000000 ≤ n ∧ n < 0x8000000000000000))

theorem onGrid_hundredths (a : Outcome) : OnGrid a.hundredths := ⟨a.least_le, a.lt_bound⟩

theorem OnGrid.exists {n : ℤ} (h : OnGrid n) : ∃ a : Outcome, a.hundredths = n :=
  ⟨⟨n, h.1, h.2⟩, rfl⟩

/-- The grid is an interval. -/
theorem OnGrid.between {a b n : ℤ} (ha : OnGrid a) (hb : OnGrid b) (hlow : a ≤ n) (hhigh : n ≤ b) :
    OnGrid n :=
  ⟨ha.1.trans hlow, hhigh.trans_lt hb.2⟩

/-- Fewer copies lie on the grid if more of them do. -/
theorem OnGrid.mul_le {a : ℤ} {k n : ℕ} (hk : k ≤ n) (h : OnGrid (n * a)) : OnGrid (k * a) := by
  have hzero : OnGrid 0 := by decide
  have hcast : (k : ℤ) ≤ n := Int.ofNat_le.2 hk
  rcases le_total 0 a with ha | ha
  · exact hzero.between h (mul_nonneg (Int.natCast_nonneg k) ha) (mul_le_mul_of_nonneg_right hcast ha)
  · exact h.between hzero (mul_le_mul_of_nonpos_right hcast ha)
      (mul_nonpos_of_nonneg_of_nonpos (Int.natCast_nonneg k) ha)

theorem exists_add? {a b : Outcome} (h : OnGrid (a.hundredths + b.hundredths)) :
    ∃ c, a.add? b = some c := by
  obtain ⟨c, hc⟩ := h.exists
  exact ⟨c, add?_eq_some.2 hc⟩

end Outcome

open Outcome (OnGrid)

namespace Distribution

variable {d x y : Distribution ℚ}

/-! ## 2. What adds up to nothing -/

/-- With positive weights only zeros add up to zero. -/
theorem sumOver_eq_zero_iff (hd : d.Positive) {f : Outcome → ℚ} (hf : ∀ v, 0 ≤ f v) :
    d.sumOver f = 0 ↔ ∀ p ∈ d.toList, f p.1 = 0 := by
  constructor
  · intro hsum p hp
    have hterms : ∀ t ∈ d.toList.map (fun p => p.2 * f p.1), 0 ≤ t := by
      intro t ht
      obtain ⟨q, hq, rfl⟩ := List.mem_map.1 ht
      exact mul_nonneg (hd q hq).le (hf q.1)
    have hle := List.single_le_sum hterms _ (List.mem_map_of_mem hp)
    have hzero : p.2 * f p.1 = 0 :=
      le_antisymm (hle.trans_eq hsum) (mul_nonneg (hd p hp).le (hf p.1))
    exact (mul_eq_zero.1 hzero).resolve_left (hd p hp).ne'
  · intro h
    rw [← d.sumOver_zero]
    exact sumOver_congr h

/-- The same for choices from several distributions. -/
theorem sumOverAll_eq_zero_iff {ds : List (Distribution ℚ)} (hds : ∀ d ∈ ds, d.Positive)
    {f : List Outcome → ℚ} (hf : ∀ vs, 0 ≤ f vs) :
    sumOverAll ds f = 0 ↔
      ∀ vs, List.Forall₂ (fun v (d : Distribution ℚ) => v ∈ d.toList.map Prod.fst) vs ds → f vs = 0 := by
  induction ds generalizing f with
  | nil => simp [sumOverAll]
  | cons d ds ih =>
    obtain ⟨hd, hds⟩ := List.forall_mem_cons.1 hds
    have hrest := fun v => ih hds (f := fun vs => f (v :: vs)) fun vs => hf (v :: vs)
    rw [sumOverAll, sumOver_eq_zero_iff hd fun v =>
      sumOverAll_nonneg (fun d hd => (hds d hd).nonneg) fun vs => hf (v :: vs)]
    simp only [hrest]
    constructor
    · rintro h (_ | ⟨v, vs⟩) hvs
      · cases hvs
      · obtain ⟨hv, htail⟩ := List.forall₂_cons.1 hvs
        obtain ⟨p, hp, rfl⟩ := List.mem_map.1 hv
        exact h p hp vs htail
    · intro h p hp vs hvs
      exact h (p.1 :: vs) (.cons (List.mem_map_of_mem hp) hvs)

/-- One for what lacks a property. -/
def lacks (P : ℤ → Prop) [DecidablePred P] (n : ℤ) : ℚ := if P n then 0 else 1

section Lacks

variable {P : ℤ → Prop} [DecidablePred P]

theorem lacks_nonneg (n : ℤ) : 0 ≤ lacks P n := by
  unfold lacks
  split
  · exact le_rfl
  · exact zero_le_one

theorem lacks_eq_zero {n : ℤ} : lacks P n = 0 ↔ P n := by
  unfold lacks
  split <;> simp [*]

/-- All outcomes have a property if what lacks it has no weight. -/
theorem sumOver_lacks (hd : d.Positive) :
    d.sumOver (fun v => lacks P v.hundredths) = 0 ↔ ∀ p ∈ d.toList, P p.1.hundredths := by
  rw [sumOver_eq_zero_iff hd fun v => lacks_nonneg v.hundredths]
  simp only [lacks_eq_zero]

end Lacks

/-- Some outcomes of the same distribution, one after the other. -/
def IsDraw (d : Distribution ℚ) (n : ℕ) (vs : List Outcome) : Prop :=
  vs.length = n ∧ ∀ v ∈ vs, v ∈ d.toList.map Prod.fst

theorem isDraw_replicate {v : Outcome} (h : v ∈ d.toList.map Prod.fst) (n : ℕ) :
    d.IsDraw n (List.replicate n v) :=
  ⟨List.length_replicate, fun _ hu => List.eq_of_mem_replicate hu ▸ h⟩

/-- To draw from copies is to choose from each of them. -/
theorem forall₂_replicate_iff {vs : List Outcome} {n : ℕ} :
    List.Forall₂ (fun v (d : Distribution ℚ) => v ∈ d.toList.map Prod.fst) vs (List.replicate n d)
      ↔ d.IsDraw n vs := by
  unfold IsDraw
  induction n generalizing vs with
  | zero => cases vs <;> simp
  | succ n ih =>
    cases vs with
    | nil => simp [List.replicate_succ]
    | cons v vs =>
      rw [List.replicate_succ, List.forall₂_cons, ih, List.length_cons, List.forall_mem_cons,
        Nat.add_right_cancel_iff]
      exact and_left_comm

/-- Draws add up to nothing if each of them does. -/
theorem sumOverAll_replicate_eq_zero_iff (hd : d.Positive) (n : ℕ) {f : List Outcome → ℚ}
    (hf : ∀ vs, 0 ≤ f vs) :
    sumOverAll (List.replicate n d) f = 0 ↔ ∀ vs, d.IsDraw n vs → f vs = 0 := by
  rw [sumOverAll_eq_zero_iff (fun _ he => List.eq_of_mem_replicate he ▸ hd) hf]
  simp only [forall₂_replicate_iff]

/-! ## 3. Bounds -/

/-- The bounds are outcomes. -/
theorem mem_of_min? {low : Outcome} (h : d.min? = some low) : low ∈ d.toList.map Prod.fst := by
  rw [min?, Option.map_eq_some_iff] at h
  obtain ⟨p, hp, rfl⟩ := h
  exact List.mem_map_of_mem (List.mem_of_head? hp)

theorem mem_of_max? {high : Outcome} (h : d.max? = some high) : high ∈ d.toList.map Prod.fst := by
  rw [max?, Option.map_eq_some_iff] at h
  obtain ⟨p, hp, rfl⟩ := h
  exact List.mem_map_of_mem (List.mem_of_getLast? hp)

/-- The sums of `n` values between two bounds lie on the grid. -/
structure Room (low high : ℤ) (n : ℕ) : Prop where
  low : OnGrid (n * low)
  high : OnGrid (n * high)

theorem Room.mono {low high : ℤ} {k n : ℕ} (h : Room low high n) (hk : k ≤ n) : Room low high k :=
  ⟨h.low.mul_le hk, h.high.mul_le hk⟩

/-- The integer lies where the sums of `k` values between two bounds lie. -/
def Between (low high : ℤ) (k : ℕ) (n : ℤ) : Prop := k * low ≤ n ∧ n ≤ k * high

instance (low high : ℤ) (k : ℕ) : DecidablePred (Between low high k) :=
  fun n => inferInstanceAs (Decidable (k * low ≤ n ∧ n ≤ k * high))

theorem Between.add {low high m n : ℤ} {j k : ℕ} (hm : Between low high j m)
    (hn : Between low high k n) : Between low high (j + k) (m + n) := by
  obtain ⟨hml, hmh⟩ := hm
  obtain ⟨hnl, hnh⟩ := hn
  constructor <;> push_cast <;> linarith

theorem Room.onGrid {low high n : ℤ} {k : ℕ} (h : Room low high k) (hn : Between low high k n) :
    OnGrid n :=
  h.low.between h.high hn.1 hn.2

/-- Where no draw leaves the grid there is room for the sums. -/
theorem exists_room (n : ℕ) (h : ∀ vs, d.IsDraw n vs → OnGrid (exactSum vs)) :
    ∃ low high, (∀ p ∈ d.toList, Between low high 1 p.1.hundredths) ∧ Room low high n := by
  rcases eq_or_ne d.toList [] with hnil | hne
  · refine ⟨0, 0, fun p hp => ?_, ?_, ?_⟩
    · rw [hnil] at hp
      cases hp
    all_goals rw [mul_zero]; decide
  obtain ⟨low, high, hlow, hhigh⟩ := bounds_of_ne_nil hne
  have hextreme : ∀ v ∈ d.toList.map Prod.fst, OnGrid (n * v.hundredths) := by
    intro v hv
    simpa [exactSum] using h _ (isDraw_replicate hv n)
  refine ⟨low.hundredths, high.hundredths, fun p hp => ?_, ?_, ?_⟩
  · rw [Between, Nat.cast_one, one_mul, one_mul]
    exact ⟨min?_le hlow hp, le_max? hhigh hp⟩
  · exact hextreme low (mem_of_min? hlow)
  · exact hextreme high (mem_of_max? hhigh)

/-! ## 4. Sums of copies -/

/-- The sum of two sums. -/
theorem exists_convolve {low high : ℤ} {j k n : ℕ} (hroom : Room low high n) (hjk : j + k ≤ n)
    (hx : x.Positive) (hy : y.Positive) (hxs : ∀ p ∈ x.toList, Between low high j p.1.hundredths)
    (hys : ∀ p ∈ y.toList, Between low high k p.1.hundredths) :
    ∃ z, x.convolve y = .ok z ∧ z.Positive
      ∧ ∀ p ∈ z.toList, Between low high (j + k) p.1.hundredths := by
  obtain ⟨z, hz⟩ : Succeeds (x.convolve y) := by
    rw [convolve_eq]
    refine succeeds_combine.2 fun a ha b hb => ?_
    obtain ⟨p, hp, rfl⟩ := exists_of_mem ha
    obtain ⟨q, hq, rfl⟩ := exists_of_mem hb
    obtain ⟨c, hc⟩ := Outcome.exists_add? ((hroom.mono hjk).onGrid ((hxs p hp).add (hys q hq)))
    exact ⟨c, add?_eq_ok.2 hc⟩
  refine ⟨z, hz, positive_convolve hz, ?_⟩
  -- a sum of two outcomes lacks nothing
  rw [← sumOver_lacks (positive_convolve hz), sumOver_convolve hx.nonneg hy.nonneg hz,
    ← x.sumOver_zero]
  refine sumOver_congr fun p hp => ?_
  rw [← y.sumOver_zero]
  exact sumOver_congr fun q hq => lacks_eq_zero.2 ((hxs p hp).add (hys q hq))

/-- Repeated squaring never meets a sum of more than all copies. -/
theorem succeeds_addCopies {low high : ℤ} {m b N : ℕ} (n : ℕ) (hroom : Room low high N)
    (hN : m + n * b ≤ N) (hx : x.Positive) (hy : y.Positive)
    (hxs : ∀ p ∈ x.toList, Between low high m p.1.hundredths)
    (hys : ∀ p ∈ y.toList, Between low high b p.1.hundredths) : Succeeds (addCopies x y n) := by
  induction n using Nat.strong_induction_on generalizing x y m b with
  | _ n ih =>
  rcases eq_or_ne n 0 with rfl | hn
  · rw [addCopies, dif_pos rfl]
    exact succeeds_pure _
  have hcopies : n * b = n / 2 * (2 * b) + n % 2 * b := by
    conv_lhs => rw [← Nat.div_add_mod n 2]
    ring
  rw [addCopies_digit _ _ hn]
  -- the last binary digit
  obtain ⟨odd, hodd, hpos, hbetween⟩ : ∃ odd,
      (if n % 2 = 1 then x.convolve y else .ok x) = .ok odd ∧ odd.Positive
        ∧ ∀ p ∈ odd.toList, Between low high (m + n % 2 * b) p.1.hundredths := by
    rcases Nat.mod_two_eq_zero_or_one n with h0 | h1
    · exact ⟨x, by rw [h0, if_neg zero_ne_one], hx, by rwa [h0, zero_mul, add_zero]⟩
    · obtain ⟨odd, hodd, hpos, hbetween⟩ := exists_convolve hroom
        (by rw [h1, one_mul] at hcopies; omega) hx hy hxs hys
      exact ⟨odd, by rw [h1, if_pos rfl, hodd], hpos, by rwa [h1, one_mul]⟩
  refine succeeds_bind.2 ⟨odd, hodd, ?_⟩
  split
  · exact succeeds_pure _
  · next hmore =>
    have htwo : b + b ≤ n / 2 * (2 * b) := by
      rw [← two_mul]
      exact Nat.le_mul_of_pos_left _ (Nat.pos_of_ne_zero hmore)
    obtain ⟨twice, htwice, htwicePos, htwiceBetween⟩ :=
      exists_convolve hroom (by omega) hy hy hys hys
    refine succeeds_bind.2 ⟨twice, htwice, ih (n / 2) (by omega) ?_ hpos htwicePos hbetween
      htwiceBetween⟩
    rw [← two_mul]
    omega

/-- **A sum of copies exists if and only if no draw leaves the grid.** -/
theorem succeeds_sumOfCopies_iff (hd : d.Positive) (n : ℕ) :
    Succeeds (d.sumOfCopies n) ↔ ∀ vs, d.IsDraw n vs → OnGrid (exactSum vs) := by
  constructor
  · rintro ⟨r, hr⟩
    have hgrid : r.sumOver (fun v => lacks OnGrid v.hundredths) = 0 :=
      (sumOver_lacks (positive_sumOfCopies hr)).2 fun p _ => p.1.onGrid_hundredths
    rw [sumOver_sumOfCopies hd.nonneg hr,
      sumOverAll_replicate_eq_zero_iff hd n fun _ => lacks_nonneg _] at hgrid
    exact fun vs hvs => lacks_eq_zero.1 (hgrid vs hvs)
  · intro h
    obtain ⟨low, high, hbetween, hroom⟩ := exists_room n h
    refine succeeds_addCopies (m := 0) (b := 1) n hroom (by omega) (positive_point 0) hd ?_ hbetween
    intro p hp
    rw [toList_point, List.mem_singleton] at hp
    rw [hp]
    simp [Between]

theorem succeeds_sumOfCopies_one (hd : d.Positive) : Succeeds (d.sumOfCopies 1) := by
  refine (succeeds_sumOfCopies_iff hd 1).2 fun vs hvs => ?_
  obtain ⟨v, rfl⟩ := List.length_eq_one_iff.1 hvs.1
  simpa using v.onGrid_hundredths

end Distribution

end DiceOdds
