import DiceOdds.Proofs.Counting.Counts
import DiceOdds.Distribution.Clamp

/-!
# Limits on dice with a known total

Among the rolls of some dice with a given total, the limited sums are counted: each die of such a
roll is limited by the threshold, and what the limited values add up to is the outcome.

## Why dropping pairs loses nothing

The computation follows pairs of a plain and a limited sum, and drops a pair from which the total
cannot be reached any more.  What a pair is worth is what the dice still to come can make of it
(`openRolls`).  A dropped pair is worth nothing (`openRolls_of_not_reaches`), so the worth of all
pairs together is the same after each die, and in the end it is the sum over the rolls with the
given total.
-/

namespace DiceOdds

open Outcome (exactSum exactSum_nil exactSum_cons)

/-- A bound on the grid is the sum so far and as many times the least or the greatest value. -/
theorem Outcome.add_times?_eq_some {v sum bound : Outcome} {n : ℕ}
    (h : (v.times? n).bind sum.add? = some bound) :
    bound.hundredths = sum.hundredths + n * v.hundredths := by
  obtain ⟨times, htimes, h⟩ := Option.bind_eq_some_iff.1 h
  rw [add?_eq_some.1 h, ofHundredths?_eq_some.1 htimes]

namespace Distribution

/-! ## 1. Bounds of a distribution -/

theorem min?_le {d : Distribution ℚ} {low : Outcome} (h : d.min? = some low) {p : Outcome × ℚ}
    (hp : p ∈ d.toList) : low ≤ p.1 := by
  have hsorted : d.toList.Pairwise fun a b => compare a.1 b.1 = .lt :=
    Std.TreeMap.ordered_keys_toList
  rw [min?] at h
  cases hlist : d.toList with
  | nil => rw [hlist] at hp; cases hp
  | cons q rest =>
    rw [hlist] at h hp hsorted
    obtain rfl : q.1 = low := by simpa using h
    rcases List.mem_cons.1 hp with rfl | hp
    · exact Int.le_refl _
    · exact Int.le_of_lt (Int.compare_eq_lt.1 ((List.pairwise_cons.1 hsorted).1 p hp))

theorem le_max? {d : Distribution ℚ} {high : Outcome} (h : d.max? = some high) {p : Outcome × ℚ}
    (hp : p ∈ d.toList) : p.1 ≤ high := by
  have hsorted : d.toList.Pairwise fun a b => compare a.1 b.1 = .lt :=
    Std.TreeMap.ordered_keys_toList
  rw [max?, Option.map_eq_some_iff] at h
  obtain ⟨q, hq, rfl⟩ := h
  obtain ⟨front, hfront⟩ := List.getLast?_eq_some_iff.1 hq
  rw [hfront] at hp hsorted
  rcases List.mem_append.1 hp with hp | hp
  · have hlt := (List.pairwise_append.1 hsorted).2.2 p hp q (List.mem_singleton_self q)
    exact Int.le_of_lt (Int.compare_eq_lt.1 hlt)
  · obtain rfl := List.mem_singleton.1 hp
    exact Int.le_refl _

/-- Where something can happen, there are bounds. -/
theorem bounds_of_ne_nil {d : Distribution ℚ} (h : d.toList ≠ []) :
    ∃ low high, d.min? = some low ∧ d.max? = some high := by
  obtain ⟨first, hfirst⟩ := Option.isSome_iff_exists.1 (List.isSome_head?.2 h)
  obtain ⟨last, hlast⟩ := Option.isSome_iff_exists.1 (List.getLast?_isSome.2 h)
  exact ⟨first.1, last.1, by rw [min?, hfirst]; rfl, by rw [max?, hlast]; rfl⟩

/-! ## 2. Reaching a total -/

theorem exactSum_between {low high : Outcome} {vs : List Outcome}
    (hvs : ∀ v ∈ vs, low ≤ v ∧ v ≤ high) :
    vs.length * low.hundredths ≤ exactSum vs ∧ exactSum vs ≤ vs.length * high.hundredths := by
  induction vs with
  | nil => simp
  | cons v vs ih =>
    obtain ⟨hlow, hhigh⟩ := ih fun u hu => hvs u (List.mem_cons_of_mem _ hu)
    have hv := hvs v (List.mem_cons_self ..)
    have hv₁ : low.hundredths ≤ v.hundredths := hv.1
    have hv₂ : v.hundredths ≤ high.hundredths := hv.2
    rw [exactSum_cons, List.length_cons]
    push_cast
    constructor <;> linarith

/-- A total that is reached is not excluded. -/
theorem reaches_of_exactSum {low high total sum : Outcome} {vs : List Outcome}
    (hvs : ∀ v ∈ vs, low ≤ v ∧ v ≤ high)
    (h : sum.hundredths + exactSum vs = total.hundredths) :
    reaches low high total vs.length sum = true := by
  obtain ⟨hlow, hhigh⟩ := exactSum_between hvs
  rw [reaches, Bool.and_eq_true, Option.all_eq_true, Option.all_eq_true]
  refine ⟨fun bound hb => ?_, fun bound hb => ?_⟩
  · have := Outcome.add_times?_eq_some hb
    exact decide_eq_true (show bound.hundredths ≤ total.hundredths by omega)
  · have := Outcome.add_times?_eq_some hb
    exact decide_eq_true (show total.hundredths ≤ bound.hundredths by omega)

/-! ## 3. Pairs of sums -/

instance : Std.TransOrd Sums :=
  inferInstanceAs (Std.TransCmp (compareLex (compareOn Sums.plain) (compareOn Sums.clamped)))

instance : Std.LawfulEqOrd Sums where
  eq_of_compare {a b} h := by
    obtain ⟨hplain, hclamped⟩ := compareLex_eq_eq.1 h
    cases a
    cases b
    congr
    · exact Std.compare_eq_iff_eq.1 hplain
    · exact Std.compare_eq_iff_eq.1 hclamped

section Rolling

variable (d : Distribution ℚ) (name : FunctionName) (threshold total : Outcome) (F : ℤ → ℚ)

/-- What a pair of sums is worth when `n` dice are still to come: the sum of `F` over the limited
sums of the rolls that reach the total. -/
def openRolls (n : ℕ) (plain clamped : ℤ) : ℚ :=
  sumOverAll (List.replicate n d) fun vs =>
    if plain + exactSum vs = total.hundredths then
      F (clamped + exactSum (vs.map (name.clamp threshold)))
    else 0

theorem openRolls_zero (plain clamped : ℤ) :
    openRolls d name threshold total F 0 plain clamped
      = if plain = total.hundredths then F clamped else 0 := by
  simp [openRolls, sumOverAll]

/-- One of the dice to come shows its value. -/
theorem openRolls_succ (n : ℕ) (plain clamped : ℤ) :
    openRolls d name threshold total F (n + 1) plain clamped
      = d.sumOver fun v => openRolls d name threshold total F n (plain + v.hundredths)
          (clamped + (name.clamp threshold v).hundredths) := by
  simp only [openRolls, List.replicate_succ, sumOverAll, exactSum_cons, List.map_cons, add_assoc]

variable {d} {name} {threshold} {total}

theorem openRolls_of_not_reaches {low high sum : Outcome} (hlow : d.min? = some low)
    (hhigh : d.max? = some high) {n : ℕ} (h : reaches low high total n sum = false) (clamped : ℤ) :
    openRolls d name threshold total F n sum.hundredths clamped = 0 := by
  have hzero : openRolls d name threshold total F n sum.hundredths clamped
      = sumOverAll (List.replicate n d) fun _ => 0 * 0 := by
    refine sumOverAll_congr fun vs hvs => ?_
    have hlen : vs.length = n := by rw [hvs.length_eq, List.length_replicate]
    have hbetween : ∀ v ∈ vs, low ≤ v ∧ v ≤ high := by
      intro v hv
      obtain ⟨i, hi, rfl⟩ := List.mem_iff_getElem.1 hv
      have hpossible := (List.forall₂_iff_get.1 hvs).2 i hi (hvs.length_eq ▸ hi)
      simp only [List.get_eq_getElem, List.getElem_replicate] at hpossible
      obtain ⟨p, hp, hpv⟩ := List.mem_map.1 hpossible
      exact hpv ▸ ⟨min?_le hlow hp, le_max? hhigh hp⟩
    rw [if_neg fun hsum => ?_, mul_zero]
    rw [← hlen, reaches_of_exactSum hbetween hsum] at h
    cases h
  rw [hzero, sumOverAll_mul, zero_mul]

/-- The worth of all pairs of a table. -/
def tableRolls (d : Distribution ℚ) (name : FunctionName) (threshold total : Outcome) (F : ℤ → ℚ)
    (n : ℕ) (states : Std.TreeMap Sums ℚ) : ℚ :=
  tableSum states fun sums =>
    openRolls d name threshold total F n sums.plain.hundredths sums.clamped.hundredths

/-- What a face does after a pair: the pair that both lead to gets its weight, or the total is out of
reach and nothing changes. -/
theorem addSums_eq_ok_iff {reachable : Outcome → Bool} {sums : Sums} {weight w : ℚ} {face : Outcome}
    {next next' : Std.TreeMap Sums ℚ} :
    addSums name threshold reachable sums weight next face w = .ok next'
      ↔ ∃ plain, sums.plain.add? face = some plain
        ∧ (reachable plain = false ∧ next' = next
          ∨ reachable plain = true ∧ ∃ clamped,
            sums.clamped.add? (name.clamp threshold face) = some clamped
              ∧ next' = next.alter ⟨plain, clamped⟩ fun old => some (old.getD 0 + weight * w)) := by
  unfold addSums
  cases sums.plain.add? face with
  | none => simp
  | some plain =>
    dsimp only
    cases hreach : reachable plain with
    | false => simp [hreach, @eq_comm _ next]
    | true =>
      cases sums.clamped.add? (name.clamp threshold face) with
      | none => simp [hreach]
      | some clamped => simp [hreach, @eq_comm _ next']

/-- One face after one pair. -/
theorem tableRolls_addSums {low high : Outcome} (hlow : d.min? = some low)
    (hhigh : d.max? = some high) {n : ℕ} {sums : Sums} {weight w : ℚ} {face : Outcome}
    {next next' : Std.TreeMap Sums ℚ}
    (h : addSums name threshold (reaches low high total n) sums weight next face w = .ok next') :
    tableRolls d name threshold total F n next' = tableRolls d name threshold total F n next
      + weight * (w * openRolls d name threshold total F n
          (sums.plain.hundredths + face.hundredths)
          (sums.clamped.hundredths + (name.clamp threshold face).hundredths)) := by
  obtain ⟨plain, hplain, ⟨hreach, rfl⟩ | ⟨-, clamped, hclamped, rfl⟩⟩ := addSums_eq_ok_iff.1 h
  · rw [← Outcome.add?_eq_some.1 hplain, openRolls_of_not_reaches F hlow hhigh hreach, mul_zero,
      mul_zero, add_zero]
  · rw [← Outcome.add?_eq_some.1 hplain, ← Outcome.add?_eq_some.1 hclamped, ← mul_assoc]
    exact tableSum_alter next ⟨plain, clamped⟩ (weight * w) _

theorem nonneg_addSums {reachable : Outcome → Bool} {sums : Sums} {weight w : ℚ} {face : Outcome}
    {next next' : Std.TreeMap Sums ℚ} (hn : NonnegTable next) (hweight : 0 ≤ weight) (hw : 0 ≤ w)
    (h : addSums name threshold reachable sums weight next face w = .ok next') :
    NonnegTable next' := by
  obtain ⟨plain, -, ⟨-, rfl⟩ | ⟨-, clamped, -, rfl⟩⟩ := addSums_eq_ok_iff.1 h
  · exact hn
  · exact hn.alter _ (mul_nonneg hweight hw)

/-- **No die changes the worth of a table.** -/
theorem tableRolls_rollSums {low high : Outcome} (hd : d.Nonneg) (hlow : d.min? = some low)
    (hhigh : d.max? = some high) {n : ℕ} {states final : Std.TreeMap Sums ℚ}
    (hs : NonnegTable states)
    (h : rollSums d.toList low high name threshold total n states = .ok final) :
    NonnegTable final ∧ tableRolls d name threshold total F 0 final
      = tableRolls d name threshold total F n states := by
  induction n generalizing states with
  | zero =>
    cases h
    exact ⟨hs, rfl⟩
  | succ n ih =>
    obtain ⟨next, hnext, h⟩ := bind_eq_ok.1 h
    have hn : NonnegTable next := by
      refine foldlM_invariant _ NonnegTable states.toList hnext nonnegTable_empty ?_
      intro next next' p hp hn hstep
      refine foldlM_invariant _ NonnegTable d.toList hstep hn ?_
      intro next next' q hq hn hcell
      exact nonneg_addSums hn (hs.mem hp) (hd q hq) hcell
    obtain ⟨hfinal, hsum⟩ := ih hn h
    refine ⟨hfinal, hsum.trans ?_⟩
    have hrow := foldlM_measure _ (tableRolls d name threshold total F n)
      (fun p : Sums × ℚ => p.2 * openRolls d name threshold total F (n + 1) p.1.plain.hundredths
        p.1.clamped.hundredths) states.toList hnext ?_
    · rw [hrow, tableRolls, tableSum_empty, zero_add]
      rfl
    · intro next next' p _ hstep
      have hcell := foldlM_measure _ (tableRolls d name threshold total F n)
        (fun q : Outcome × ℚ => p.2 * (q.2 * openRolls d name threshold total F n
          (p.1.plain.hundredths + q.1.hundredths)
          (p.1.clamped.hundredths + (name.clamp threshold q.1).hundredths))) d.toList hstep ?_
      · rw [hcell, List.sum_map_mul_left, openRolls_succ]
        rfl
      · intro next next' q _ hface
        exact tableRolls_addSums F hlow hhigh hface

end Rolling

/-! ## 4. Rolls with a given total -/

variable {d r : Distribution ℚ} {n : ℕ} {name : FunctionName} {threshold total : Outcome}

/-- The limited sums of the rolls with a given total. -/
theorem sumOver_clampEachGivenTotal (hd : d.Nonneg) (hne : d.toList ≠ [])
    (h : d.clampEachGivenTotal n name threshold total = .ok r) (F : ℤ → ℚ) :
    r.sumOver (fun v => F v.hundredths)
      = sumOverAll (List.replicate n d) fun vs =>
          if exactSum vs = total.hundredths then F (exactSum (vs.map (name.clamp threshold)))
          else 0 := by
  obtain ⟨low, high, hlow, hhigh⟩ := bounds_of_ne_nil hne
  rw [clampEachGivenTotal, hlow, hhigh] at h
  dsimp only at h
  obtain ⟨states, hstates, h⟩ := bind_eq_ok.1 h
  obtain ⟨hn, hsum⟩ := tableRolls_rollSums F hd hlow hhigh
    (nonnegTable_empty.insert ⟨0, 0⟩ zero_le_one) hstates
  rw [checkWeights_eq] at h
  cases h
  rw [sumOver_ofList, List.map_map]
  · have hmatching : ∀ l : List (Sums × ℚ),
        ((l.filter fun p => p.1.plain = total).map fun p => p.2 * F p.1.clamped.hundredths).sum
          = (l.map fun p => p.2 * openRolls d name threshold total F 0 p.1.plain.hundredths
              p.1.clamped.hundredths).sum := by
      intro l
      rw [sum_filter]
      refine congrArg List.sum (List.map_congr_left fun p _ => ?_)
      rw [openRolls_zero]
      by_cases hp : p.1.plain = total
      · simp [hp]
      · have hne : p.1.plain.hundredths ≠ total.hundredths := fun e => hp (Outcome.ext e)
        simp [hp, hne]
    refine (hmatching states.toList).trans (hsum.trans ?_)
    rw [tableRolls, tableSum_insert_empty, one_mul]
    simp [openRolls]
  · intro p hp
    obtain ⟨q, hq, rfl⟩ := List.mem_map.1 hp
    exact hn.mem (List.mem_filter.1 hq).1

/-- **Among the rolls with a given total, each limited sum is counted.** -/
theorem Counts.clampEachGivenTotal {α : Type} {value : α → Option Outcome} {rolls : List α}
    (hd : d.Counts (rolls.map value)) (hne : rolls ≠ [])
    (h : d.clampEachGivenTotal n name threshold total = .ok r) :
    r.Counts (((List.replicate n rolls).sections.filter fun s =>
        (s.mapM value).bind Outcome.sum? = some total).map fun s =>
      (s.mapM value).bind fun vs => Outcome.sum? (vs.map (name.clamp threshold))) := by
  have hlist : d.toList ≠ [] := by
    intro hnil
    have htotal := hd.total_pos_iff.2 (by simpa using hne)
    rw [Distribution.total, hnil] at htotal
    exact absurd htotal (lt_irrefl _)
  intro g
  have hsum := sumOver_clampEachGivenTotal hd.nonneg hlist h fun m => g (Outcome.ofHundredths? m)
  simp only [Outcome.ofHundredths?_hundredths] at hsum
  have hrolls := forall₂_replicate (R := fun (d : Distribution ℚ) (l : List α) =>
    d.Counts (l.map value)) hd n
  have hcounts := sumOverAll_counts hrolls fun ovs =>
    if ovs.bind Outcome.sum? = some total then
      g (ovs.bind fun vs => Outcome.sum? (vs.map (name.clamp threshold)))
    else 0
  rw [hsum, List.map_map, sum_filter]
  simp only [decide_eq_true_eq]
  refine Eq.trans ?_ hcounts
  simp only [Option.bind_some]
  refine sumOverAll_congr fun vs _ => ?_
  have htotal : Outcome.sum? vs = some total ↔ exactSum vs = total.hundredths :=
    Outcome.ofHundredths?_eq_some.trans eq_comm
  simp only [htotal]
  rfl

end Distribution

end DiceOdds
