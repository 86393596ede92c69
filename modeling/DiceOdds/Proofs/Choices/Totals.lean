import DiceOdds.Proofs.Choices.Grid

/-!
# Limited sums with a known total

Limiting each of several dice whose total is known counts the draws with this total by their limited
sums.  Summed up over all totals, what is counted is the sum of the limited dice, so the pairs that
are dropped on the way are never missed.

## Why all totals have to be asked for

With one total the computation drops what cannot reach it, and may never meet the draw that leaves
the grid.  If the sum of the greatest values is beyond the grid, then the greatest total on the grid
keeps them to the end (`onGrid_of_rollSums`): the bound that would exclude the total is itself off
the grid, and excludes nothing.
-/

namespace DiceOdds

open Outcome (exactSum OnGrid)

namespace Distribution

variable {name : FunctionName} {threshold total : Outcome}

/-! ## 1. One die after all pairs -/

/-- The pair of sums to which a face leads, if the pair is kept. -/
structure Leads (name : FunctionName) (threshold : Outcome) (reachable : Outcome → Bool)
    (sums : Sums) (face : Outcome) (after : Sums) : Prop where
  plain : sums.plain.add? face = some after.plain
  reachable : reachable after.plain = true
  clamped : sums.clamped.add? (name.clamp threshold face) = some after.clamped

/-- A face can follow a pair: the plain sum lies on the grid, and so does the limited one if the
pair is kept. -/
def Follows (name : FunctionName) (threshold : Outcome) (reachable : Outcome → Bool) (sums : Sums)
    (face : Outcome) : Prop :=
  ∃ plain, sums.plain.add? face = some plain
    ∧ (reachable plain = true → ∃ after, Leads name threshold reachable sums face after)

/-- All pairs followed by all faces. -/
def rollDie (die : List (Outcome × ℚ)) (name : FunctionName) (threshold : Outcome)
    (reachable : Outcome → Bool) (states : Std.TreeMap Sums ℚ) :
    Except Exceeded (Std.TreeMap Sums ℚ) :=
  states.toList.foldlM (fun next p => die.foldlM (fun next q =>
    addSums name threshold reachable p.1 p.2 next q.1 q.2) next) ∅

theorem rollSums_succ (die : List (Outcome × ℚ)) (low high : Outcome) (n : ℕ)
    (states : Std.TreeMap Sums ℚ) :
    rollSums die low high name threshold total (n + 1) states
      = rollDie die name threshold (reaches low high total n) states >>=
          rollSums die low high name threshold total n :=
  rfl

section RollDie

variable {reachable : Outcome → Bool} {sums after : Sums} {weight w : ℚ} {face : Outcome}
  {die : List (Outcome × ℚ)} {states next next' : Std.TreeMap Sums ℚ}

theorem succeeds_addSums :
    Succeeds (addSums name threshold reachable sums weight next face w)
      ↔ Follows name threshold reachable sums face := by
  constructor
  · rintro ⟨next', h⟩
    obtain ⟨plain, hplain, ⟨hreach, -⟩ | ⟨hreach, clamped, hclamped, -⟩⟩ :=
      addSums_eq_ok_iff.1 h
    · exact ⟨plain, hplain, fun h => absurd (hreach.symm.trans h) Bool.false_ne_true⟩
    · exact ⟨plain, hplain, fun _ => ⟨⟨plain, clamped⟩, hplain, hreach, hclamped⟩⟩
  · rintro ⟨plain, hplain, hleads⟩
    cases hreach : reachable plain with
    | false => exact ⟨next, addSums_eq_ok_iff.2 ⟨plain, hplain, .inl ⟨hreach, rfl⟩⟩⟩
    | true =>
      obtain ⟨after, -, -, hclamped⟩ := hleads hreach
      exact ⟨_, addSums_eq_ok_iff.2 ⟨plain, hplain, .inr ⟨hreach, _, hclamped, rfl⟩⟩⟩

theorem mem_addSums (h : addSums name threshold reachable sums weight next face w = .ok next') :
    after ∈ next' ↔ after ∈ next ∨ Leads name threshold reachable sums face after := by
  obtain ⟨plain, hplain, ⟨hreach, rfl⟩ | ⟨hreach, clamped, hclamped, rfl⟩⟩ :=
    addSums_eq_ok_iff.1 h
  · have hnone : ¬ Leads name threshold reachable sums face after := by
      rintro ⟨hp, hr, -⟩
      obtain rfl := Option.some.inj (hplain.symm.trans hp)
      exact absurd (hreach.symm.trans hr) Bool.false_ne_true
    simp [hnone]
  · have hleads : Leads name threshold reachable sums face after
        ↔ (⟨plain, clamped⟩ : Sums) = after := by
      constructor
      · rintro ⟨hp, -, hc⟩
        rw [hplain, Option.some_inj] at hp
        rw [hclamped, Option.some_inj] at hc
        rw [hp, hc]
      · rintro rfl
        exact ⟨hplain, hreach, hclamped⟩
    rw [hleads, Std.TreeMap.mem_alter]
    by_cases heq : (⟨plain, clamped⟩ : Sums) = after <;> simp [heq]

theorem succeeds_rollDie :
    Succeeds (rollDie die name threshold reachable states)
      ↔ ∀ p ∈ states.toList, ∀ q ∈ die, Follows name threshold reachable p.1 q.1 :=
  succeeds_foldlM _ _ states.toList _ fun _ _ _ =>
    succeeds_foldlM _ _ die _ fun _ _ _ => succeeds_addSums

/-- The pairs after one more die. -/
theorem mem_rollDie (h : rollDie die name threshold reachable states = .ok next) :
    after ∈ next
      ↔ ∃ p ∈ states.toList, ∃ q ∈ die, Leads name threshold reachable p.1 q.1 after := by
  have hrow : ∀ t t' : Std.TreeMap Sums ℚ, ∀ p ∈ states.toList,
      die.foldlM (fun next q => addSums name threshold reachable p.1 p.2 next q.1 q.2) t = .ok t' →
        (after ∈ t' ↔ after ∈ t ∨ ∃ q ∈ die, Leads name threshold reachable p.1 q.1 after) :=
    fun _ _ p _ hloop => foldlM_exists _ (fun t => after ∈ t) _ die hloop
      fun _ _ _ _ hstep => mem_addSums hstep
  refine (foldlM_exists _ (fun t => after ∈ t) _ states.toList h hrow).trans ?_
  exact or_iff_right Std.TreeMap.not_mem_emptyc

end RollDie

/-! ## 2. Draws that leave the grid -/

variable {d : Distribution ℚ} {low high : Outcome} {n : ℕ}

/-- A bound off the grid does not exclude the greatest total. -/
theorem reaches_greatest {sum : Outcome} {m : ℕ}
    (h : ¬ OnGrid (sum.hundredths + m * high.hundredths)) :
    reaches low high .greatest m sum = true := by
  rw [reaches, Bool.and_eq_true, Option.all_eq_true, Option.all_eq_true]
  refine ⟨fun bound _ => decide_eq_true (Int.lt_add_one_iff.1 bound.lt_bound), fun bound hb => ?_⟩
  exact absurd (Outcome.add_times?_eq_some hb ▸ bound.onGrid_hundredths) h

/-- Nor does it exclude the least total. -/
theorem reaches_least {sum : Outcome} {m : ℕ}
    (h : ¬ OnGrid (sum.hundredths + m * low.hundredths)) : reaches low high .least m sum = true := by
  rw [reaches, Bool.and_eq_true, Option.all_eq_true, Option.all_eq_true]
  refine ⟨fun bound hb => ?_, fun bound _ => decide_eq_true bound.least_le⟩
  exact absurd (Outcome.add_times?_eq_some hb ▸ bound.onGrid_hundredths) h

/-- A face that nothing excludes can be shown by all dice to come. -/
theorem onGrid_of_rollSums {die : List (Outcome × ℚ)} {v : Outcome} (hv : v ∈ die.map Prod.fst)
    (hreach : ∀ (m : ℕ) (sum : Outcome), ¬ OnGrid (sum.hundredths + m * v.hundredths) →
      reaches low high total m sum = true) (n : ℕ) {states : Std.TreeMap Sums ℚ}
    (h : Succeeds (rollSums die low high name threshold total n states)) {sums : Sums}
    (hs : sums ∈ states) : OnGrid (sums.plain.hundredths + n * v.hundredths) := by
  induction n generalizing states sums with
  | zero =>
    rw [Nat.cast_zero, zero_mul, add_zero]
    exact sums.plain.onGrid_hundredths
  | succ n ih =>
    rw [rollSums_succ, succeeds_bind] at h
    obtain ⟨next, hnext, h⟩ := h
    obtain ⟨p, hp, rfl⟩ := exists_of_mem hs
    obtain ⟨q, hq, rfl⟩ := List.mem_map.1 hv
    obtain ⟨plain, hplain, hkept⟩ := succeeds_rollDie.1 ⟨next, hnext⟩ p hp q hq
    have hshift : p.1.plain.hundredths + (n + 1 : ℕ) * q.1.hundredths
        = plain.hundredths + n * q.1.hundredths := by
      rw [Outcome.add?_eq_some.1 hplain]
      push_cast
      ring
    rw [hshift]
    by_contra hoff
    -- the pair is kept, so the dice to come start from it
    obtain ⟨after, hafter⟩ := hkept (hreach n plain hoff)
    obtain rfl : plain = after.plain := Option.some.inj (hplain.symm.trans hafter.plain)
    exact hoff (ih h ((mem_rollDie hnext).2 ⟨p, hp, q, hq, hafter⟩))

/-- Where there is room for both sums, no die leaves the grid. -/
theorem succeeds_rollSums {die : List (Outcome × ℚ)} {l h cl ch : ℤ} {k N : ℕ}
    (hplain : ∀ q ∈ die, Between l h 1 q.1.hundredths)
    (hclamped : ∀ q ∈ die, Between cl ch 1 (name.clamp threshold q.1).hundredths)
    (hroom : Room l h N) (hroom' : Room cl ch N) (n : ℕ) (hk : k + n ≤ N)
    {states : Std.TreeMap Sums ℚ} (hs : ∀ sums ∈ states,
      Between l h k sums.plain.hundredths ∧ Between cl ch k sums.clamped.hundredths) :
    Succeeds (rollSums die low high name threshold total n states) := by
  induction n generalizing states k with
  | zero => exact succeeds_ok states
  | succ n ih =>
    have hnext : Succeeds (rollDie die name threshold (reaches low high total n) states) := by
      refine succeeds_rollDie.2 fun p hp q hq => ?_
      obtain ⟨hbetween, hbetween'⟩ := hs p.1 (mem_of_mem_toList hp)
      obtain ⟨plain, hsum⟩ := Outcome.exists_add?
        ((hroom.mono (by omega)).onGrid (hbetween.add (hplain q hq)))
      obtain ⟨clamped, hsum'⟩ := Outcome.exists_add?
        ((hroom'.mono (by omega)).onGrid (hbetween'.add (hclamped q hq)))
      exact ⟨plain, hsum, fun hreach => ⟨⟨plain, clamped⟩, hsum, hreach, hsum'⟩⟩
    rw [rollSums_succ, succeeds_bind]
    obtain ⟨next, hnext⟩ := hnext
    refine ⟨next, hnext, ih (k := k + 1) (by omega) fun after hafter => ?_⟩
    obtain ⟨p, hp, q, hq, hleads⟩ := (mem_rollDie hnext).1 hafter
    obtain ⟨hbetween, hbetween'⟩ := hs p.1 (mem_of_mem_toList hp)
    rw [Outcome.add?_eq_some.1 hleads.plain, Outcome.add?_eq_some.1 hleads.clamped]
    exact ⟨hbetween.add (hplain q hq), hbetween'.add (hclamped q hq)⟩

theorem succeeds_clampEachGivenTotal (hlow : d.min? = some low) (hhigh : d.max? = some high) :
    Succeeds (d.clampEachGivenTotal n name threshold total)
      ↔ Succeeds (rollSums d.toList low high name threshold total n
          (Std.TreeMap.empty.insert ⟨0, 0⟩ 1)) := by
  rw [clampEachGivenTotal, hlow, hhigh]
  dsimp only
  rw [succeeds_bind]
  exact exists_congr fun states => and_iff_left (succeeds_ok _)

/-! ## 3. The limited dice -/

/-- To draw replaced values is to replace drawn ones. -/
theorem sumOverAll_map (hd : d.Nonneg) (m : Outcome → Outcome) (n : ℕ) (f : List Outcome → ℚ) :
    sumOverAll (List.replicate n (d.map m)) f
      = sumOverAll (List.replicate n d) fun vs => f (vs.map m) := by
  induction n generalizing f with
  | zero => rfl
  | succ n ih =>
    simp only [List.replicate_succ, sumOverAll, List.map_cons]
    rw [sumOver_map hd]
    exact sumOver_congr fun p _ => ih fun vs => f (m p.1 :: vs)

/-- A property of the replaced outcomes. -/
theorem forall_of_map (hd : d.Positive) {m : Outcome → Outcome} {P : ℤ → Prop} [DecidablePred P]
    (h : ∀ p ∈ (d.map m).toList, P p.1.hundredths) : ∀ q ∈ d.toList, P (m q.1).hundredths := by
  rw [← sumOver_lacks (positive_map d m), sumOver_map hd.nonneg,
    sumOver_eq_zero_iff hd fun _ => lacks_nonneg _] at h
  exact fun q hq => lacks_eq_zero.1 (h q hq)

/-- The sum of the limited dice exists if no draw, limited value by value, leaves the grid. -/
theorem succeeds_sumOfCopies_clamp_iff (hd : d.Positive) (n : ℕ) :
    Succeeds ((d.clamp name threshold).sumOfCopies n)
      ↔ ∀ vs, d.IsDraw n vs → OnGrid (exactSum (vs.map (name.clamp threshold))) := by
  have hclamp : (d.clamp name threshold).Positive := positive_map d _
  have hsame := sumOverAll_map hd.nonneg (name.clamp threshold) n fun vs => lacks OnGrid (exactSum vs)
  have hleft := sumOverAll_replicate_eq_zero_iff hclamp n (f := fun vs => lacks OnGrid (exactSum vs))
    fun _ => lacks_nonneg _
  have hright := sumOverAll_replicate_eq_zero_iff hd n
    (f := fun vs => lacks OnGrid (exactSum (vs.map (name.clamp threshold)))) fun _ => lacks_nonneg _
  simp only [lacks_eq_zero] at hleft hright
  rw [succeeds_sumOfCopies_iff hclamp, ← hleft, ← hright, ← hsame]
  rfl

/-- Where all totals can be asked for, the greatest one keeps the draw of the greatest values and the
least one that of the least values, so no draw leaves the grid. -/
theorem onGrid_of_totals (hne : d.toList ≠ [])
    (h : ∀ total, Succeeds (d.clampEachGivenTotal n name threshold total)) {vs : List Outcome}
    (hvs : d.IsDraw n vs) : OnGrid (exactSum vs) := by
  obtain ⟨low, high, hlow, hhigh⟩ := bounds_of_ne_nil hne
  have hstart : (⟨0, 0⟩ : Sums) ∈ (Std.TreeMap.empty : Std.TreeMap Sums ℚ).insert ⟨0, 0⟩ 1 :=
    Std.TreeMap.mem_insert_self
  have hleast := onGrid_of_rollSums (mem_of_min? hlow) (fun m sum => reaches_least) n
    ((succeeds_clampEachGivenTotal hlow hhigh).1 (h .least)) hstart
  have hgreatest := onGrid_of_rollSums (mem_of_max? hhigh) (fun m sum => reaches_greatest) n
    ((succeeds_clampEachGivenTotal hlow hhigh).1 (h .greatest)) hstart
  simp only [Outcome.hundredths_zero, zero_add] at hleast hgreatest
  have hvalues : ∀ v ∈ vs, low ≤ v ∧ v ≤ high := fun v hv => by
    obtain ⟨p, hp, rfl⟩ := List.mem_map.1 (hvs.2 v hv)
    exact ⟨min?_le hlow hp, le_max? hhigh hp⟩
  have hbetween := exactSum_between hvalues
  rw [hvs.1] at hbetween
  exact hleast.between hgreatest hbetween.1 hbetween.2

/-- A draw is met where its own total is asked for, so its limited sum lies on the grid. -/
theorem onGrid_clamped_of_total (hd : d.Positive) (hne : d.toList ≠ [])
    (h : Succeeds (d.clampEachGivenTotal n name threshold total)) {vs : List Outcome}
    (hvs : d.IsDraw n vs) (htotal : exactSum vs = total.hundredths) :
    OnGrid (exactSum (vs.map (name.clamp threshold))) := by
  obtain ⟨r, hr⟩ := h
  have hgrid : r.sumOver (fun v => lacks OnGrid v.hundredths) = 0 := by
    rw [← r.sumOver_zero]
    exact sumOver_congr fun p _ => lacks_eq_zero.2 p.1.onGrid_hundredths
  rw [sumOver_clampEachGivenTotal hd.nonneg hne hr,
    sumOverAll_replicate_eq_zero_iff hd n fun us => by
      split
      · exact lacks_nonneg _
      · exact le_rfl] at hgrid
  have hzero := hgrid vs hvs
  rw [if_pos htotal] at hzero
  exact lacks_eq_zero.1 hzero

/-- Where the dice and the limited dice have a sum, there is room for all pairs of sums. -/
theorem succeeds_clampEachGivenTotal_of_sums (hd : d.Positive) (hne : d.toList ≠ [])
    (hsums : Succeeds (d.sumOfCopies n))
    (hclamped : Succeeds ((d.clamp name threshold).sumOfCopies n)) :
    Succeeds (d.clampEachGivenTotal n name threshold total) := by
  obtain ⟨low, high, hlow, hhigh⟩ := bounds_of_ne_nil hne
  obtain ⟨l, h, hbetween, hroom⟩ := exists_room n ((succeeds_sumOfCopies_iff hd n).1 hsums)
  obtain ⟨cl, ch, hbetween', hroom'⟩ := exists_room n
    ((succeeds_sumOfCopies_iff (positive_map d _) n).1 hclamped)
  refine (succeeds_clampEachGivenTotal hlow hhigh).2 (succeeds_rollSums (k := 0) hbetween
    (forall_of_map hd hbetween') hroom hroom' n (by omega) fun sums hs => ?_)
  obtain rfl : (⟨0, 0⟩ : Sums) = sums := by
    rcases Std.TreeMap.mem_insert.1 hs with heq | hempty
    · exact Std.LawfulEqOrd.eq_of_compare heq
    · exact absurd hempty Std.TreeMap.not_mem_emptyc
  simp [Between]

/-- **All totals can be asked for if and only if the dice and the limited dice have a sum.** -/
theorem succeeds_clampEachGivenTotal_iff (hd : d.Positive) (hne : d.toList ≠ []) :
    (∀ total, Succeeds (d.clampEachGivenTotal n name threshold total))
      ↔ Succeeds (d.sumOfCopies n) ∧ Succeeds ((d.clamp name threshold).sumOfCopies n) := by
  constructor
  · intro h
    have hplain : ∀ vs, d.IsDraw n vs → OnGrid (exactSum vs) := fun vs => onGrid_of_totals hne h
    refine ⟨(succeeds_sumOfCopies_iff hd n).2 hplain,
      (succeeds_sumOfCopies_clamp_iff hd n).2 fun vs hvs => ?_⟩
    obtain ⟨total, htotal⟩ := (hplain vs hvs).exists
    exact onGrid_clamped_of_total hd hne (h total) hvs htotal.symm
  · rintro ⟨hsums, hclamped⟩ total
    exact succeeds_clampEachGivenTotal_of_sums hd hne hsums hclamped

/-! ## 4. Enumeration -/

instance : Finite Outcome :=
  Finite.of_injective (fun a : Outcome =>
    (⟨a.hundredths, a.least_le, a.lt_bound⟩ : Set.Ico (-0x8000000000000000 : ℤ) 0x8000000000000000))
    fun _ _ h => Outcome.ext (congrArg Subtype.val h)

theorem sumOverAll_finsetSum {ι : Type} (ds : List (Distribution ℚ)) (s : Finset ι)
    (f : ι → List Outcome → ℚ) :
    sumOverAll ds (fun vs => ∑ i ∈ s, f i vs) = ∑ i ∈ s, sumOverAll ds (f i) := by
  simp only [sumOverAll_eq, Finset.mul_sum]
  induction choices ds with
  | nil => simp
  | cons choice rest ih => simp only [List.map_cons, List.sum_cons, ih, Finset.sum_add_distrib]

section Enumeration

variable {r : Distribution ℚ}

/-- The weight of a limited sum is the weight of the draws with the given total. -/
theorem weightOf_clampEachGivenTotal (hd : d.Positive) (hne : d.toList ≠ [])
    (h : d.clampEachGivenTotal n name threshold total = .ok r) (c : Outcome) :
    r.weightOf c = choiceWeight (List.replicate n d) fun vs =>
      exactSum vs = total.hundredths ∧ exactSum (vs.map (name.clamp threshold)) = c.hundredths := by
  rw [weightOf_eq_sumOver_hundredths, choiceWeight_eq,
    sumOver_clampEachGivenTotal hd.nonneg hne h fun m => if m = c.hundredths then 1 else 0]
  simp only [ite_and]

/-- All draws with the given total are counted. -/
theorem total_clampEachGivenTotal (hd : d.Positive) (hne : d.toList ≠ [])
    (h : d.clampEachGivenTotal n name threshold total = .ok r) {sums : Distribution ℚ}
    (hsums : d.sumOfCopies n = .ok sums) : r.total = sums.weightOf total := by
  rw [total_eq_sumOver, weightOf_eq_sumOver_hundredths,
    sumOver_clampEachGivenTotal hd.nonneg hne h fun _ => 1,
    sumOver_sumOfCopies hd.nonneg hsums fun m => if m = total.hundredths then 1 else 0]

/-- All totals together count all draws. -/
theorem weightOf_clampedCopies (hd : d.Positive) (hne : d.toList ≠ [])
    {results : Outcome → Distribution ℚ}
    (h : ∀ total, d.clampEachGivenTotal n name threshold total = .ok (results total))
    {clamped : Distribution ℚ} (hclamped : (d.clamp name threshold).sumOfCopies n = .ok clamped)
    (c : Outcome) : clamped.weightOf c = ∑ᶠ total, (results total).weightOf c := by
  have hplain := (succeeds_sumOfCopies_iff hd n).1
    ((succeeds_clampEachGivenTotal_iff hd hne).1 fun total => ⟨_, h total⟩).1
  cases nonempty_fintype Outcome
  rw [finsum_eq_sum_of_fintype, weightOf_eq_sumOver_hundredths,
    sumOver_sumOfCopies (nonneg_map d _) hclamped fun m => if m = c.hundredths then 1 else 0,
    sumOverAll_map hd.nonneg]
  simp only [weightOf_clampEachGivenTotal hd hne (h _), choiceWeight_eq]
  rw [← sumOverAll_finsetSum]
  refine sumOverAll_congr fun vs hvs => ?_
  -- each draw has one total
  obtain ⟨total, htotal⟩ := (hplain vs (forall₂_replicate_iff.1 hvs)).exists
  have hsame : ∀ t : Outcome, exactSum vs = t.hundredths ↔ t = total := fun t =>
    ⟨fun e => Outcome.ext (e.symm.trans htotal.symm), fun e => e ▸ htotal.symm⟩
  simp only [hsame, ite_and, Finset.sum_ite_eq', Finset.mem_univ, if_true]

/-- **Limiting dice with a known total enumerates their draws.**  A limited sum weighs as much as the
draws that have the total and come to it; together they weigh as much as the total does among the
sums of the dice; and what is counted for all totals is the sum of the limited dice. -/
theorem clampEachGivenTotal_enumerates {die : Distribution ℚ} (hpos : die.Positive)
    (hne : die.toList ≠ []) (n : ℕ) (name : FunctionName) (threshold : Outcome) :
    (∀ total r, die.clampEachGivenTotal n name threshold total = .ok r →
        (∀ c : Outcome, r.weightOf c = choiceWeight (List.replicate n die) fun vs =>
            exactSum vs = total.hundredths
              ∧ exactSum (vs.map (name.clamp threshold)) = c.hundredths)
          ∧ ∀ sums, die.sumOfCopies n = .ok sums → r.total = sums.weightOf total)
      ∧ ∀ results : Outcome → Distribution ℚ,
          (∀ total, die.clampEachGivenTotal n name threshold total = .ok (results total)) →
            ∃ sums clamped, die.sumOfCopies n = .ok sums
              ∧ (die.clamp name threshold).sumOfCopies n = .ok clamped
              ∧ ∀ c, clamped.weightOf c = ∑ᶠ total, (results total).weightOf c := by
  refine ⟨fun total r h => ⟨weightOf_clampEachGivenTotal hpos hne h,
    fun sums => total_clampEachGivenTotal hpos hne h⟩, fun results h => ?_⟩
  obtain ⟨⟨sums, hsums⟩, clamped, hclamped⟩ :=
    (succeeds_clampEachGivenTotal_iff hpos hne).1 fun total => ⟨_, h total⟩
  exact ⟨sums, clamped, hsums, hclamped, weightOf_clampedCopies hpos hne h hclamped⟩

/-- Two three-sided dice with a total of `4`.  Raised to at least `2` they come to `5` as `1 + 3`
and `3 + 1`; limited to at most `2` the same rolls come to `3`. -/
theorem clampEachGivenTotal_enumerates_threeSided :
    (∃ r : Distribution ℚ, (uniform 3).clampEachGivenTotal 2 .maxEach (Outcome.ofInt 2)
        (Outcome.ofInt 4) = .ok r ∧ r.weightOf (Outcome.ofInt 5) = 2)
      ∧ (∃ r : Distribution ℚ, (uniform 3).clampEachGivenTotal 2 .minEach (Outcome.ofInt 2)
        (Outcome.ofInt 4) = .ok r ∧ r.weightOf (Outcome.ofInt 3) = 2)
      ∧ ∃ results : Outcome → Distribution ℚ,
          (∀ total, (uniform 3).clampEachGivenTotal 2 .minEach (Outcome.ofInt 2) total
            = .ok (results total))
          ∧ ∃ clamped, ((uniform 3).clamp .minEach (Outcome.ofInt 2)).sumOfCopies 2 = .ok clamped
            ∧ clamped.weightOf (Outcome.ofInt 3)
              = ∑ᶠ total, (results total).weightOf (Outcome.ofInt 3) := by
  have hpos : (uniform 3 : Distribution ℚ).Positive := positive_ofList _
  have hne : (uniform 3 : Distribution ℚ).toList ≠ [] := by decide +kernel
  obtain ⟨raised, hraised⟩ : Succeeds ((uniform 3 : Distribution ℚ).clampEachGivenTotal 2 .maxEach
      (Outcome.ofInt 2) (Outcome.ofInt 4)) := succeeds_of_isOk (by decide +kernel)
  have hall : ∀ total, Succeeds ((uniform 3 : Distribution ℚ).clampEachGivenTotal 2 .minEach
      (Outcome.ofInt 2) total) := (succeeds_clampEachGivenTotal_iff hpos hne).2
    ⟨succeeds_of_isOk (by decide +kernel), succeeds_of_isOk (by decide +kernel)⟩
  choose limited hlimited using hall
  have hraise := clampEachGivenTotal_enumerates hpos hne 2 .maxEach (Outcome.ofInt 2)
  obtain ⟨htotals, hsum⟩ := clampEachGivenTotal_enumerates hpos hne 2 .minEach (Outcome.ofInt 2)
  obtain ⟨-, clamped, -, hclamped, hweight⟩ := hsum limited hlimited
  refine ⟨⟨raised, hraised, ?_⟩, ⟨_, hlimited (Outcome.ofInt 4), ?_⟩, limited, hlimited, clamped,
    hclamped, hweight _⟩
  · rw [(hraise.1 _ _ hraised).1]
    decide +kernel
  · rw [(htotals _ _ (hlimited (Outcome.ofInt 4))).1]
    decide +kernel

end Enumeration

end Distribution

end DiceOdds
