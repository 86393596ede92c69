import DiceOdds.Proofs.Counting.Value
import DiceOdds.Proofs.Counting.Walk
import DiceOdds.Evaluation.Basic

/-!
# Checks count rolls

Comparing two independent values counts the pairs for which the comparison holds and those for
which it fails.  A side with a single value is not gone through, but its weight is carried along,
so all three ways to compare give the same sums.
-/

namespace DiceOdds

/-! ## 1. The weight of one answer -/

namespace Check

/-- The weight with which a comparison has one of its two answers. -/
def weightOf (c : Check ℚ) (answer : Bool) : ℚ := if answer then c.success else c.failure

/-- A comparison that has not been split into normal and critical hits. -/
def Unsplit (c : Check ℚ) : Prop := c.critical = none

theorem weightOf_count (c : Check ℚ) (holds answer : Bool) (w : ℚ) :
    (c.count holds w).weightOf answer
      = c.weightOf answer + w * if holds = answer then 1 else 0 := by
  cases holds <;> cases answer <;> simp [count, weightOf]

theorem unsplit_count {c : Check ℚ} (h : c.Unsplit) (holds : Bool) (w : ℚ) :
    (c.count holds w).Unsplit := by
  cases holds <;> exact h

/-- Going through one side, with the weight of the other side as a factor. -/
theorem weightOf_foldl (holds : Outcome → Bool) (scale : ℚ) (answer : Bool) (d : Distribution ℚ)
    (c : Check ℚ) :
    (d.toList.foldl (fun c (p : Outcome × ℚ) => c.count (holds p.1) (p.2 * scale)) c).weightOf answer
      = c.weightOf answer + d.sumOver fun v => scale * if holds v = answer then 1 else 0 := by
  have h := foldl_measure (fun (c : Check ℚ) (p : Outcome × ℚ) => c.count (holds p.1) (p.2 * scale))
    (fun c => c.weightOf answer)
    (fun p => p.2 * (scale * if holds p.1 = answer then 1 else 0)) d.toList c fun c p _ => by
      rw [weightOf_count, mul_assoc]
  exact h

theorem unsplit_foldl (holds : Outcome → Bool) (scale : ℚ) (l : List (Outcome × ℚ)) {c : Check ℚ}
    (h : c.Unsplit) :
    (l.foldl (fun c (p : Outcome × ℚ) => c.count (holds p.1) (p.2 * scale)) c).Unsplit :=
  foldl_invariant _ Unsplit l h fun _ _ _ hc => unsplit_count hc _ _

/-! ## 2. Comparing two values -/

/-- **A comparison counts the pairs of values** with each of its answers. -/
theorem weightOf_compare {relation : Relation} {x y : Distribution ℚ} {c : Check ℚ}
    (h : compare relation x y = .ok c) (answer : Bool) :
    c.weightOf answer
      = x.sumOver fun a => y.sumOver fun b => if relation.holds a b = answer then 1 else 0 := by
  have hzero : ({ success := 0, failure := 0 } : Check ℚ).weightOf answer = 0 := by
    cases answer <;> rfl
  unfold compare at h
  simp only [Weight.isFinite, if_true, Except.ok.injEq] at h
  subst h
  split
  · next b hb =>
    rw [weightOf_foldl (fun a => relation.holds a b), hzero, zero_add]
    exact Distribution.sumOver_congr fun p _ =>
      (Distribution.sumOver_of_point? hb fun b =>
        if relation.holds p.1 b = answer then 1 else 0).symm
  · next a _ ha =>
    rw [weightOf_foldl (fun b => relation.holds a b), hzero, zero_add,
      Distribution.sumOver_of_point? ha, Distribution.sumOver_mul]
  · have hrow := foldl_measure (fun (c : Check ℚ) (p : Outcome × ℚ) =>
        y.toList.foldl (fun c (q : Outcome × ℚ) => c.count (relation.holds p.1 q.1) (p.2 * q.2)) c)
      (fun c => c.weightOf answer)
      (fun p => p.2 * y.sumOver fun b => if relation.holds p.1 b = answer then 1 else 0)
      x.toList { success := 0, failure := 0 } fun c p _ => by
        have hcell := foldl_measure
          (fun (c : Check ℚ) (q : Outcome × ℚ) => c.count (relation.holds p.1 q.1) (p.2 * q.2))
          (fun c => c.weightOf answer)
          (fun q => p.2 * (q.2 * if relation.holds p.1 q.1 = answer then 1 else 0)) y.toList c
          fun c q _ => by rw [weightOf_count, mul_assoc]
        rw [hcell, List.sum_map_mul_left]
        rfl
    rw [hzero, zero_add] at hrow
    exact hrow

theorem unsplit_compare {relation : Relation} {x y : Distribution ℚ} {c : Check ℚ}
    (h : compare relation x y = .ok c) : c.Unsplit := by
  unfold compare at h
  simp only [Weight.isFinite, if_true, Except.ok.injEq] at h
  subst h
  have hstart : ({ success := 0, failure := 0 } : Check ℚ).Unsplit := rfl
  split
  · next b _ => exact unsplit_foldl (fun a => relation.holds a b) _ _ hstart
  · next a _ _ => exact unsplit_foldl (fun b => relation.holds a b) _ _ hstart
  · exact foldl_invariant _ Unsplit _ hstart fun _ _ _ hc =>
      foldl_invariant _ Unsplit _ hc fun _ _ _ hc => unsplit_count hc _ _

end Check

/-- The check that an evaluation reports. -/
def Evaluation.check? : Evaluation ℚ → Option (Check ℚ)
  | .check result => some result
  | .conditional result => some result.condition
  | _ => none

/-- A comparison evaluates to the check that it reports. -/
theorem Node.eq_check_of_walk {s : Settings ℚ} {split : SplitCheck ℚ} {ctx : Context}
    {relation : Relation} {left right : Node} {e : Evaluation ℚ} {check : Check ℚ}
    (he : (comparison relation left right).walk s split ctx = .ok e)
    (hcheck : e.check? = some check) : e = .check check := by
  obtain ⟨l, r, full, -, -, -, he⟩ := walk_comparison_eq_ok he
  split at he
  · obtain ⟨critical, -, rfl⟩ := he
    exact congrArg Evaluation.check (Option.some.inj hcheck)
  · subst he
    exact congrArg Evaluation.check (Option.some.inj hcheck)

/-- A share of nothing is nothing, as it is with division. -/
theorem share_of_total (weight total : ℚ) :
    (if total == 0 then 0 else weight / total) = weight / total := by
  split
  · next h => rw [eq_of_beq h, div_zero]
  · rfl

theorem Check.share_eq (c : Check ℚ) (weight : ℚ) : c.share weight = weight / c.total :=
  share_of_total weight c.total

/-- The shares of three weights. -/
theorem CriticalSplit.ofWeights_eq (normal critical miss : ℚ) :
    CriticalSplit.ofWeights normal critical miss
      = ⟨normal / (normal + critical + miss), critical / (normal + critical + miss),
          miss / (normal + critical + miss)⟩ := by
  unfold ofWeights
  by_cases h : normal + critical + miss = 0
  · simp [h]
  · simp [h]

/-! ## 3. Comparing two formulas -/

/-- The answer of a comparison on one roll of the dice of both sides. -/
def Node.answerOn (relation : Relation) (left right : Node) (roll : Roll) : Option Bool :=
  (left.valueOn (fun _ => none) (roll.take left.pools.length)).bind fun a =>
    (right.valueOn (fun _ => none) (roll.drop left.pools.length)).map fun b => relation.holds a b

/-- Whether the comparison holds on a roll. -/
def Node.holdsOn (relation : Relation) (left right : Node) (roll : Roll) : Bool :=
  left.answerOn relation right roll = some true

/-- Whether the comparison fails on a roll. -/
def Node.failsOn (relation : Relation) (left right : Node) (roll : Roll) : Bool :=
  left.answerOn relation right roll = some false

/-- Comparing two values, each of which is counted in some unit, counts the pairs of their
places. -/
theorem Check.sum_answers {relation : Relation} {x y : Distribution ℚ} {check : Check ℚ}
    {us vs : List (Option Outcome)} {c c' : ℚ}
    (hx : ∀ g : Option Outcome → ℚ, (us.map g).sum = c * x.sumOver fun v => g (some v))
    (hy : ∀ g : Option Outcome → ℚ, (vs.map g).sum = c' * y.sumOver fun v => g (some v))
    (h : Check.compare relation x y = .ok check) (answer : Bool) :
    (us.map fun oa => (vs.map fun ob =>
        if (oa.bind fun a => ob.map fun b => relation.holds a b) = some answer
          then (1 : ℚ) else 0).sum).sum
      = c * c' * check.weightOf answer := by
  have hright : ∀ oa : Option Outcome,
      (vs.map fun ob => if (oa.bind fun a => ob.map fun b => relation.holds a b) = some answer
        then (1 : ℚ) else 0).sum
      = c' * y.sumOver fun b =>
          if (oa.map fun a => relation.holds a b) = some answer then 1 else 0 := by
    intro oa
    rw [hy fun ob =>
      if (oa.bind fun a => ob.map fun b => relation.holds a b) = some answer then 1 else 0]
    cases oa <;> rfl
  simp only [hright]
  rw [hx fun oa => c' * y.sumOver fun b =>
      if (oa.map fun a => relation.holds a b) = some answer then 1 else 0,
    Distribution.sumOver_mul, mul_assoc, weightOf_compare h]
  simp

/-- The comparison of two distributions that count rolls counts pairs of them. -/
theorem Check.weightOf_of_counts {α β : Type} {relation : Relation} {x y : Distribution ℚ}
    {c : Check ℚ} {L : List α} {M : List β} {u : α → Option Outcome} {v : β → Option Outcome}
    (hx : x.Counts (L.map u)) (hy : y.Counts (M.map v)) (h : Check.compare relation x y = .ok c)
    (answer : Bool) :
    c.weightOf answer = (L.map fun s => (M.map fun t =>
      if ((u s).bind fun a => (v t).map fun b => relation.holds a b) = some answer
        then (1 : ℚ) else 0).sum).sum := by
  have hsum := sum_answers hx.sum_eq hy.sum_eq h answer
  rw [one_mul, one_mul] at hsum
  rw [← hsum]
  simp only [List.map_map, Function.comp_def]

end DiceOdds
