import DiceOdds.Proofs.Critical.Split
import DiceOdds.Proofs.Safety.Shape

/-!
# What a nested conditional amounts to

A conditional on one roll of all of its dice is worth what the branch is worth that its condition
decides for.  Its outcomes have a chance, the share of the rolls on which they come up, and nothing
is rounded.

## Why the branches that are not taken are rolled too

All dice of a formula are rolled, whatever the conditions say.  So all rolls of a conditional are a
roll of the condition together with one of each branch, and are equally likely; the dice of a branch
that is not taken change nothing, because they are counted for every outcome alike.
-/

namespace DiceOdds

/-! ## 1. Outcomes of a roll -/

namespace Node

/-- Whether a condition has this answer on a roll of its dice. -/
def answersOn (condition : Node) (answer : Bool) (roll : Roll) : Bool :=
  condition.comparison?.any fun sides => sides.2.1.answerOn sides.1 sides.2.2 roll = some answer

/-- The value of a formula with nested conditionals on one roll of all of its dice. -/
def outcomeOn : Node → Roll → Option Outcome
  | conditional condition ifTrue ifFalse, roll =>
    let branches := roll.drop condition.pools.length
    if condition.answersOn true (roll.take condition.pools.length) then
      ifTrue.outcomeOn (branches.take ifTrue.pools.length)
    else if condition.answersOn false (roll.take condition.pools.length) then
      ifFalse.outcomeOn (branches.drop ifTrue.pools.length)
    else none
  | group inner, roll => inner.outcomeOn roll
  | node, roll => node.valueOn (fun _ => none) roll

/-- The number of rolls on which an outcome comes up. -/
def occurrences (node : Node) (v : Outcome) : ℕ :=
  (allRolls node.pools).countP fun roll => node.outcomeOn roll = some v

/-- The probability of an outcome. -/
def chance (node : Node) (v : Outcome) : ℚ := node.occurrences v / (allRolls node.pools).length

/-- Conditionals in the branches of conditionals, to any depth.  Branches that are no conditionals
and both sides of each condition are arithmetic. -/
inductive Branching : Node → Prop where
  | values {node : Node} (h : node.Arithmetic) : Branching node
  | conditional {condition ifTrue ifFalse left right : Node} {relation : Relation}
      (hsides : condition.comparison? = some (relation, left, right)) (hleft : left.Arithmetic)
      (hright : right.Arithmetic) (hyes : Branching ifTrue) (hno : Branching ifFalse) :
      Branching (.conditional condition ifTrue ifFalse)
  | group {inner : Node} (h : Branching inner) : Branching (.group inner)

theorem Branching.stripGroups {node : Node} (h : node.Branching) : node.stripGroups.Branching := by
  induction h with
  | values h => exact .values h.stripGroups
  | conditional hsides hleft hright hyes hno _ _ =>
    exact .conditional hsides hleft hright hyes hno
  | group _ ih => exact ih

/-- Arithmetic is worth its value. -/
theorem Arithmetic.outcomeOn_eq {node : Node} (h : node.Arithmetic) :
    node.outcomeOn = node.valueOn fun _ => none := by
  funext roll
  induction h generalizing roll with
  | group h ih =>
    rw [outcomeOn, valueOn]
    exact ih roll
  | _ => rw [outcomeOn] <;> nofun

theorem occurrences_stripGroups (node : Node) (v : Outcome) :
    node.stripGroups.occurrences v = node.occurrences v := by
  induction node using stripGroups.induct with
  | case1 inner ih =>
    rw [stripGroups, ih, occurrences, occurrences, pools_group]
    simp only [outcomeOn]
    rfl
  | case2 node hnode =>
    rw [Node.stripGroups]
    exact hnode

theorem chance_stripGroups (node : Node) (v : Outcome) :
    node.stripGroups.chance v = node.chance v := by
  rw [chance, chance, occurrences_stripGroups, pools_stripGroups]

/-! ## 2. Rolls of the parts -/

theorem length_of_mem_allRolls {pools : List Pool} {roll : Roll} (h : roll ∈ allRolls pools) :
    roll.length = pools.length := by
  rw [List.mem_sections_length h, List.length_map]

theorem sum_allRolls_append (ps qs : List Pool) (F : Roll → ℚ) :
    ((allRolls (ps ++ qs)).map F).sum
      = ((allRolls ps).map fun u => ((allRolls qs).map fun v => F (u ++ v)).sum).sum := by
  rw [allRolls, List.map_append, sum_sections_append]
  rfl

theorem length_allRolls_append (ps qs : List Pool) :
    (allRolls (ps ++ qs)).length = (allRolls ps).length * (allRolls qs).length := by
  rw [allRolls, length_sections, List.map_append, List.map_append, List.prod_append,
    ← length_sections, ← length_sections]
  rfl

/-- A sum over elements of two kinds, and others that do not count. -/
theorem sum_two_kinds {α : Type} (l : List α) (p q : α → Bool) (x y : ℚ)
    (hexclusive : ∀ a, p a = true → q a = false) :
    (l.map fun a => if p a then x else if q a then y else 0).sum
      = l.countP p * x + l.countP q * y := by
  induction l with
  | nil => simp
  | cons a l ih =>
    rw [List.map_cons, List.sum_cons, ih, List.countP_cons, List.countP_cons]
    by_cases hp : p a = true
    · simp only [hp, hexclusive a hp, if_true, Bool.false_eq_true, if_false]
      push_cast
      ring
    · by_cases hq : q a = true
      · simp only [hp, hq, if_true, Bool.false_eq_true, if_false]
        push_cast
        ring
      · simp only [hp, hq, Bool.false_eq_true, if_false]
        push_cast
        ring

/-- A condition has one answer at most. -/
theorem answersOn_exclusive (condition : Node) (roll : Roll)
    (h : condition.answersOn true roll = true) : condition.answersOn false roll = false := by
  unfold answersOn at *
  cases hsides : condition.comparison? with
  | none => rfl
  | some sides =>
    rw [hsides] at h
    simp only [Option.any_some, decide_eq_true_eq] at h ⊢
    rw [h]
    rfl

theorem outcomeOn_append {condition ifTrue ifFalse : Node} {u s t : Roll}
    (hu : u ∈ allRolls condition.pools) (hs : s ∈ allRolls ifTrue.pools) :
    (conditional condition ifTrue ifFalse).outcomeOn (u ++ s ++ t)
      = if condition.answersOn true u then ifTrue.outcomeOn s
        else if condition.answersOn false u then ifFalse.outcomeOn t else none := by
  have hlength := length_of_mem_allRolls hu
  have hlength' := length_of_mem_allRolls hs
  have htake : (u ++ s ++ t).take condition.pools.length = u := by
    rw [List.append_assoc, ← hlength, List.take_left]
  have hdrop : (u ++ s ++ t).drop condition.pools.length = s ++ t := by
    rw [List.append_assoc, ← hlength, List.drop_left]
  rw [outcomeOn]
  simp only [htake, hdrop, ← hlength', List.take_left, List.drop_left]

/-- Each branch is worth its outcomes as often as the condition decides for it, with every roll of
the other branch. -/
theorem occurrences_conditional (condition ifTrue ifFalse : Node) (v : Outcome) :
    ((conditional condition ifTrue ifFalse).occurrences v : ℚ)
      = (allRolls condition.pools).countP (condition.answersOn true)
          * (ifTrue.occurrences v * (allRolls ifFalse.pools).length)
        + (allRolls condition.pools).countP (condition.answersOn false)
          * ((allRolls ifTrue.pools).length * ifFalse.occurrences v) := by
  rw [occurrences, ← sum_indicator, pools_conditional, List.append_assoc, sum_allRolls_append,
    ← sum_two_kinds _ _ _ _ _ (answersOn_exclusive condition)]
  refine congrArg List.sum (List.map_congr_left fun u hu => ?_)
  rw [sum_allRolls_append]
  have hbranches : ∀ s ∈ allRolls ifTrue.pools,
      ((allRolls ifFalse.pools).map fun t =>
        if decide ((conditional condition ifTrue ifFalse).outcomeOn (u ++ (s ++ t)) = some v) then
          (1 : ℚ) else 0).sum
        = if condition.answersOn true u then
            ((allRolls ifFalse.pools).length : ℚ)
              * (if decide (ifTrue.outcomeOn s = some v) then (1 : ℚ) else 0)
          else if condition.answersOn false u then (ifFalse.occurrences v : ℚ) else 0 := by
    intro s hs
    simp only [← List.append_assoc, outcomeOn_append hu hs]
    split
    · rw [List.map_const', List.sum_replicate, nsmul_eq_mul]
    · split
      · exact sum_indicator _ _
      · simp
  rw [List.map_congr_left hbranches]
  split
  · rw [List.sum_map_mul_left, sum_indicator, ← occurrences, mul_comm]
  · split
    · rw [List.map_const', List.sum_replicate, nsmul_eq_mul]
    · simp

/-- **The law of total probability.** -/
theorem chance_conditional {condition ifTrue ifFalse : Node}
    (hyes : allRolls ifTrue.pools ≠ []) (hno : allRolls ifFalse.pools ≠ []) (v : Outcome) :
    (conditional condition ifTrue ifFalse).chance v
      = (allRolls condition.pools).countP (condition.answersOn true)
            / (allRolls condition.pools).length * ifTrue.chance v
        + (allRolls condition.pools).countP (condition.answersOn false)
            / (allRolls condition.pools).length * ifFalse.chance v := by
  have hyes' : ((allRolls ifTrue.pools).length : ℚ) ≠ 0 := by simpa using hyes
  have hno' : ((allRolls ifFalse.pools).length : ℚ) ≠ 0 := by simpa using hno
  rw [chance, occurrences_conditional, pools_conditional, length_allRolls_append,
    length_allRolls_append, chance, chance]
  push_cast
  field_simp

/-! ## 3. Conditions -/

variable {s : Settings ℚ} {split : SplitCheck ℚ} {condition left right : Node} {relation : Relation}

/-- The check of a condition counts the rolls with each answer, and all rolls have one. -/
theorem check_of_walk (hrate : s.rate = none) {ctx : Context} (hctx : ctx.pinned = none)
    (hfree : ctx.restrictCritical = false)
    (hsides : condition.comparison? = some (relation, left, right))
    (hleft : left.Arithmetic) (hright : right.Arithmetic) (href : condition.hasReference = false)
    {check : Check ℚ} (h : condition.walk s split ctx = .ok (.check check)) :
    check.success = (allRolls condition.pools).countP (condition.answersOn true)
      ∧ check.failure = (allRolls condition.pools).countP (condition.answersOn false)
      ∧ check.total = (allRolls condition.pools).length := by
  obtain ⟨relation', left', right', l, r, full, hsides', hl, hr, hfull, hcheck⟩ :=
    exists_compare_of_walk h
  rw [hsides] at hsides'
  cases hsides'
  rw [hrate, Option.isSome_none, Bool.false_and, Bool.false_and,
    if_neg Bool.false_ne_true] at hcheck
  subst hcheck
  have href := hasReference_of_mem_subterms href (mem_subterms_of_comparison? hsides)
  have hlref : left.hasReference = false := hasReference_of_mem_parts href (by simp [parts])
  have hrref : right.hasReference = false := hasReference_of_mem_parts href (by simp [parts])
  have hcounts := sides_of_walks hctx hleft hright hlref hrref hl hr
  have hyes : condition.answersOn true = left.holdsOn relation right := by
    funext roll
    rw [answersOn, hsides]
    rfl
  have hno : condition.answersOn false = left.failsOn relation right := by
    funext roll
    rw [answersOn, hsides]
    rfl
  have hsuccess := hcounts.success_eq hfree hfull
  have hfailure := hcounts.failure_eq hfree hfull
  rw [pools_of_comparison? hsides, hyes, hno]
  refine ⟨hsuccess, hfailure, ?_⟩
  rw [Check.total, hsuccess, hfailure, hcounts.length_eq hfree relation, Nat.cast_add]

end Node

end DiceOdds
