import DiceOdds.Proofs.Counting.Results
import DiceOdds.Proofs.Critical.Marking
import DiceOdds.Evaluation.Split

/-!
# The split of a check is exact

The analysis of a check never asks a roll whether it is critical: it evaluates the check a second
time, without critical faces, and calls a critical hit what is then missing.  Here the split is
compared with what it is about, the rolls in which a deciding die shows a critical face.

## Why the second evaluation counts the other rolls

The rolls with admitted faces only are the rolls that are not critical (`sum_uncritical`): a roll is
admitted literal by literal, and a literal that does not decide admits all of its rolls.  So both
evaluations count answers over the same elementary rolls, and their difference counts the rolls
that only one of them sees.
-/

namespace DiceOdds

variable {s : Settings ℚ} {ctx : Context}

/-! ## 1. Critical rolls -/

/-- Whether one of the dice shows a critical face. -/
def Pool.isCritical (rate : ℚ) (p : Pool) (roll : PoolRoll) : Bool :=
  roll.any fun die => criticalThreshold rate p.dice.sides.toNat ≤ p.decidingFace die

/-- Whether a deciding die shows a critical face: one of the dice marked as critical, or, where
none is marked, one of the first dice. -/
def isCriticalRoll (rate : ℚ) (pools : List Pool) (roll : Roll) : Bool :=
  if pools.any (·.dice.critical) then
    (pools.zip roll).any fun (p, cell) => p.dice.critical && p.isCritical rate cell
  else (pools.zip roll).head?.any fun (p, cell) => p.isCritical rate cell

/-- The share of all elementary rolls in which something happens. -/
def rollShare (pools : List Pool) (event : Roll → Bool) : ℚ :=
  (allRolls pools).countP event / (allRolls pools).length

/-! ## 2. Rolls without critical faces -/

theorem Settings.admitsRoll_restricted {rate : ℚ} (hrate : s.rate = some rate)
    (hctx : ctx.restrictCritical = true) (p : Pool) (cell : PoolRoll) :
    s.admitsRoll ctx p cell = !(p.dice.critical && p.isCritical rate cell) := by
  unfold admitsRoll admits Pool.isCritical
  rw [hrate]
  by_cases hp : p.dice.critical = true
  · simp only [hctx, hp, Bool.and_self, if_true, Bool.true_and, List.not_any_eq_all_not,
      ← decide_not, Nat.not_le]
  · simp [hp]

/-- Choosing for each key from the values that pass its test. -/
theorem sum_sections_filter_zip {α β : Type} (l : List α) (values : α → List β)
    (keep : α → β → Bool) (F : List β → ℚ) :
    ((l.map fun a => (values a).filter (keep a)).sections.map F).sum
      = ((l.map values).sections.map fun t =>
          if (l.zip t).all (fun p => keep p.1 p.2) then F t else 0).sum := by
  induction l generalizing F with
  | nil => simp
  | cons a l ih =>
    rw [List.map_cons, List.map_cons, sum_sections_cons, sum_sections_cons, sum_filter]
    refine congrArg List.sum (List.map_congr_left fun b _ => ?_)
    by_cases h : keep a b
    · rw [if_pos h, ih]
      simp only [List.zip_cons_cons, List.all_cons, h, Bool.true_and]
    · simp [h]

/-- The literals of a check with the deciding dice marked: as they are if some are marked, and with
a mark on the first of them otherwise. -/
def MarkedPools (pools marked : List Pool) : Prop :=
  (pools.any (·.dice.critical) = true ∧ marked = pools)
    ∨ (pools.any (·.dice.critical) = false
      ∧ ∃ p rest, pools = p :: rest ∧ marked = p.marked :: rest)

theorem MarkedPools.rolls {pools marked : List Pool} (h : MarkedPools pools marked) :
    marked.map Pool.rolls = pools.map Pool.rolls := by
  rcases h with ⟨-, rfl⟩ | ⟨-, p, rest, rfl, rfl⟩
  · rfl
  · rw [List.map_cons, List.map_cons, Pool.rolls_marked]

/-- Admitted literal by literal are the rolls that are not critical. -/
theorem MarkedPools.all_admitted {rate : ℚ} {pools marked : List Pool} (h : MarkedPools pools marked)
    (hrate : s.rate = some rate) (hctx : ctx.restrictCritical = true) (roll : Roll) :
    (marked.zip roll).all (fun p => s.admitsRoll ctx p.1 p.2) = !isCriticalRoll rate pools roll := by
  simp only [Settings.admitsRoll_restricted hrate hctx]
  unfold isCriticalRoll
  rcases h with ⟨hany, rfl⟩ | ⟨hnone, p, rest, rfl, rfl⟩
  · rw [if_pos hany, List.not_any_eq_all_not]
  · rw [hnone, if_neg Bool.false_ne_true]
    have hrest : ∀ q ∈ rest, q.dice.critical = false := by
      intro q hq
      rw [List.any_eq_false] at hnone
      exact Bool.eq_false_iff.2 (hnone q (List.mem_cons_of_mem _ hq))
    cases roll with
    | nil => rfl
    | cons cell roll =>
      have hothers : (rest.zip roll).all
          (fun q => !(q.1.dice.critical && q.1.isCritical rate q.2)) = true := by
        rw [List.all_eq_true]
        intro q hq
        rw [hrest q.1 (List.of_mem_zip hq).1, Bool.false_and, Bool.not_false]
      rw [List.zip_cons_cons, List.all_cons, hothers, Bool.and_true, List.zip_cons_cons,
        List.head?_cons, Option.any_some]
      rfl

/-- **The rolls without critical faces are the rolls that are not critical.** -/
theorem sum_uncritical {rate : ℚ} {pools marked : List Pool} (h : MarkedPools pools marked)
    (hrate : s.rate = some rate) (hctx : ctx.restrictCritical = true) (F : Roll → ℚ) :
    ((s.admittedRolls ctx marked).map F).sum
      = ((allRolls pools).map fun roll =>
          if isCriticalRoll rate pools roll then 0 else F roll).sum := by
  rw [Settings.admittedRolls, sum_sections_filter_zip, h.rolls, allRolls]
  refine congrArg List.sum (List.map_congr_left fun roll _ => ?_)
  rw [h.all_admitted hrate hctx]
  by_cases hc : isCriticalRoll rate pools roll <;> simp [hc]

/-! ## 3. Deciding dice -/

theorem Node.hasCriticalDice_eq (node : Node) :
    node.hasCriticalDice = node.pools.any (·.dice.critical) := by
  rw [hasCriticalDice, pools, List.any_filterMap]
  refine congrArg (List.any node.subterms) (funext fun n => ?_)
  cases n <;> rfl

/-- The sides of a check with the deciding dice marked. -/
structure Decides (left right left' right' : Node) : Prop where
  arithmetic : left'.Arithmetic ∧ right'.Arithmetic
  hasReference : left'.hasReference = left.hasReference ∧ right'.hasReference = right.hasReference
  pools : MarkedPools (left.pools ++ right.pools) (left'.pools ++ right'.pools)
  answerOn : ∀ relation roll,
    left'.answerOn relation right' roll = left.answerOn relation right roll

/-- The deciding dice are marked, if there are dice. -/
theorem decidingSides?_spec {left right : Node} (hl : left.Arithmetic) (hr : right.Arithmetic) :
    (decidingSides? left right = none ∧ left.pools ++ right.pools = [])
      ∨ ∃ left' right', decidingSides? left right = some (left', right')
          ∧ Decides left right left' right' := by
  have hany : (left.hasCriticalDice || right.hasCriticalDice)
      = (left.pools ++ right.pools).any (·.dice.critical) := by
    rw [left.hasCriticalDice_eq, right.hasCriticalDice_eq, List.any_append]
  unfold decidingSides?
  rw [hany]
  by_cases hmarked : (left.pools ++ right.pools).any (·.dice.critical) = true
  · rw [if_pos hmarked]
    exact .inr ⟨left, right, rfl, ⟨hl, hr⟩, ⟨rfl, rfl⟩, .inl ⟨hmarked, rfl⟩, fun _ _ => rfl⟩
  rw [if_neg hmarked]
  have hnone := Bool.eq_false_iff.2 hmarked
  rcases hl.marksFirst with ⟨hmark, hpools⟩ | ⟨marked, hmark, hm⟩
  · rw [hmark]
    rcases hr.marksFirst with ⟨hmarkr, hpoolsr⟩ | ⟨marked, hmarkr, hm⟩
    · exact .inl ⟨by rw [hmarkr]; rfl, by rw [hpools, hpoolsr]; rfl⟩
    · refine .inr ⟨left, marked, by rw [hmarkr]; rfl, ⟨hl, hm.arithmetic⟩, ⟨rfl, hm.hasReference⟩,
        .inr ⟨hnone, ?_⟩, fun relation roll => ?_⟩
      · simpa [hpools] using hm.pools
      · simp only [Node.answerOn, hm.valueOn]
  · rw [hmark]
    refine .inr ⟨marked, right, rfl, ⟨hm.arithmetic, hr⟩, ⟨hm.hasReference, rfl⟩,
      .inr ⟨hnone, ?_⟩, fun relation roll => ?_⟩
    · obtain ⟨p, rest, hn, hp⟩ := hm.pools
      exact ⟨p, rest ++ right.pools, by simp [hn], by simp [hp]⟩
    · simp only [Node.answerOn, hm.valueOn, hm.pools_length]

/-! ## 4. Counting answers -/

/-- The two sides of a check in which all dice are rolled, and what they are evaluated to. -/
structure Sides (s : Settings ℚ) (ctx : Context) (left right : Node)
    (x y : Distribution ℚ) : Prop where
  left : x.Counts ((s.admittedRolls ctx left.pools).map (left.valueOn fun _ => none))
  right : y.Counts ((s.admittedRolls ctx right.pools).map (right.valueOn fun _ => none))

theorem sides_of_walks {split : SplitCheck ℚ} {left right : Node} {l r : Evaluation ℚ}
    (hctx : ctx.pinned = none) (hl : left.Arithmetic) (hr : right.Arithmetic)
    (hlref : left.hasReference = false) (hrref : right.hasReference = false)
    (hlw : left.walk s split ctx = .ok l) (hrw : right.walk s split ctx = .ok r) :
    Sides s ctx left right l.distribution r.distribution := by
  obtain ⟨x, rfl, hx⟩ := counts_walk hctx hl hlref hlw
  obtain ⟨y, rfl, hy⟩ := counts_walk hctx hr hrref hrw
  exact ⟨hx, hy⟩

theorem length_of_mem_admittedRolls {pools : List Pool} {roll : Roll}
    (h : roll ∈ s.admittedRolls ctx pools) : roll.length = pools.length := by
  rw [List.mem_sections_length h, List.length_map]

theorem sum_admittedRolls_append (ps qs : List Pool) (F : Roll → ℚ) :
    ((s.admittedRolls ctx (ps ++ qs)).map F).sum = ((s.admittedRolls ctx ps).map fun u =>
      ((s.admittedRolls ctx qs).map fun v => F (u ++ v)).sum).sum := by
  rw [Settings.admittedRolls, List.map_append, sum_sections_append]
  rfl

namespace Sides

variable {left right : Node} {x y : Distribution ℚ} {relation : Relation} {c : Check ℚ}

/-- A comparison counts the rolls of both sides with each of its answers. -/
theorem weightOf_compare (hs : Sides s ctx left right x y) (h : Check.compare relation x y = .ok c)
    (answer : Bool) :
    c.weightOf answer = ((s.admittedRolls ctx (left.pools ++ right.pools)).map fun roll =>
      if left.answerOn relation right roll = some answer then (1 : ℚ) else 0).sum := by
  rw [Check.weightOf_of_counts hs.left hs.right h, sum_admittedRolls_append]
  refine congrArg List.sum (List.map_congr_left fun u hu => ?_)
  refine congrArg List.sum (List.map_congr_left fun v _ => ?_)
  rw [Node.answerOn, ← length_of_mem_admittedRolls hu, List.take_left, List.drop_left]

/-- Without excluded faces these are all elementary rolls. -/
theorem success_eq (hs : Sides s ctx left right x y) (hfree : ctx.restrictCritical = false)
    (h : Check.compare relation x y = .ok c) :
    c.success = (allRolls (left.pools ++ right.pools)).countP (left.holdsOn relation right) := by
  rw [← sum_indicator, show c.success = c.weightOf true from rfl, hs.weightOf_compare h,
    Settings.admittedRolls_of_unrestricted hfree]
  simp only [Node.holdsOn, decide_eq_true_eq]

theorem failure_eq (hs : Sides s ctx left right x y) (hfree : ctx.restrictCritical = false)
    (h : Check.compare relation x y = .ok c) :
    c.failure = (allRolls (left.pools ++ right.pools)).countP (left.failsOn relation right) := by
  rw [← sum_indicator, show c.failure = c.weightOf false from rfl, hs.weightOf_compare h,
    Settings.admittedRolls_of_unrestricted hfree]
  simp only [Node.failsOn, decide_eq_true_eq]

/-- Without critical faces these are the rolls that are not critical. -/
theorem success_restricted {rate : ℚ} {left' right' : Node} (hs : Sides s ctx left' right' x y)
    (hrate : s.rate = some rate) (hctx : ctx.restrictCritical = true)
    (hd : Decides left right left' right') (h : Check.compare relation x y = .ok c) :
    c.success = (allRolls (left.pools ++ right.pools)).countP fun roll =>
      left.holdsOn relation right roll && !isCriticalRoll rate (left.pools ++ right.pools) roll := by
  rw [show c.success = c.weightOf true from rfl, hs.weightOf_compare h,
    sum_uncritical hd.pools hrate hctx, ← sum_indicator]
  refine congrArg List.sum (List.map_congr_left fun roll _ => ?_)
  rw [hd.answerOn, Node.holdsOn]
  by_cases hc : isCriticalRoll rate (left.pools ++ right.pools) roll <;> simp [hc]

/-- Every roll has an answer where the evaluation succeeds. -/
theorem answerOn_ne_none (hs : Sides s ctx left right x y) (hfree : ctx.restrictCritical = false)
    (relation : Relation) {roll : Roll} (hroll : roll ∈ allRolls (left.pools ++ right.pools)) :
    left.answerOn relation right roll ≠ none := by
  obtain ⟨hx, hy⟩ := hs
  rw [Settings.admittedRolls_of_unrestricted hfree] at hx hy
  rw [mem_allRolls] at hroll
  have hleft : left.valueOn (fun _ => none) (roll.take left.pools.length) ≠ none := by
    intro hnone
    refine hx.ne_none (List.mem_map.2 ⟨_, mem_allRolls.2 ?_, hnone⟩)
    exact List.forall₂_take_append _ _ _ hroll
  have hright : right.valueOn (fun _ => none) (roll.drop left.pools.length) ≠ none := by
    intro hnone
    refine hy.ne_none (List.mem_map.2 ⟨_, mem_allRolls.2 ?_, hnone⟩)
    exact List.forall₂_drop_append _ _ _ hroll
  obtain ⟨a, ha⟩ := Option.ne_none_iff_exists'.1 hleft
  obtain ⟨b, hb⟩ := Option.ne_none_iff_exists'.1 hright
  rw [Node.answerOn, ha, hb]
  exact Option.some_ne_none _

/-- A check either holds or fails. -/
theorem length_eq (hs : Sides s ctx left right x y) (hfree : ctx.restrictCritical = false)
    (relation : Relation) :
    (allRolls (left.pools ++ right.pools)).length
      = (allRolls (left.pools ++ right.pools)).countP (left.holdsOn relation right)
        + (allRolls (left.pools ++ right.pools)).countP (left.failsOn relation right) := by
  rw [List.length_eq_countP_add_countP (left.holdsOn relation right)]
  refine congrArg (_ + ·) (List.countP_congr fun roll hroll => ?_)
  rw [Node.holdsOn, Node.failsOn]
  have hsome := hs.answerOn_ne_none hfree relation hroll
  cases hans : left.answerOn relation right roll with
  | none => exact absurd hans hsome
  | some answer => cases answer <;> simp

end Sides

/-! ## 5. The split -/

theorem restrictedSplit_eq_ok {relation : Relation} {left right : Node} {check : Check ℚ}
    {shares : CriticalSplit ℚ}
    (h : restrictedSplit s relation left right ctx check = .ok shares) :
    ∃ l r low, left.walk s noSplit ctx.restricted = .ok l
      ∧ right.walk s noSplit ctx.restricted = .ok r
      ∧ Check.compare relation l.distribution r.distribution = .ok low
      ∧ shares = .ofWeights low.success (Weight.larger (check.success - low.success) 0)
          check.failure := by
  obtain ⟨l, hl, h⟩ := bind_eq_ok.1 h
  obtain ⟨r, hr, h⟩ := bind_eq_ok.1 h
  obtain ⟨low, hlow, h⟩ := bind_eq_ok.1 h
  exact ⟨l, r, low, hl, hr, orBlame_eq_ok.1 hlow, (pure_eq_ok.1 h).symm⟩

theorem larger_zero {w : ℚ} (h : 0 ≤ w) : Weight.larger w 0 = w := by
  unfold Weight.larger
  rcases h.eq_or_lt with rfl | h
  · simp
  · simp [h]

/-- What happens in some rolls happens in critical ones or in others. -/
theorem countP_critical {α : Type} (rolls : List α) (event critical : α → Bool) :
    rolls.countP event = rolls.countP (fun roll => event roll && !critical roll)
      + rolls.countP fun roll => event roll && critical roll := by
  rw [rolls.countP_eq_countP_filter_add event critical, List.countP_filter, List.countP_filter,
    Nat.add_comm]

namespace Sides

variable {left right : Node} {x y : Distribution ℚ} {relation : Relation} {check : Check ℚ}

/-- Read off a second evaluation, critical hits are the critical rolls in which the check holds. -/
theorem restrictedSplit_eq {rate : ℚ} {left' right' : Node} {shares : CriticalSplit ℚ}
    (hs : Sides s ctx left right x y) (hrate : s.rate = some rate) (hctx : ctx.pinned = none)
    (hfree : ctx.restrictCritical = false) (hcheck : Check.compare relation x y = .ok check)
    (hd : Decides left right left' right') (hlref : left.hasReference = false)
    (hrref : right.hasReference = false)
    (h : restrictedSplit s relation left' right' ctx check = .ok shares) :
    let critical : ℚ := (allRolls (left.pools ++ right.pools)).countP fun roll =>
      left.holdsOn relation right roll && isCriticalRoll rate (left.pools ++ right.pools) roll
    shares = .ofWeights (check.success - critical) critical check.failure := by
  intro critical
  obtain ⟨lowLeft, lowRight, low, hlowl, hlowr, hlow, rfl⟩ := restrictedSplit_eq_ok h
  have hlows : Sides s ctx.restricted left' right' lowLeft.distribution lowRight.distribution :=
    sides_of_walks hctx hd.arithmetic.1 hd.arithmetic.2 (hd.hasReference.1.trans hlref)
      (hd.hasReference.2.trans hrref) hlowl hlowr
  have hnormal := hlows.success_restricted hrate rfl hd hlow
  have hparts : check.success = low.success + critical := by
    rw [hs.success_eq hfree hcheck, hnormal, countP_critical, Nat.cast_add]
  rw [hparts, add_sub_cancel_left, add_sub_cancel_right, larger_zero (Nat.cast_nonneg _)]

/-- Divided by the number of rolls, numbers of rolls are shares. -/
theorem ofWeights_eq (hs : Sides s ctx left right x y) (hfree : ctx.restrictCritical = false)
    (hcheck : Check.compare relation x y = .ok check) (critical : Roll → Bool) :
    let pools := left.pools ++ right.pools
    let holds := left.holdsOn relation right
    let hits : ℚ := (allRolls pools).countP fun roll => holds roll && critical roll
    CriticalSplit.ofWeights (check.success - hits) hits check.failure
      = { normalHit := rollShare pools fun roll => holds roll && !critical roll
          criticalHit := rollShare pools fun roll => holds roll && critical roll
          miss := rollShare pools (left.failsOn relation right) } := by
  intro pools holds hits
  have hsuccess := hs.success_eq hfree hcheck
  have hfailure := hs.failure_eq hfree hcheck
  have htotal : ((allRolls pools).length : ℚ) = check.success + check.failure := by
    rw [hsuccess, hfailure, hs.length_eq hfree relation]
    push_cast
    rfl
  have hnormal : check.success - hits
      = (allRolls pools).countP fun roll => holds roll && !critical roll := by
    rw [hsuccess, countP_critical (allRolls pools) holds critical, Nat.cast_add,
      add_sub_cancel_right]
  rw [CriticalSplit.ofWeights_eq, sub_add_cancel, ← htotal, hnormal, hfailure]
  rfl

end Sides

/-- **The split of a check is exact.**  Outside the closed form for kept pools, a check with dice is
split into the shares of the elementary rolls in which it holds without and with a critical face
and in which it fails; a check without dice is not split. -/
theorem critical_split_exact {rate : ℚ} {relation : Relation} {left right : Node}
    {e : Evaluation ℚ} (hrate : s.rate = some rate) (hctx : ctx.pinned = none)
    (hfree : ctx.restrictCritical = false) (hl : left.Arithmetic) (hr : right.Arithmetic)
    (hlref : left.hasReference = false) (hrref : right.hasReference = false)
    (hpool : ∀ l r check, decidingSides? left right = some (l, r) →
      poolSplit? rate relation l check = none)
    (he : (Node.comparison relation left right).evaluate s ctx = .ok e) :
    ∃ check, e = .check check ∧ check.critical =
      let pools := left.pools ++ right.pools
      let holds := left.holdsOn relation right
      if pools.isEmpty then none
      else some
        { normalHit := rollShare pools fun roll => holds roll && !isCriticalRoll rate pools roll
          criticalHit := rollShare pools fun roll => holds roll && isCriticalRoll rate pools roll
          miss := rollShare pools (left.failsOn relation right) } := by
  obtain ⟨l, r, full, hlw, hrw, hfull, he⟩ := Node.walk_comparison_eq_ok he
  have hs := sides_of_walks hctx hl hr hlref hrref hlw hrw
  rw [if_pos (by simp [hrate, hctx, hfree])] at he
  obtain ⟨critical, hsplit, rfl⟩ := he
  refine ⟨_, rfl, ?_⟩
  dsimp only
  rw [splitCheck, hrate] at hsplit
  rcases decidingSides?_spec hl hr with ⟨hnone, hempty⟩ | ⟨left', right', hsides, hd⟩
  · -- no dice, no split
    rw [hnone] at hsplit
    cases hsplit
    rw [hempty]
    rfl
  have hdice : (left.pools ++ right.pools).isEmpty = false := by
    rw [List.isEmpty_eq_false_iff]
    rcases hd.pools with ⟨hany, -⟩ | ⟨-, p, rest, hp, -⟩
    · exact fun hc => by rw [hc] at hany; cases hany
    · exact hp ▸ List.cons_ne_nil p rest
  rw [hdice, if_neg Bool.false_ne_true]
  rw [hsides] at hsplit
  dsimp only at hsplit
  rw [hpool left' right' full hsides] at hsplit
  obtain ⟨shares, hshares, hcritical⟩ := bind_eq_ok.1 hsplit
  rw [← pure_eq_ok.1 hcritical,
    hs.restrictedSplit_eq hrate hctx hfree hfull hd hlref hrref hshares, hs.ofWeights_eq hfree hfull]

/-- `1D2 + 1d2 >= 1d3`, the first die deciding. -/
def markedSum : Node :=
  .binary .add (.dice ⟨1, 2, true⟩ none none) (.dice ⟨1, 2, false⟩ none none)

set_option maxRecDepth 4000 in
theorem critical_split_markedSum :
    ∃ check : Check ℚ, (Node.comparison .greaterEqual markedSum
        (.dice ⟨1, 3, false⟩ none none)).evaluate { rate := some (50 : ℚ) } {} = .ok (.check check)
      ∧ check.critical = some ⟨5 / 12, 1 / 2, 1 / 12⟩ := by
  have hok : ((Node.comparison .greaterEqual markedSum
      (.dice ⟨1, 3, false⟩ none none)).evaluate { rate := some (50 : ℚ) } {}).isOk = true := by
    decide +kernel
  cases he : (Node.comparison .greaterEqual markedSum
      (.dice ⟨1, 3, false⟩ none none)).evaluate { rate := some (50 : ℚ) } {} with
  | error _ => rw [he] at hok; cases hok
  | ok e =>
    obtain ⟨check, rfl, hcheck⟩ := critical_split_exact rfl rfl rfl
      (.binary .add (.dice _ _ _) (.dice _ _ _)) (.dice _ _ _) rfl rfl
      (fun l r check h => by cases h; rfl) he
    refine ⟨check, rfl, hcheck.trans (congrArg some ?_)⟩
    rw [CriticalSplit.mk.injEq]
    exact ⟨by decide +kernel, by decide +kernel, by decide +kernel⟩

end DiceOdds
