import DiceOdds.Proofs.Choices.Grid
import DiceOdds.Proofs.Critical.Split
import DiceOdds.Proofs.Rate.Neutral

/-!
# A greater rate means more critical hits

At a greater rate a check has at least as many critical hits, at most as many normal ones, and just
as many misses.

## Why there are two cases and one reason

A split is told by the number of critical hits alone: normal hits are the other ones.  Counted over
all rolls, this number grows because a roll that is critical stays critical when the threshold goes
down.  In the closed form for a kept pool it grows because the share of critical rolls does, and it
is limited by the number of hits, which no rate changes.

The threshold goes down as long as it is a number of 32 bits.  Of the widest die no face is critical
at the smallest rates, and there is no number above its highest face: its threshold is `0` then, all
rolls are critical, and at a greater rate there are fewer.
-/

namespace DiceOdds

variable {s : Settings ℚ} {ctx : Context} {r₁ r₂ : ℚ}

/-! ## 1. Critical rolls -/

theorem Pool.isCritical_mono (h : r₁ ≤ r₂) {p : Pool} (hp : p.dice.FitsAt r₁) {roll : PoolRoll}
    (hcritical : p.isCritical r₁ roll = true) : p.isCritical r₂ roll = true := by
  unfold isCritical at hcritical ⊢
  rw [List.any_eq_true] at hcritical ⊢
  obtain ⟨die, hdie, hface⟩ := hcritical
  have hthreshold := criticalThreshold_anti h hp
  exact ⟨die, hdie, decide_eq_true (hthreshold.trans (of_decide_eq_true hface))⟩

/-- The dice that decide about critical hits: those marked as critical, or, where none are marked,
the first ones. -/
def decidingPools (pools : List Pool) : List Pool :=
  if pools.any (·.dice.critical) then pools.filter (·.dice.critical) else pools.take 1

/-- A critical roll is critical at every greater rate, if the thresholds of the dice that decide are
numbers of 32 bits. -/
theorem isCriticalRoll_mono (h : r₁ ≤ r₂) {pools : List Pool}
    (hfits : ∀ p ∈ decidingPools pools, p.dice.FitsAt r₁) {roll : Roll}
    (hcritical : isCriticalRoll r₁ pools roll = true) : isCriticalRoll r₂ pools roll = true := by
  unfold isCriticalRoll at hcritical ⊢
  unfold decidingPools at hfits
  split at hcritical
  · next hmarked =>
    rw [if_pos hmarked] at hfits ⊢
    rw [List.any_eq_true] at hcritical ⊢
    obtain ⟨cell, hmem, hdecides⟩ := hcritical
    rw [Bool.and_eq_true] at hdecides
    have hcell := hfits cell.1 (List.mem_filter.2 ⟨(List.of_mem_zip hmem).1, hdecides.1⟩)
    exact ⟨cell, hmem, Bool.and_eq_true_iff.2
      ⟨hdecides.1, cell.1.isCritical_mono h hcell hdecides.2⟩⟩
  · next hunmarked =>
    rw [if_neg hunmarked] at hfits ⊢
    cases pools with
    | nil => exact hcritical
    | cons p pools =>
      cases roll with
      | nil => exact hcritical
      | cons cell roll => exact p.isCritical_mono h (hfits p (by simp)) hcritical

/-! ## 2. Splits -/

/-- More of the hits are critical. -/
structure CriticalSplit.Raises (low high : CriticalSplit ℚ) : Prop where
  critical : low.criticalHit ≤ high.criticalHit
  normal : high.normalHit ≤ low.normalHit
  miss : high.miss = low.miss

/-- A split depends on the weight of critical hits only, and in a monotone way. -/
theorem Check.raises_ofWeights {c : Check ℚ} (hs : 0 ≤ c.success) (hf : 0 ≤ c.failure) {k₁ k₂ : ℚ}
    (h : k₁ ≤ k₂) : (CriticalSplit.ofWeights (c.success - k₁) k₁ c.failure).Raises
      (.ofWeights (c.success - k₂) k₂ c.failure) := by
  have htotal : 0 ≤ c.success + c.failure := add_nonneg hs hf
  rw [CriticalSplit.ofWeights_eq, CriticalSplit.ofWeights_eq, sub_add_cancel, sub_add_cancel]
  exact ⟨div_le_div_of_nonneg_right h htotal,
    div_le_div_of_nonneg_right (sub_le_sub_left h _) htotal, rfl⟩

variable {left right : Node} {relation : Relation} {check : Check ℚ}

/-- The settings with critical hits at this rate. -/
def Settings.withRate (s : Settings ℚ) (rate : ℚ) : Settings ℚ := { s with rate := some rate }

/-- One check, split at two rates. -/
theorem raises_splitCheck (h : r₁ ≤ r₂) (hctx : ctx.Full) (hl : left.Arithmetic)
    (hr : right.Arithmetic)
    (hfits : ∀ p ∈ decidingPools (left.pools ++ right.pools), p.dice.FitsAt r₁)
    (hlref : left.hasReference = false) (hrref : right.hasReference = false)
    {x y : Distribution ℚ}
    (hs₁ : Sides (s.withRate r₁) ctx left right x y)
    (hs₂ : Sides (s.withRate r₂) ctx left right x y)
    (hcheck : Check.compare relation x y = .ok check) (hs : 0 ≤ check.success)
    (hf : 0 ≤ check.failure) {low high : Option (CriticalSplit ℚ)}
    (hlow : splitCheck (s.withRate r₁) relation left right ctx check = .ok low)
    (hhigh : splitCheck (s.withRate r₂) relation left right ctx check = .ok high) :
    low = none ∧ high = none ∨ ∃ a b, low = some a ∧ high = some b ∧ a.Raises b := by
  unfold splitCheck Settings.withRate at hlow hhigh
  rcases decidingSides?_spec hl hr with ⟨hnone, -⟩ | ⟨left', right', hsides, hd⟩
  · rw [hnone] at hlow hhigh
    cases hlow
    cases hhigh
    exact .inl ⟨rfl, rfl⟩
  rw [hsides] at hlow hhigh
  dsimp only at hlow hhigh
  right
  rcases poolSplit?_cases relation left' with hgeneral | ⟨d, hpool⟩
  · rw [hgeneral] at hlow hhigh
    obtain ⟨a, ha, hlow⟩ := bind_eq_ok.1 hlow
    obtain ⟨b, hb, hhigh⟩ := bind_eq_ok.1 hhigh
    refine ⟨a, b, (pure_eq_ok.1 hlow).symm, (pure_eq_ok.1 hhigh).symm, ?_⟩
    rw [hs₁.restrictedSplit_eq rfl hctx.unpinned hctx.unrestricted hcheck hd hlref hrref ha,
      hs₂.restrictedSplit_eq rfl hctx.unpinned hctx.unrestricted hcheck hd hlref hrref hb]
    refine Check.raises_ofWeights hs hf (Nat.cast_le.2 ?_)
    refine List.countP_mono_left fun roll _ hroll => ?_
    rw [Bool.and_eq_true] at hroll ⊢
    exact ⟨hroll.1, isCriticalRoll_mono h hfits hroll.2⟩
  · rw [hpool] at hlow hhigh
    cases hlow
    cases hhigh
    refine ⟨_, _, rfl, rfl, Check.raises_ofWeights hs hf (min_le_min_right _ ?_)⟩
    exact mul_le_mul_of_nonneg_left (atLeastOneCritical_mono h d) (add_nonneg hs hf)

/-! ## 3. Checks -/

/-- At two rates there are the same values. -/
theorem Node.agrees_rates {node : Node} (h : node.Indifferent) (hctx : ctx.Full) (r₁ r₂ : ℚ) :
    Agrees (fun e₁ e₂ => e₁.distribution = e₂.distribution)
      (node.evaluate (s.withRate r₁) ctx) (node.evaluate (s.withRate r₂) ctx) :=
  (splitOf_walk (s := s.withRate r₁) h hctx hctx).meet
    (splitOf_walk (s := s.withRate r₂) h hctx hctx)
    fun _ _ _ h₁ h₂ => h₁.distribution.trans h₂.distribution.symm

/-- **Raising the rate turns normal hits into critical ones.**  Whether a check between arithmetic
sides can be evaluated and whether it is split does not depend on the rate; and of two rates the
greater one has at least as many critical hits, at most as many normal hits, and as many misses,
in a split by critical rolls and in the closed form for a kept pool alike.  Only the widest die may
not decide, where at the smaller rate no face of it is critical: its threshold is `0` then. -/
theorem split_mono_rate (h : r₁ ≤ r₂) (hctx : ctx.pinned = none)
    (hfree : ctx.restrictCritical = false) (hl : left.Arithmetic) (hr : right.Arithmetic)
    (hfits : ∀ p ∈ decidingPools (left.pools ++ right.pools), p.dice.FitsAt r₁)
    (hlref : left.hasReference = false) (hrref : right.hasReference = false) :
    ((∃ e, (Node.comparison relation left right).evaluate (s.withRate r₁) ctx = .ok e)
        ↔ ∃ e, (Node.comparison relation left right).evaluate (s.withRate r₂) ctx = .ok e)
      ∧ ∀ e₁ e₂, (Node.comparison relation left right).evaluate (s.withRate r₁) ctx = .ok e₁ →
        (Node.comparison relation left right).evaluate (s.withRate r₂) ctx = .ok e₂ →
        ∃ c₁ c₂, e₁ = .check c₁ ∧ e₂ = .check c₂
          ∧ (c₁.critical = none ∧ c₂.critical = none
            ∨ ∃ a b, c₁.critical = some a ∧ c₂.critical = some b
              ∧ a.criticalHit ≤ b.criticalHit ∧ b.normalHit ≤ a.normalHit ∧ b.miss = a.miss) := by
  have hfull : ctx.Full := ⟨hctx, hfree⟩
  have hnode : (Node.comparison relation left right).Indifferent :=
    .of_parts rfl (fun _ _ _ h => by cases h; exact ⟨hl, hr⟩)
      (by simp [Node.parts, hl.indifferent, hr.indifferent])
  refine ⟨(Node.agrees_rates hnode hfull r₁ r₂).succeeds_iff, fun e₁ e₂ he₁ he₂ => ?_⟩
  obtain ⟨l₁, x₁, c₁, hl₁, hx₁, hc₁, he₁⟩ := Node.walk_comparison_eq_ok he₁
  obtain ⟨l₂, x₂, c₂, hl₂, hx₂, hc₂, he₂⟩ := Node.walk_comparison_eq_ok he₂
  have hon : ∀ r, ((s.withRate r).rate.isSome && ctx.pinned.isNone && !ctx.restrictCritical)
      = true := fun r => by simp [Settings.withRate, hctx, hfree]
  rw [if_pos (hon r₁)] at he₁
  rw [if_pos (hon r₂)] at he₂
  obtain ⟨low, hlow, rfl⟩ := he₁
  obtain ⟨high, hhigh, rfl⟩ := he₂
  refine ⟨_, _, rfl, rfl, ?_⟩
  -- both rates split one and the same check
  have hvaluesl := (Node.agrees_rates hl.indifferent hfull r₁ r₂).rel hl₁ hl₂
  have hvaluesr := (Node.agrees_rates hr.indifferent hfull r₁ r₂).rel hx₁ hx₂
  have hs₁ := sides_of_walks hctx hl hr hlref hrref hl₁ hx₁
  have hs₂ := sides_of_walks hctx hl hr hlref hrref hl₂ hx₂
  rw [← hvaluesl, ← hvaluesr] at hs₂ hc₂
  obtain rfl : c₁ = c₂ := Except.ok.inj (hc₁.symm.trans hc₂)
  obtain ⟨hs, hf⟩ := Distribution.nonneg_compare (Node.positive_walk left hl₁).nonneg
    (Node.positive_walk right hx₁).nonneg hc₁
  rcases raises_splitCheck h hfull hl hr hfits hlref hrref hs₁ hs₂ hc₁ hs hf hlow hhigh with
    hnone | ⟨a, b, hsomea, hsomeb, hraises⟩
  · exact .inl hnone
  · exact .inr ⟨a, b, hsomea, hsomeb, hraises.critical, hraises.normal, hraises.miss⟩

/-- `kh1(2D20)`: a kept pool. -/
def bestOfTwo : Node := .keep .highest 1 [.dice ⟨2, 20, true⟩ none none]

/-- `2d6+d4`: the first two dice decide. -/
def threeDice : Node :=
  .binary .add (.dice ⟨2, 6, false⟩ none none) (.dice ⟨1, 4, false⟩ none none)

set_option maxRecDepth 4000 in
/-- At a rate of a half the better die of two is critical in more rolls than there are hits, and
then all hits are critical. -/
theorem split_mono_rate_bestOfTwo_threeDice :
    (∃ c₁ c₂ a b, (Node.comparison .greaterEqual bestOfTwo (.number 15.0)).evaluate
          (({} : Settings ℚ).withRate 5) {} = .ok (.check c₁)
        ∧ (Node.comparison .greaterEqual bestOfTwo (.number 15.0)).evaluate
          (({} : Settings ℚ).withRate 50) {} = .ok (.check c₂)
        ∧ c₁.critical = some a ∧ c₂.critical = some b ∧ a.criticalHit = 39 / 400
        ∧ b.criticalHit = 51 / 100 ∧ b.normalHit ≤ a.normalHit ∧ b.miss = a.miss)
      ∧ ∃ c₁ c₂ a b, (Node.comparison .greaterEqual threeDice (.number 9.0)).evaluate
          (({} : Settings ℚ).withRate 15) {} = .ok (.check c₁)
        ∧ (Node.comparison .greaterEqual threeDice (.number 9.0)).evaluate
          (({} : Settings ℚ).withRate 40) {} = .ok (.check c₂)
        ∧ c₁.critical = some a ∧ c₂.critical = some b ∧ a.criticalHit = 7 / 24
        ∧ b.criticalHit = 1 / 2 ∧ b.normalHit ≤ a.normalHit ∧ b.miss = a.miss := by
  have hsplit : ∀ (left : Node) (bound : Float) (r₁ r₂ p q : ℚ), r₁ ≤ r₂ → left.Arithmetic →
      (∀ p ∈ decidingPools (left.pools ++ (Node.number bound).pools), p.dice.FitsAt r₁) →
      left.hasReference = false →
      (((Node.comparison .greaterEqual left (.number bound)).evaluate
        (({} : Settings ℚ).withRate r₁) {}).toOption.bind (·.criticalChance?)).any
          (fun x => decide (x = p)) = true →
      (((Node.comparison .greaterEqual left (.number bound)).evaluate
        (({} : Settings ℚ).withRate r₂) {}).toOption.bind (·.criticalChance?)).any
          (fun x => decide (x = q)) = true →
      ∃ c₁ c₂ a b, (Node.comparison .greaterEqual left (.number bound)).evaluate
          (({} : Settings ℚ).withRate r₁) {} = .ok (.check c₁)
        ∧ (Node.comparison .greaterEqual left (.number bound)).evaluate
          (({} : Settings ℚ).withRate r₂) {} = .ok (.check c₂)
        ∧ c₁.critical = some a ∧ c₂.critical = some b ∧ a.criticalHit = p
        ∧ b.criticalHit = q ∧ b.normalHit ≤ a.normalHit ∧ b.miss = a.miss := by
    intro left bound r₁ r₂ p q h harith hfits href hlow hhigh
    obtain ⟨e₁, x, he₁, hx, hp⟩ := exists_of_any hlow
    obtain ⟨e₂, y, he₂, hy, hq⟩ := exists_of_any hhigh
    have hpinned : ({} : Context).pinned = none := rfl
    have hfree : ({} : Context).restrictCritical = false := rfl
    obtain ⟨c₁, c₂, rfl, rfl, ⟨hnone, -⟩ | ⟨a, b, ha, hb, -, hnormal, hmiss⟩⟩ :=
      (split_mono_rate h hpinned hfree harith (.number bound) hfits href rfl).2 e₁ e₂ he₁ he₂
    · simp [Evaluation.criticalChance?, hnone] at hx
    · obtain rfl : a.criticalHit = x := by simpa [Evaluation.criticalChance?, ha] using hx
      obtain rfl : b.criticalHit = y := by simpa [Evaluation.criticalChance?, hb] using hy
      exact ⟨c₁, c₂, a, b, he₁, he₂, ha, hb, of_decide_eq_true hp, of_decide_eq_true hq, hnormal,
        hmiss⟩
  exact ⟨hsplit bestOfTwo 15.0 5 50 _ _ (by norm_num) (.keep _ _ (by simpa using .dice _ _ _))
      (by decide +kernel) rfl (by decide +kernel) (by decide +kernel),
    hsplit threeDice 9.0 15 40 _ _ (by norm_num) (.binary _ (.dice _ _ _) (.dice _ _ _))
      (by decide +kernel) rfl (by decide +kernel) (by decide +kernel)⟩

/-! ## 4. The widest die -/

/-- A check between arithmetic sides can be evaluated if its sides can. -/
theorem Node.succeeds_comparison {left right : Node} (relation : Relation)
    (hctx : ctx.Full) (hl : left.Arithmetic) (hr : right.Arithmetic)
    (hlw : Succeeds (left.evaluate s ctx)) (hrw : Succeeds (right.evaluate s ctx)) :
    Succeeds ((comparison relation left right).evaluate s ctx) := by
  obtain ⟨l, hlw⟩ := hlw
  obtain ⟨r, hrw⟩ := hrw
  obtain ⟨check, hcheck⟩ := Check.succeeds_compare relation l.distribution r.distribution
  obtain ⟨critical, hcritical, -⟩ :=
    exists_splitCheck hctx.unpinned hctx.unrestricted hl hr hlw hrw hcheck
  rw [evaluate, walk, pinnedValue?_of_unpinned hctx.unpinned]
  refine succeeds_bind.2 ⟨l, hlw, succeeds_bind.2 ⟨r, hrw, succeeds_bind.2
    ⟨check, orBlame_eq_ok.2 hcheck, ?_⟩⟩⟩
  split
  · exact succeeds_bind.2 ⟨critical, hcritical, succeeds_pure _⟩
  · exact succeeds_pure _

/-- One die of the widest kind, which counts for one from `5` on. -/
def widestPool : Pool :=
  ⟨⟨1, 0xffffffff, true⟩, some (.exploding .count (some ⟨5, 0xffffffff⟩) none 0)⟩

def widestDie : Node := .dice widestPool.dice none widestPool.modifier

/-- `D4294967295s5l0>=1`. -/
def widestCheck : Formula where
  root := .comparison .greaterEqual widestDie (.number 1.0)
  registry := []

set_option maxRecDepth 4000 in
theorem ofText_widestCheck : Formula.ofText "D4294967295s5l0>=1" = .ok widestCheck := by
  have htokens : tokenize "D4294967295s5l0>=1" = .ok [⟨.dice ⟨1, 0xffffffff, true⟩, 0⟩,
      ⟨.modifier (.success ⟨5, none⟩ none (some 0)), 11⟩, ⟨.relation .greaterEqual, 15⟩,
      ⟨.number 1.0, 17⟩] := by
    decide +kernel
  rw [Formula.ofText, htokens]
  rfl

theorem succeeds_widestDie (rate : ℚ) :
    Succeeds (widestDie.evaluate (({} : Settings ℚ).withRate rate) {}) := by
  obtain ⟨die, hdie⟩ : Succeeds ((({} : Settings ℚ).withRate rate).die {} widestPool.dice
      widestPool.modifier) := by
    unfold Settings.die widestPool Distribution.exploding Distribution.Chain.run
    dsimp only
    rw [if_neg (by decide)]
    exact succeeds_ok _
  obtain ⟨x, hx⟩ := Distribution.succeeds_sumOfCopies_one (positive_die hdie)
  refine ⟨.plain x, ?_⟩
  have hfound : widestDie.die? (({} : Settings ℚ).withRate rate) {} = .ok (some (die, 1)) :=
    bind_eq_ok.2 ⟨die, orBlame_eq_ok.2 hdie, rfl⟩
  rw [Node.evaluate, widestDie, Node.walk, Node.pinnedValue?_of_unpinned rfl]
  exact bind_eq_ok.2 ⟨x, bind_eq_ok.2 ⟨some (die, 1), hfound, orBlame_eq_ok.2 hx⟩, rfl⟩

theorem exists_shares_widestCheck (rate : ℚ) : ∃ check shares,
    widestCheck.root.evaluate (({} : Settings ℚ).withRate rate) {} = .ok (.check check)
      ∧ check.critical = some shares
      ∧ shares.criticalHit = rollShare [widestPool] fun roll =>
          widestDie.holdsOn .greaterEqual (.number 1.0) roll
            && isCriticalRoll rate [widestPool] roll := by
  have hfull : ({} : Context).Full := ⟨rfl, rfl⟩
  have hnumber : Succeeds ((Node.number 1.0).evaluate (({} : Settings ℚ).withRate rate) {}) :=
    succeeds_bind.2 (by
      obtain ⟨x, hx⟩ : Succeeds (numberValue 1.0 : Except EvalError (Distribution ℚ)) :=
        succeeds_of_isOk (by decide +kernel)
      exact ⟨x, hx, succeeds_pure _⟩)
  obtain ⟨e, he⟩ := Node.succeeds_comparison .greaterEqual hfull (.dice _ _ _) (.number 1.0)
    (succeeds_widestDie rate) hnumber
  obtain ⟨l, r, check, hl, hr, hcheck, hsplit⟩ := Node.walk_comparison_eq_ok he
  have hs := sides_of_walks rfl (.dice _ _ _) (.number 1.0) rfl rfl hl hr
  rw [if_pos (by simp [Settings.withRate])] at hsplit
  obtain ⟨critical, hsplit, rfl⟩ := hsplit
  obtain ⟨shares, hshares, hcritical⟩ := bind_eq_ok.1 hsplit
  have hd : Decides widestDie (.number 1.0) widestDie (.number 1.0) :=
    ⟨⟨.dice _ _ _, .number _⟩, ⟨rfl, rfl⟩, .inl ⟨rfl, rfl⟩, fun _ _ => rfl⟩
  refine ⟨_, shares, he, (pure_eq_ok.1 hcritical).symm, ?_⟩
  rw [hs.restrictedSplit_eq rfl rfl rfl hcheck hd rfl rfl hshares, hs.ofWeights_eq rfl hcheck]
  rfl

/-- Not all hits are critical where a roll is a hit but not critical. -/
theorem rollShare_lt {pools : List Pool} {event critical : Roll → Bool} {roll : Roll}
    (hroll : roll ∈ allRolls pools) (hevent : event roll = true) (hnormal : critical roll = false) :
    rollShare pools (fun roll => event roll && critical roll) < rollShare pools event := by
  have hpos : (0 : ℚ) < (allRolls pools).length := Nat.cast_pos.2 (List.length_pos_of_mem hroll)
  unfold rollShare
  refine div_lt_div_of_pos_right (Nat.cast_lt.2 ?_) hpos
  rw [countP_critical (allRolls pools) event critical]
  exact Nat.lt_add_of_pos_left (List.countP_pos_iff.2 ⟨roll, hroll, by simp [hevent, hnormal]⟩)

/-- At a rate of zero the threshold is `0`, and the critical hits are all hits, from `5` on.  At a
rate of a half they are the upper half of the faces. -/
theorem criticalHit_falls_widestCheck : ∃ c₁ c₂ a b,
    Formula.ofText "D4294967295s5l0>=1" = .ok widestCheck
      ∧ widestCheck.root.evaluate (({} : Settings ℚ).withRate 0) {} = .ok (.check c₁)
      ∧ widestCheck.root.evaluate (({} : Settings ℚ).withRate 50) {} = .ok (.check c₂)
      ∧ c₁.critical = some a ∧ c₂.critical = some b ∧ b.criticalHit < a.criticalHit := by
  obtain ⟨c₁, a, he₁, ha, hlow⟩ := exists_shares_widestCheck 0
  obtain ⟨c₂, b, he₂, hb, hhigh⟩ := exists_shares_widestCheck 50
  refine ⟨c₁, c₂, a, b, ofText_widestCheck, he₁, he₂, ha, hb, ?_⟩
  have hall : ∀ roll ∈ allRolls [widestPool], isCriticalRoll 0 [widestPool] roll = true := by
    intro roll hroll
    have hzero : criticalThreshold (0 : ℚ) widestPool.dice.sides.toNat = 0 :=
      criticalThreshold_of_not_fitsAt (by decide +kernel)
    obtain ⟨cell, rest, hcell, hrest, rfl⟩ := List.forall₂_cons_right_iff.1 (mem_allRolls.1 hroll)
    obtain ⟨die, rfl⟩ := List.length_eq_one_iff.1 (Pool.mem_rolls.1 hcell).1
    have hmarked : widestPool.dice.critical = true := rfl
    simp [isCriticalRoll, Pool.isCritical, hzero, hmarked]
  have hfive : [[[5]]] ∈ allRolls [widestPool] :=
    mem_allRolls.2 (.cons (Pool.mem_rolls.2
      ⟨rfl, by simp [Pool.mem_dieRolls, widestPool, Pool.facesPerDie]⟩) .nil)
  rw [hlow, hhigh]
  -- a five is a hit that is not critical at a rate of a half
  refine (rollShare_lt hfive (by decide +kernel) (by decide +kernel)).trans_le (le_of_eq ?_)
  unfold rollShare
  refine congrArg (fun k : ℕ => (k : ℚ) / (allRolls [widestPool]).length)
    (List.countP_congr fun roll hroll => ?_)
  rw [hall roll hroll, Bool.and_true]

end DiceOdds
