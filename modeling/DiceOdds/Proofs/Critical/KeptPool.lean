import DiceOdds.Proofs.Critical.DecidingShare
import DiceOdds.Proofs.Critical.Succeeds

/-!
# The closed form for a kept pool

A check that asks for a high value kept from several critical dice is not evaluated a second time.
Its critical hits are taken to be `1 - (1 - p) ^ n` of all rolls, where `p` is the share of critical
faces, as far as there are hits.

## When this is the share of critical rolls

If every critical roll is a hit, the critical hits are the rolls with a critical die, and they are
`1 - (1 - q) ^ n` of all rolls, where `q` is how often one die is critical.  For plain and for
exploding dice `p` and `q` are the same.  For rerolled dice they are the same only if rolling again
does not change the share of critical faces (`Pool.DecidesEvenly`).  Otherwise the closed form is
wrong, unless it asks for more critical hits than there are hits and all hits are critical.

For the widest die it is always wrong: the number of faces from the threshold on is counted from one
above the highest face, which is no number of 32 bits (`Dice.countedShare`).
-/

namespace DiceOdds

variable {s : Settings ℚ} {ctx : Context}

/-! ## 1. Keeping from one pool -/

namespace Node

/-- A keep, possibly in parentheses, that chooses from the dice of one literal. -/
def KeepsFrom (node : Node) (p : Pool) : Prop :=
  ∃ kind count item, node.stripGroups = keep kind count [item] ∧ item.strippedPool? = some p

theorem stripGroups_eq_dice {node : Node} {p : Pool} (h : node.strippedPool? = some p) :
    ∃ id, node.stripGroups = dice p.dice id p.modifier := by
  rw [strippedPool?] at h
  cases hnode : node.stripGroups with
  | dice d id modifier =>
    rw [hnode] at h
    cases h
    exact ⟨id, rfl⟩
  | _ => rw [hnode] at h; cases h

theorem arithmetic_of_stripGroups {node : Node} (h : node.stripGroups.Arithmetic) :
    node.Arithmetic := by
  induction node using stripGroups.induct with
  | case1 inner ih => exact .group (ih h)
  | case2 node hnode =>
    rw [stripGroups] at h
    · exact h
    · exact hnode

theorem hasReference_stripGroups (node : Node) :
    node.stripGroups.hasReference = node.hasReference := by
  induction node using stripGroups.induct with
  | case1 inner ih => rw [hasReference_group]; exact ih
  | case2 node hnode =>
    rw [stripGroups]
    exact hnode

theorem arithmetic_of_strippedPool? {node : Node} {p : Pool} (h : node.strippedPool? = some p) :
    node.Arithmetic := by
  obtain ⟨id, hdice⟩ := stripGroups_eq_dice h
  exact arithmetic_of_stripGroups (hdice ▸ .dice p.dice id p.modifier)

namespace KeepsFrom

variable {node : Node} {p : Pool}

theorem arithmetic (h : node.KeepsFrom p) : node.Arithmetic := by
  obtain ⟨kind, count, item, hkeep, hitem⟩ := h
  refine arithmetic_of_stripGroups (hkeep ▸ .keep kind count fun n hn => ?_)
  obtain rfl := List.mem_singleton.1 hn
  exact arithmetic_of_strippedPool? hitem

theorem pools_eq (h : node.KeepsFrom p) : node.pools = [p] := by
  obtain ⟨kind, count, item, hkeep, hitem⟩ := h
  rw [← pools_stripGroups, hkeep, pools_keep, poolsAll_cons, pools_of_strippedPool? hitem]
  rfl

theorem hasReference_eq (h : node.KeepsFrom p) : node.hasReference = false := by
  obtain ⟨kind, count, item, hkeep, hitem⟩ := h
  obtain ⟨id, hdice⟩ := stripGroups_eq_dice hitem
  have hnone : item.hasReference = false := by
    rw [← hasReference_stripGroups, hdice]
    rfl
  rw [← hasReference_stripGroups, hkeep, hasReference_keep, hasReferenceIn, List.any_cons, hnone]
  rfl

/-- Marking the first dice marks the pool. -/
theorem exists_mark (h : node.KeepsFrom p) :
    ∃ marked, node.markLeftmost? = some marked ∧ marked.KeepsFrom p.marked := by
  induction node using stripGroups.induct with
  | case1 inner ih =>
    obtain ⟨marked, hmark, hkeeps⟩ := ih h
    exact ⟨group marked, by rw [markLeftmost?, hmark]; rfl, hkeeps⟩
  | case2 node hnode =>
    obtain ⟨kind, count, item, hkeep, hitem⟩ := h
    rw [stripGroups] at hkeep
    · subst hkeep
      rcases (arithmetic_of_strippedPool? hitem).marksFirst with ⟨-, hnone⟩ | ⟨item', hmark, hm⟩
      · rw [pools_of_strippedPool? hitem] at hnone
        cases hnone
      · refine ⟨keep kind count [item'], ?_, kind, count, item', rfl, ?_⟩
        · rw [markLeftmost?, markLeftmostIn?, hmark]
          rfl
        · rw [hm.strippedPool?, hitem]
          rfl
    · exact hnode

/-- The closed form finds the pool, if it is marked and not a single die. -/
theorem keptPool?_eq (h : node.KeepsFrom p) (hcritical : p.dice.critical = true)
    (hcount : 2 ≤ p.dice.count.toNat) : keptPool? node = some p.dice := by
  obtain ⟨kind, count, item, hkeep, hitem⟩ := h
  obtain ⟨id, hdice⟩ := stripGroups_eq_dice hitem
  rw [keptPool?, hkeep]
  dsimp only
  rw [hdice]
  simp [literal?, hcritical, hcount]

/-- Whether the dice are marked or decide as the first ones, their closed form is used. -/
theorem exists_poolSplit? (h : node.KeepsFrom p) (hcount : 2 ≤ p.dice.count.toNat) (bound : Float) :
    ∃ marked, decidingSides? node (number bound) = some (marked, number bound)
      ∧ keptPool? marked = some p.marked.dice := by
  have hright : (number bound).hasCriticalDice = false := by
    rw [hasCriticalDice_eq, pools_number]
    rfl
  have hleft : node.hasCriticalDice = p.dice.critical := by
    rw [hasCriticalDice_eq, h.pools_eq, List.any_cons, List.any_nil, Bool.or_false]
  rw [decidingSides?, hleft, hright, Bool.or_false]
  cases hcritical : p.dice.critical with
  | true =>
    refine ⟨node, rfl, ?_⟩
    rw [h.keptPool?_eq hcritical hcount, Pool.marked, ← hcritical]
  | false =>
    obtain ⟨marked, hmark, hkeeps⟩ := h.exists_mark
    exact ⟨marked, by rw [hmark]; rfl, hkeeps.keptPool?_eq rfl hcount⟩

end KeepsFrom

end Node

/-! ## 2. Exact or not -/

/-- The smaller of two shares is a third one, which the second exceeds. -/
theorem min_eq_iff_of_le {a x h : ℚ} (hle : x ≤ h) : min a h = x ↔ a = x ∨ x < a ∧ h = x := by
  constructor
  · intro hmin
    rcases le_total a h with ha | ha
    · rw [min_eq_left ha] at hmin
      exact .inl hmin
    · rw [min_eq_right ha] at hmin
      rcases ha.eq_or_lt with heq | hlt
      · exact .inl (heq ▸ hmin)
      · exact .inr ⟨hmin ▸ hlt, hmin⟩
  · rintro (rfl | ⟨hlt, rfl⟩)
    · exact min_eq_left hle
    · exact min_eq_right hlt.le

/-- At least one of `n` dice is critical more often if a single die is. -/
theorem atLeastOne_lt_iff {p q : ℚ} (hp : p ≤ 1) (hq : q ≤ 1) {n : ℕ} (hn : n ≠ 0) :
    1 - (1 - q) ^ n < 1 - (1 - p) ^ n ↔ q < p := by
  rw [sub_lt_sub_iff_left, pow_lt_pow_iff_left₀ (sub_nonneg.2 hp) (sub_nonneg.2 hq) hn,
    sub_lt_sub_iff_left]

theorem atLeastOne_eq_iff {p q : ℚ} (hp : p ≤ 1) (hq : q ≤ 1) {n : ℕ} (hn : n ≠ 0) :
    1 - (1 - p) ^ n = 1 - (1 - q) ^ n ↔ p = q := by
  rw [sub_right_inj, pow_left_inj₀ (sub_nonneg.2 hp) (sub_nonneg.2 hq) hn, sub_right_inj]

/-- What happens in some rolls happens in critical ones or in others. -/
theorem rollShare_add (pools : List Pool) (event critical : Roll → Bool) :
    rollShare pools (fun roll => event roll && !critical roll)
      + rollShare pools (fun roll => event roll && critical roll) = rollShare pools event := by
  rw [rollShare, rollShare, rollShare, ← add_div, countP_critical (allRolls pools) event critical]
  push_cast
  rfl

theorem allRolls_pool_ne_nil {p : Pool} (h : p.dice.sides ≠ 0) : allRolls [p] ≠ [] :=
  allRolls_ne_nil fun q hq => by
    obtain rfl := List.mem_singleton.1 hq
    exact Pool.rolls_ne_nil h

/-- An event that never happens has no share. -/
theorem rollShare_eq_zero_iff {pools : List Pool} (h : allRolls pools ≠ []) (event : Roll → Bool) :
    rollShare pools event = 0 ↔ ∀ roll ∈ allRolls pools, event roll = false := by
  have hpos : ((allRolls pools).length : ℚ) ≠ 0 :=
    Nat.cast_ne_zero.2 (List.length_pos_iff.2 h).ne'
  rw [rollShare, div_eq_zero_iff, or_iff_left hpos, Nat.cast_eq_zero, List.countP_eq_zero]
  simp only [Bool.not_eq_true]

/-- The shares that the closed form gives. -/
def poolShares (rate : ℚ) (p : Pool) (holds fails : Roll → Bool) : CriticalSplit ℚ :=
  let hits := rollShare [p] holds
  let critical := min (1 - (1 - p.dice.countedShare rate) ^ p.dice.count.toNat) hits
  { normalHit := hits - critical, criticalHit := critical, miss := rollShare [p] fails }

/-- The shares of the rolls that hold without and with a critical die and that fail, where every
critical roll holds. -/
def exactShares (rate : ℚ) (p : Pool) (holds fails : Roll → Bool) : CriticalSplit ℚ where
  normalHit := rollShare [p] fun roll => holds roll && !isCriticalRoll rate [p] roll
  criticalHit := rollShare [p] (isCriticalRoll rate [p])
  miss := rollShare [p] fails

theorem poolSplit?_eq {rate : ℚ} {relation : Relation} {left : Node} {d : Dice}
    (hrelation : relation = .greater ∨ relation = .greaterEqual) (hkept : keptPool? left = some d)
    (c : Check ℚ) : poolSplit? rate relation left c
      = some (.ofWeights (c.success - min (c.total * atLeastOneCritical rate d) c.success)
          (min (c.total * atLeastOneCritical rate d) c.success) c.failure) := by
  unfold poolSplit?
  rw [hkept, ← smaller_eq_min]
  rcases hrelation with rfl | rfl <;> rfl

/-- **The split of a kept pool is the closed form.** -/
theorem split_of_keepsFrom {rate : ℚ} {relation : Relation} {left : Node} {p : Pool}
    {bound : Float} {e : Evaluation ℚ} (hrate : s.rate = some rate) (hctx : ctx.pinned = none)
    (hfree : ctx.restrictCritical = false)
    (hrelation : relation = .greater ∨ relation = .greaterEqual) (hleft : left.KeepsFrom p)
    (hcount : 2 ≤ p.dice.count.toNat) (hsides : p.dice.sides ≠ 0)
    (he : (Node.comparison relation left (.number bound)).evaluate s ctx = .ok e) :
    ∃ check, e = .check check ∧ check.critical = some (poolShares rate p
      (left.holdsOn relation (.number bound)) (left.failsOn relation (.number bound))) := by
  obtain ⟨l, r, full, hlw, hrw, hfull, he⟩ := Node.walk_comparison_eq_ok he
  have hs := sides_of_walks hctx hleft.arithmetic (.number bound) hleft.hasReference_eq rfl hlw hrw
  have hpools : left.pools ++ (Node.number bound).pools = [p] := by
    rw [hleft.pools_eq, Node.pools_number, List.append_nil]
  have hsuccess := hs.success_eq hfree hfull
  have hfailure := hs.failure_eq hfree hfull
  have hlength := hs.length_eq hfree relation
  rw [hpools] at hsuccess hfailure hlength
  rw [if_pos (by simp [hrate, hctx, hfree])] at he
  obtain ⟨critical, hsplit, rfl⟩ := he
  obtain ⟨marked, hdeciding, hkept⟩ := hleft.exists_poolSplit? hcount bound
  rw [splitCheck, hrate, hdeciding] at hsplit
  dsimp only at hsplit
  rw [poolSplit?_eq hrelation hkept] at hsplit
  obtain rfl := Except.ok.inj hsplit
  refine ⟨_, rfl, congrArg some ?_⟩
  -- weights are numbers of rolls
  have hpos : (0 : ℚ) < (allRolls [p]).length :=
    Nat.cast_pos.2 (List.length_pos_iff.2 (allRolls_pool_ne_nil hsides))
  have htotal : full.success + full.failure = (allRolls [p]).length := by
    rw [hsuccess, hfailure, hlength]
    push_cast
    rfl
  have hmin : min (full.total * atLeastOneCritical rate p.marked.dice) full.success
      = min (1 - (1 - p.dice.countedShare rate) ^ p.dice.count.toNat)
          (rollShare [p] (left.holdsOn relation (.number bound))) * (allRolls [p]).length := by
    rw [min_mul_of_nonneg _ _ hpos.le, ← countP_eq_rollShare, ← hsuccess, Check.total, htotal,
      mul_comm, atLeastOneCritical_eq]
    rfl
  rw [hmin, CriticalSplit.ofWeights_eq, sub_add_cancel, htotal, sub_div, hsuccess, hfailure,
    mul_div_cancel_right₀ _ hpos.ne']
  rfl

/-- **When the closed form is exact.** -/
theorem poolShares_eq_iff {rate : ℚ} {p : Pool} {holds fails : Roll → Bool}
    (hcount : 2 ≤ p.dice.count.toNat) (hsides : p.dice.sides ≠ 0)
    (hhits : ∀ roll ∈ allRolls [p], isCriticalRoll rate [p] roll = true → holds roll = true) :
    poolShares rate p holds fails = exactShares rate p holds fails ↔ p.dice.Fits
      ∧ (p.DecidesEvenly rate ∨ p.decidingShare rate < criticalShare rate p.dice.sides.toNat
        ∧ ∀ roll ∈ allRolls [p], holds roll = true → isCriticalRoll rate [p] roll = true) := by
  have hn : p.dice.count.toNat ≠ 0 := by omega
  have hsplit := rollShare_add [p] holds (isCriticalRoll rate [p])
  -- a critical roll holds anyway
  have hboth : rollShare [p] (fun roll => holds roll && isCriticalRoll rate [p] roll)
      = rollShare [p] (isCriticalRoll rate [p]) := by
    unfold rollShare
    refine congrArg (fun k : ℕ => (k : ℚ) / (allRolls [p]).length)
      (List.countP_congr fun roll hroll => ?_)
    rw [Bool.and_eq_true]
    exact and_iff_right_of_imp (hhits roll hroll)
  rw [hboth] at hsplit
  have hnormal := rollShare_nonneg [p] fun roll => holds roll && !isCriticalRoll rate [p] roll
  -- all hits are critical where no hit is normal
  have hall : rollShare [p] holds = rollShare [p] (isCriticalRoll rate [p])
      ↔ ∀ roll ∈ allRolls [p], holds roll = true → isCriticalRoll rate [p] roll = true := by
    rw [← hsplit, add_eq_right, rollShare_eq_zero_iff (allRolls_pool_ne_nil hsides)]
    refine forall₂_congr fun roll _ => ?_
    cases holds roll <;> cases isCriticalRoll rate [p] roll <;> simp
  have hshares : poolShares rate p holds fails = exactShares rate p holds fails
      ↔ min (1 - (1 - p.dice.countedShare rate) ^ p.dice.count.toNat)
          (rollShare [p] holds) = rollShare [p] (isCriticalRoll rate [p]) := by
    rw [poolShares, exactShares, CriticalSplit.mk.injEq]
    constructor
    · exact fun h => h.2.1
    · intro h
      exact ⟨by rw [h]; linarith, h, rfl⟩
  rw [hshares, min_eq_iff_of_le (by linarith), hall, Pool.rollShare_critical_eq rate hsides,
    atLeastOne_eq_iff (p.dice.countedShare_le_one rate) (p.decidingShare_le_one rate) hn,
    atLeastOne_lt_iff (p.dice.countedShare_le_one rate) (p.decidingShare_le_one rate) hn, eq_comm]
  by_cases hfits : p.dice.Fits
  · rw [p.dice.countedShare_of_fits rate hfits, Pool.decidingShare_eq_iff rate hfits hsides,
      and_iff_right hfits]
  · -- the closed form counts no critical face, and there are some
    have hpos := Pool.decidingShare_pos_of_not_fits rate hfits
    rw [p.dice.countedShare_of_not_fits rate hfits, iff_false_right fun h => hfits h.1]
    rintro (hzero | ⟨hlt, -⟩)
    · exact hpos.ne' hzero
    · exact hpos.not_gt hlt

/-- **The closed form of a kept pool, and when it is exact.**  Where every critical roll is a hit,
the critical hits are the share that the closed form gives, as far as there are hits.  They are the
rolls with a critical die exactly if there is a number above the highest face, and either rolling
again leaves the share of critical faces as it is, or the closed form asks for too many and all hits
are critical. -/
theorem poolSplit_exact_iff {rate : ℚ} {relation : Relation} {left : Node} {p : Pool}
    {bound : Float} {e : Evaluation ℚ} (hrate : s.rate = some rate) (hctx : ctx.pinned = none)
    (hfree : ctx.restrictCritical = false)
    (hrelation : relation = .greater ∨ relation = .greaterEqual) (hleft : left.KeepsFrom p)
    (hcount : 2 ≤ p.dice.count.toNat) (hsides : p.dice.sides ≠ 0)
    (hhits : ∀ roll ∈ allRolls [p], isCriticalRoll rate [p] roll = true →
      left.holdsOn relation (.number bound) roll = true)
    (he : (Node.comparison relation left (.number bound)).evaluate s ctx = .ok e) :
    let holds := left.holdsOn relation (.number bound)
    let fails := left.failsOn relation (.number bound)
    ∃ check, e = .check check ∧ check.critical = some (poolShares rate p holds fails)
      ∧ (check.critical = some (exactShares rate p holds fails) ↔ p.dice.Fits
          ∧ (p.DecidesEvenly rate ∨ p.decidingShare rate < criticalShare rate p.dice.sides.toNat
            ∧ ∀ roll ∈ allRolls [p], holds roll = true →
                isCriticalRoll rate [p] roll = true)) := by
  intro holds fails
  obtain ⟨check, rfl, hcritical⟩ :=
    split_of_keepsFrom hrate hctx hfree hrelation hleft hcount hsides he
  refine ⟨check, rfl, hcritical, ?_⟩
  rw [hcritical, Option.some_inj]
  exact poolShares_eq_iff hcount hsides hhits

/-- `2D2`, each of which explodes on a `2`. -/
def explodingPair : Pool := ⟨⟨2, 2, true⟩, some (.exploding .sum none (some ⟨2, 2⟩) 1)⟩

set_option maxRecDepth 4000 in
/-- `kh(2D2e2)>=1`: every roll is a hit, and three of four are critical. -/
theorem poolSplit_exact_explodingPair :
    ∃ check : Check ℚ, (Node.comparison .greaterEqual
        (.keep .highest 1 [.dice explodingPair.dice none explodingPair.modifier])
        (.number 1)).evaluate { rate := some (50 : ℚ) } {} = .ok (.check check)
      ∧ check.critical = some ⟨1 / 4, 3 / 4, 0⟩ := by
  obtain ⟨e, he⟩ := succeeds_of_isOk (x := (Node.comparison .greaterEqual
      (.keep .highest 1 [.dice explodingPair.dice none explodingPair.modifier])
      (.number 1)).evaluate { rate := some (50 : ℚ) } {}) (by decide +kernel)
  obtain ⟨check, rfl, -, hexact⟩ := poolSplit_exact_iff (p := explodingPair) rfl rfl rfl (.inr rfl)
    ⟨.highest, 1, _, rfl, rfl⟩ (by decide) (by decide) (by decide +kernel) he
  have heven : explodingPair.DecidesEvenly 50 := by
    rintro range limit ⟨⟩
  refine ⟨check, he, (hexact.2 ⟨by decide, .inl heven⟩).trans (congrArg some ?_)⟩
  rw [exactShares, CriticalSplit.mk.injEq]
  exact ⟨by decide +kernel, by decide +kernel, by decide +kernel⟩

/-- `2D2`, a `1` being rolled again. -/
def rerolledPair : Pool := ⟨⟨2, 2, true⟩, some (.reroll ⟨1, 1⟩ 1)⟩

set_option maxRecDepth 4000 in
/-- `kh(2D2r1)>=1`: every roll is a hit.  A die that rolls a `1` again shows a `2` in three of four
rolls, so 15 of 16 rolls are critical.  The closed form goes by the two faces and says three of
four. -/
theorem criticalHit_rerolledPair :
    (∀ roll ∈ allRolls [rerolledPair], isCriticalRoll (50 : ℚ) [rerolledPair] roll = true →
        Node.holdsOn .greaterEqual (.keep .highest 1 [.dice rerolledPair.dice none
          rerolledPair.modifier]) (.number 1) roll = true)
      ∧ rollShare [rerolledPair] (isCriticalRoll (50 : ℚ) [rerolledPair]) = 15 / 16
      ∧ ∃ (check : Check ℚ) (shares : CriticalSplit ℚ), (Node.comparison .greaterEqual
          (.keep .highest 1 [.dice rerolledPair.dice none rerolledPair.modifier])
          (.number 1)).evaluate { rate := some (50 : ℚ) } {} = .ok (.check check)
        ∧ check.critical = some shares ∧ shares.criticalHit = 3 / 4 := by
  refine ⟨by decide +kernel, by decide +kernel, ?_⟩
  have hok : (((Node.comparison .greaterEqual
      (.keep .highest 1 [.dice rerolledPair.dice none rerolledPair.modifier])
      (.number 1)).evaluate { rate := some (50 : ℚ) } {}).toOption.bind Evaluation.check?).any
        (fun check => check.critical.any fun shares => decide (shares.criticalHit = 3 / 4)) = true := by
    decide +kernel
  obtain ⟨e, check, he, hcheck, hvalues⟩ := exists_of_any hok
  obtain rfl := Node.eq_check_of_walk he hcheck
  cases hshares : check.critical with
  | none => rw [hshares] at hvalues; cases hvalues
  | some shares =>
    rw [hshares] at hvalues
    exact ⟨check, shares, he, hshares, of_decide_eq_true hvalues⟩

end DiceOdds
