import DiceOdds.Proofs.Critical.Readings
import DiceOdds.Proofs.Routes

/-!
# The mixture of two readings

A formula that says what happens on a critical hit is evaluated in its normal reading without
critical faces, and in its critical reading on the rolls with such a face.  The two results are
added up, and the share of the critical one is reported as the probability of a critical hit.

## Why the share need not be the probability

Each result counts rolls of its own reading, and one roll of a reading that needs more dice is less
likely than one roll of the other.  The weights are on one scale only if both readings have equally
many rolls.  Otherwise the reading with more rolls counts too much: the share is
`q * c / ((1 - q) * n + q * c)` where `q` is the probability, and `n` and `c` are the numbers of
rolls of the two readings.
-/

namespace DiceOdds

variable {s : Settings ℚ} {root : Node}

/-! ## 1. The probability of a critical roll -/

/-- The share of rolls in which none of the dice of a literal shows a critical face. -/
def Pool.lowShare (rate : ℚ) (p : Pool) : ℚ :=
  p.rolls.countP (fun roll => !p.isCritical rate roll) / p.rolls.length

/-- The number of rolls in which no marked dice show a critical face. -/
theorem countP_uncritical {rate : ℚ} {pools : List Pool}
    (hany : pools.any (·.dice.critical) = true) :
    (allRolls pools).countP (fun roll => !isCriticalRoll rate pools roll)
      = (pools.map fun p =>
          p.rolls.countP fun roll => !(p.dice.critical && p.isCritical rate roll)).prod := by
  have hsum := sum_sections_filter_zip pools Pool.rolls
    (fun p roll => !(p.dice.critical && p.isCritical rate roll)) fun _ => 1
  rw [List.map_const', List.sum_replicate, nsmul_eq_mul, mul_one, length_sections, List.map_map]
    at hsum
  have hcount : ((allRolls pools).map fun roll =>
      if (pools.zip roll).all (fun q => !(q.1.dice.critical && q.1.isCritical rate q.2))
        then (1 : ℚ) else 0).sum
      = (allRolls pools).countP fun roll => !isCriticalRoll rate pools roll := by
    rw [sum_indicator]
    refine congrArg Nat.cast (List.countP_congr fun roll _ => ?_)
    rw [isCriticalRoll, if_pos hany, List.not_any_eq_all_not]
  refine (Nat.cast_inj (R := ℚ)).1 (hcount.symm.trans (hsum.symm.trans (congrArg Nat.cast ?_)))
  refine congrArg List.prod (List.map_congr_left fun p _ => ?_)
  rw [Function.comp_apply, List.countP_eq_length_filter]

/-- The shares of the single literals are independent; unmarked dice are never critical. -/
theorem prod_lowShare (rate : ℚ) {pools : List Pool} (hrolls : ∀ p ∈ pools, p.rolls ≠ []) :
    (((pools.map fun p =>
        p.rolls.countP fun roll => !(p.dice.critical && p.isCritical rate roll)).prod : ℕ) : ℚ)
      = ((markedPools pools).map (Pool.lowShare rate)).prod * (allRolls pools).length := by
  rw [allRolls, length_sections, List.map_map]
  induction pools with
  | nil => simp [markedPools]
  | cons p rest ih =>
    have hrest := ih fun q hq => hrolls q (List.mem_cons_of_mem _ hq)
    have hp : (p.rolls.length : ℚ) ≠ 0 :=
      Nat.cast_ne_zero.2 (List.length_pos_iff.2 (hrolls p (List.mem_cons_self ..))).ne'
    rw [List.map_cons, List.map_cons, List.prod_cons, List.prod_cons, Nat.cast_mul, Nat.cast_mul,
      hrest, Function.comp_apply]
    cases hmark : p.dice.critical with
    | true =>
      rw [markedPools_cons, if_pos hmark, List.map_cons, List.prod_cons, Pool.lowShare]
      simp only [Bool.true_and]
      field_simp
    | false =>
      rw [markedPools_cons, hmark, if_neg Bool.false_ne_true]
      simp only [Bool.false_and, Bool.not_false, List.countP_true]
      rw [mul_left_comm]

theorem countP_add_countP_not {α : Type} (event : α → Bool) (l : List α) :
    l.countP event + l.countP (!event ·) = l.length := by
  rw [List.length_eq_countP_add_countP event]
  simp

/-- **The probability of a critical roll depends on the marked dice alone.** -/
theorem rollShare_critical {rate : ℚ} {pools : List Pool}
    (hany : pools.any (·.dice.critical) = true) (hrolls : ∀ p ∈ pools, p.rolls ≠ []) :
    rollShare pools (isCriticalRoll rate pools)
      = 1 - ((markedPools pools).map (Pool.lowShare rate)).prod := by
  have hlow := prod_lowShare rate hrolls
  rw [← countP_uncritical hany] at hlow
  have hpos : ((allRolls pools).length : ℚ) ≠ 0 :=
    Nat.cast_ne_zero.2 (List.length_pos_iff.2 (allRolls_ne_nil hrolls)).ne'
  rw [rollShare, div_eq_iff hpos, sub_mul, one_mul, ← hlow, eq_sub_iff_add_eq]
  exact_mod_cast countP_add_countP_not (isCriticalRoll rate pools) (allRolls pools)

theorem rollShare_nonneg (pools : List Pool) (event : Roll → Bool) : 0 ≤ rollShare pools event :=
  div_nonneg (Nat.cast_nonneg _) (Nat.cast_nonneg _)

theorem rollShare_le_one (pools : List Pool) (event : Roll → Bool) : rollShare pools event ≤ 1 :=
  div_le_one_of_le₀ (Nat.cast_le.2 List.countP_le_length) (Nat.cast_nonneg _)

/-- The number of rolls with an event is its share of all rolls. -/
theorem countP_eq_rollShare (pools : List Pool) (event : Roll → Bool) :
    ((allRolls pools).countP event : ℚ) = rollShare pools event * (allRolls pools).length := by
  rw [rollShare]
  rcases Nat.eq_zero_or_pos (allRolls pools).length with hzero | hpos
  · rw [List.eq_nil_of_length_eq_zero hzero]
    simp
  · rw [div_mul_cancel₀ _ (Nat.cast_ne_zero.2 hpos.ne')]

/-- The other rolls have the rest. -/
theorem countP_not_eq_rollShare (pools : List Pool) (event : Roll → Bool) :
    ((allRolls pools).countP (!event ·) : ℚ)
      = (1 - rollShare pools event) * (allRolls pools).length := by
  rw [sub_mul, one_mul, ← countP_eq_rollShare, eq_sub_iff_add_eq']
  exact_mod_cast (countP_add_countP_not event (allRolls pools))

/-! ## 2. The mixture -/

/-- A formula that says what happens on a critical hit, with marked dice that decide about it. -/
structure Node.Mixed (root : Node) : Prop where
  wrapped : root.Wrapped
  hasWrapper : root.hasCriticalWrapper = true
  hasMarks : root.hasCriticalDice = true
  marksOutside : root.MarksOutside
  sides : ∀ p ∈ root.pools, p.dice.sides ≠ 0

namespace Node.Mixed

theorem marked_readPools (h : root.Mixed) (critical : Bool) :
    (root.readPools critical).any (·.dice.critical) = true := by
  rw [any_critical_eq, h.wrapped.markedPools_readPools h.marksOutside, ← any_critical_eq,
    ← hasCriticalDice_eq]
  exact h.hasMarks

theorem rolls_ne_nil (h : root.Mixed) (critical : Bool) :
    ∀ p ∈ root.readPools critical, p.rolls ≠ [] :=
  fun p hp => Pool.rolls_ne_nil (h.sides p (h.wrapped.readPools_sublist.subset hp))

/-- Critical rolls have the same probability in both readings. -/
theorem rollShare_readPools (h : root.Mixed) (rate : ℚ) (critical : Bool) :
    rollShare (root.readPools critical) (isCriticalRoll rate (root.readPools critical))
      = rollShare root.pools (isCriticalRoll rate root.pools) := by
  have hany : root.pools.any (·.dice.critical) = true := by
    rw [← hasCriticalDice_eq]
    exact h.hasMarks
  rw [rollShare_critical (h.marked_readPools critical) (h.rolls_ne_nil critical),
    rollShare_critical hany fun p hp => Pool.rolls_ne_nil (h.sides p hp),
    h.wrapped.markedPools_readPools h.marksOutside]

end Node.Mixed

/-- In a reading with marked dice, the rolls with admitted faces are those that are not critical. -/
theorem counts_uncritical {ctx : Context} {rate : ℚ} {pools : List Pool} {d : Distribution ℚ}
    {value : Roll → Option Outcome} (hrate : s.rate = some rate)
    (hctx : ctx.restrictCritical = true) (hany : pools.any (·.dice.critical) = true)
    (hd : d.Counts ((s.admittedRolls ctx pools).map value)) :
    d.Counts (((allRolls pools).filter (!isCriticalRoll rate pools ·)).map value) := by
  intro g
  rw [hd g, List.map_map, List.map_map, sum_uncritical (.inl ⟨hany, rfl⟩) hrate hctx, sum_filter]
  refine congrArg List.sum (List.map_congr_left fun roll _ => ?_)
  by_cases hc : isCriticalRoll rate pools roll <;> simp [hc]

theorem Node.Wrapped.values_counts {ctx : Context} {d : Distribution ℚ} (h : root.Wrapped)
    (hctx : ctx.pinned = none) (hd : root.values s ctx = .ok d) :
    d.Counts ((s.admittedRolls ctx (root.readPools ctx.criticalBranch)).map
      (root.readOn ctx.criticalBranch)) := by
  obtain ⟨e, he, rfl⟩ := values_eq_ok hd
  obtain ⟨d, rfl, hcounts⟩ := h.readSound hctx e he
  exact hcounts

/-- Such a formula is no check and no conditional. -/
theorem Node.Wrapped.stripGroups {node : Node} (h : node.Wrapped) : node.stripGroups.Wrapped := by
  induction h with
  | number value => exact .number value
  | dice d id modifier => exact .dice d id modifier
  | keep kind count h _ => exact .keep kind count h
  | binary operation hl hr _ _ => exact .binary operation hl hr
  | double h _ => exact .double h
  | switch hn hc _ _ => exact .switch hn hc
  | only h _ => exact .only h
  | function name bound h _ => exact .function name bound h
  | group _ ih => exact ih

theorem Node.Mixed.wantsMixture {rate : ℚ} (h : root.Mixed) (hrate : s.rate = some rate) :
    wantsMixture s root = true := by
  have hstrip := h.wrapped.stripGroups
  rw [DiceOdds.wantsMixture, hrate, h.hasWrapper]
  generalize root.stripGroups = inner at hstrip
  cases hstrip <;> rfl

theorem criticalMixture_eq_ok {e : Evaluation ℚ} (hmarks : root.hasCriticalDice = true)
    (h : criticalMixture s root = .ok e) :
    ∃ normal all low, root.values s { restrictCritical := true } = .ok normal
      ∧ root.values s { criticalBranch := true } = .ok all
      ∧ root.values s { criticalBranch := true, restrictCritical := true } = .ok low
      ∧ e = .mixture (.ofParts normal (all.subtract low)) := by
  cases mixtureRoute_of_ok h with
  | decided _ hnormal hall hlow => exact ⟨_, _, _, hnormal, hall, hlow, rfl⟩
  | byRate hunmarked => cases hmarks.symm.trans hunmarked

/-- The reported probability is the share of the critical part. -/
theorem MixtureResult.criticalProbability_ofParts {normal critical : Distribution ℚ}
    (hc : critical.Nonneg) :
    (ofParts normal critical).criticalProbability
      = critical.total / (normal.total + critical.total) := by
  have htotal : (normal.addScaled critical 1).total = normal.total + critical.total := by
    rw [Distribution.total_eq_sumOver, Distribution.sumOver_addScaled hc zero_le_one, one_mul,
      ← Distribution.total_eq_sumOver, ← Distribution.total_eq_sumOver]
  rw [ofParts]
  dsimp only
  rw [htotal]
  by_cases hzero : normal.total + critical.total = 0
  · rw [if_pos (beq_iff_eq.2 hzero), hzero, div_zero]
  · rw [if_neg (fun h => hzero (beq_iff_eq.1 h))]

/-- Weights on two scales mix in the right ratio if the scales are the same, or if only one of them
is there. -/
theorem share_eq_iff {q n c : ℚ} (hq : 0 ≤ q) (hq' : q ≤ 1) (hn : 0 < n) (hc : 0 < c) :
    q * c / ((1 - q) * n + q * c) = q ↔ n = c ∨ q = 0 ∨ q = 1 := by
  have hpos : 0 < (1 - q) * n + q * c := by
    rcases hq.eq_or_lt with rfl | hq
    · linarith
    · have h := mul_nonneg (sub_nonneg.2 hq') hn.le
      have h' := mul_pos hq hc
      linarith
  rw [div_eq_iff hpos.ne']
  constructor
  · intro h
    have hprod : q * ((1 - q) * (c - n)) = 0 := by linear_combination h
    rcases mul_eq_zero.1 hprod with h | h
    · exact .inr (.inl h)
    · rcases mul_eq_zero.1 h with h | h
      · exact .inr (.inr (sub_eq_zero.1 h).symm)
      · exact .inl (sub_eq_zero.1 h).symm
  · rintro (rfl | rfl | rfl) <;> ring

/-- **A mixture counts two readings.**  Its normal part counts the rolls of the normal reading that
are not critical, and its critical part the critical rolls of the critical reading.  What is
reported as the probability of a critical hit is the probability of a critical roll exactly if both
readings have equally many rolls, or if all rolls are critical or none is. -/
theorem evaluateFormula_mixture {rate : ℚ} {e : Evaluation ℚ} (h : root.Mixed)
    (hregistry : s.registry = []) (hrate : s.rate = some rate)
    (he : root.evaluateFormula s = .ok e) :
    ∃ m, e = .mixture m
      ∧ (∀ v, m.normal.weightOf v = (allRolls (root.readPools false)).countP fun roll =>
          root.readOn false roll = some v && !isCriticalRoll rate (root.readPools false) roll)
      ∧ (∀ v, m.critical.weightOf v = (allRolls (root.readPools true)).countP fun roll =>
          root.readOn true roll = some v && isCriticalRoll rate (root.readPools true) roll)
      ∧ let q := rollShare root.pools (isCriticalRoll rate root.pools)
        let n : ℚ := (allRolls (root.readPools false)).length
        let c : ℚ := (allRolls (root.readPools true)).length
        m.criticalProbability = q * c / ((1 - q) * n + q * c)
          ∧ (m.criticalProbability = q ↔ n = c ∨ q = 0 ∨ q = 1) := by
  have hempty : (!s.registry.isEmpty) = false := by rw [hregistry]; rfl
  rw [Node.evaluateFormula, hempty, if_neg Bool.false_ne_true, if_pos (h.wantsMixture hrate)] at he
  obtain ⟨normal, all, low, hnormal, hall, hlow, rfl⟩ := criticalMixture_eq_ok h.hasMarks he
  -- what the three evaluations count
  have hn := counts_uncritical hrate rfl (h.marked_readPools false)
    (h.wrapped.values_counts rfl hnormal)
  have hl := counts_uncritical hrate rfl (h.marked_readPools true)
    (h.wrapped.values_counts rfl hlow)
  have ha := h.wrapped.values_counts rfl hall
  rw [Settings.admittedRolls_of_unrestricted rfl] at ha
  have hc := ha.subtract hl
  simp only [Bool.not_not] at hc
  refine ⟨_, rfl, fun v => ?_, fun v => ?_, ?_⟩
  · exact (hn.weightOf_map v).trans (congrArg Nat.cast List.countP_filter)
  · exact (hc.weightOf_map v).trans (congrArg Nat.cast List.countP_filter)
  intro q n c
  have hshare : (MixtureResult.ofParts normal (all.subtract low)).criticalProbability
      = q * c / ((1 - q) * n + q * c) := by
    rw [MixtureResult.criticalProbability_ofParts hc.nonneg, hc.total_eq, hn.total_eq,
      List.length_map, List.length_map, ← List.countP_eq_length_filter,
      ← List.countP_eq_length_filter, countP_eq_rollShare, countP_not_eq_rollShare,
      h.rollShare_readPools, h.rollShare_readPools]
  have hpos : ∀ critical, (0 : ℚ) < (allRolls (root.readPools critical)).length := fun critical =>
    Nat.cast_pos.2 (List.length_pos_iff.2 (allRolls_ne_nil (h.rolls_ne_nil critical)))
  exact ⟨hshare, hshare ▸ share_eq_iff (rollShare_nonneg ..) (rollShare_le_one ..) (hpos false)
    (hpos true)⟩

/-- `D2+#d2#`: the die that decides, and a die that counts twice on a critical hit. -/
def doubledDie : Node :=
  .binary .add (.dice ⟨1, 2, true⟩ none none) (.double (.dice ⟨1, 2, false⟩ none none))

theorem mixed_doubledDie : doubledDie.Mixed where
  wrapped := .binary .add (.dice _ _ _) (.double (.dice _ _ _))
  hasWrapper := rfl
  hasMarks := rfl
  marksOutside := by decide
  sides := by decide

set_option maxRecDepth 4000 in
theorem evaluateFormula_mixture_doubledDie :
    ∃ m : MixtureResult ℚ, doubledDie.evaluateFormula { rate := some (50 : ℚ) } = .ok (.mixture m)
      ∧ m.critical.weightOf (Outcome.ofInt 4) = 1 ∧ m.criticalProbability = 1 / 2 := by
  have hok : (doubledDie.evaluateFormula { rate := some (50 : ℚ) }).isOk = true := by
    decide +kernel
  cases he : doubledDie.evaluateFormula { rate := some (50 : ℚ) } with
  | error _ => rw [he] at hok; cases hok
  | ok e =>
    obtain ⟨m, rfl, -, hcritical, -, hiff⟩ :=
      evaluateFormula_mixture mixed_doubledDie rfl rfl he
    have hcount : (allRolls (doubledDie.readPools true)).countP (fun roll =>
        doubledDie.readOn true roll = some (Outcome.ofInt 4)
          && isCriticalRoll (50 : ℚ) (doubledDie.readPools true) roll) = 1 := by
      decide +kernel
    refine ⟨m, rfl, ?_, (hiff.2 (.inl ?_)).trans ?_⟩
    · rw [hcritical, hcount, Nat.cast_one]
    · decide +kernel
    · decide +kernel

/-- `D2+[d2]`: a second die that is rolled only on a critical hit. -/
def addedDie : Formula where
  root := .binary .add (.dice ⟨1, 2, true⟩ none none) (.only (.dice ⟨1, 2, false⟩ none none))
  registry := []

set_option maxRecDepth 4000 in
theorem ofText_addedDie : Formula.ofText "D2+[d2]" = .ok addedDie := by
  have htokens : tokenize "D2+[d2]" = .ok [⟨.dice ⟨1, 2, true⟩, 0⟩, ⟨.symbol .plus, 2⟩,
      ⟨.symbol .leftBracket, 3⟩, ⟨.dice ⟨1, 2, false⟩, 4⟩, ⟨.symbol .rightBracket, 6⟩] := by
    decide +kernel
  rw [Formula.ofText, htokens]
  rfl

set_option maxRecDepth 4000 in
/-- The die that decides is critical with probability `1 / 2`.  But of two rolls of one die and four
rolls of two dice, one and two are counted. -/
theorem criticalProbability_addedDie :
    ∃ m : MixtureResult ℚ, Formula.ofText "D2+[d2]" = .ok addedDie ∧ addedDie.root.Mixed
      ∧ addedDie.root.evaluateFormula { registry := addedDie.registry, rate := some (50 : ℚ) }
        = .ok (.mixture m)
      ∧ m.criticalProbability = 2 / 3
      ∧ rollShare addedDie.root.pools (isCriticalRoll 50 addedDie.root.pools) = 1 / 2 := by
  have hmixed : addedDie.root.Mixed :=
    ⟨.binary .add (.dice _ _ _) (.only (.dice _ _ _)), rfl, rfl, by decide, by decide⟩
  have hok : (match addedDie.root.evaluateFormula
      { registry := addedDie.registry, rate := some (50 : ℚ) } with
    | .ok (.mixture m) => decide (m.criticalProbability = 2 / 3)
    | _ => false) = true := by decide +kernel
  split at hok
  · next m he =>
    exact ⟨m, ofText_addedDie, hmixed, he, of_decide_eq_true hok, by decide +kernel⟩
  · cases hok

end DiceOdds
