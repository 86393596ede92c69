import DiceOdds.Proofs.Mixing.Crowded
import DiceOdds.Proofs.Reuse.Conserved

/-!
# The combination of the lowest rolls

Among the combinations of a formula that refers to dice there is one in which all dice show the
least that they can.  In it nothing is left open: even a limit on each die meets the same dice on
every roll with the fixed total, because no other roll has so low a total.

## Why one combination is enough

With a single value everywhere, a comparison holds or fails for certain, and a conditional passes on
the whole of one branch; there is nothing that rounding could take away.  So whatever happens in
the other combinations, this one contributes its weight.
-/

namespace DiceOdds

/-! ## 1. A single value -/

namespace Distribution

/-- Whatever happens, it comes to the same: a single value with a whole weight. -/
def Certain (d : Distribution ℚ) : Prop :=
  ∃ (o : Option Outcome) (n : ℕ), n ≠ 0 ∧
    ∀ g : Option Outcome → ℚ, d.sumOver (fun v => g (some v)) = n * g o

variable {d x y z : Distribution ℚ}

theorem certain_point (v : Outcome) : (point v 1 : Distribution ℚ).Certain :=
  ⟨some v, 1, one_ne_zero, fun g => by rw [sumOver_point, Nat.cast_one, one_mul]⟩

theorem Certain.of_counts {l : List (Option Outcome)} (h : d.Counts l) (hne : l ≠ [])
    {o : Option Outcome} (hl : ∀ o' ∈ l, o' = o) : d.Certain := by
  refine ⟨o, l.length, fun hzero => hne (List.eq_nil_of_length_eq_zero hzero), fun g => ?_⟩
  rw [h g, List.eq_replicate_of_mem hl, List.map_replicate, List.sum_replicate,
    List.length_replicate, nsmul_eq_mul]

/-- There is a value, as the weight is not `0`. -/
theorem Certain.exists_value (h : d.Certain) :
    ∃ (v : Outcome) (n : ℕ), n ≠ 0 ∧ ∀ f : Outcome → ℚ, d.sumOver f = n * f v := by
  obtain ⟨o, n, hn, hd⟩ := h
  cases o with
  | none =>
    have hzero := hd fun o => if o.isSome then 0 else 1
    simp only [Option.isSome_some, if_true, sumOver_zero, Option.isSome_none, Bool.false_eq_true,
      if_false, mul_one] at hzero
    exact absurd (Nat.cast_eq_zero.1 hzero.symm) hn
  | some v => exact ⟨v, n, hn, fun f => hd fun o => o.elim 0 f⟩

theorem Certain.nonneg (h : d.Certain) : d.Nonneg := by
  obtain ⟨v, n, -, hd⟩ := h.exists_value
  refine nonneg_iff.2 fun x => ?_
  rw [weightOf_eq_sumOver, hd]
  split
  · exact mul_nonneg (Nat.cast_nonneg n) zero_le_one
  · rw [mul_zero]

theorem Certain.map (h : d.Certain) (m : Outcome → Outcome) : (d.map m).Certain := by
  obtain ⟨o, n, hn, hd⟩ := id h
  exact ⟨o.map m, n, hn, fun g => (sumOver_map h.nonneg m _).trans (hd fun o => g (o.map m))⟩

section Partial

variable {ε : Type}

theorem Certain.tryMap {f : Outcome → Except ε Outcome} (h : d.Certain) (hz : d.tryMap f = .ok z) :
    z.Certain := by
  obtain ⟨o, n, hn, hd⟩ := id h
  refine ⟨o.bind fun v => (f v).toOption, n, hn, fun g => ?_⟩
  rw [← hd fun o => g (o.bind fun v => (f v).toOption)]
  refine sumOver_tryMap (fun v c hc => ?_) h.nonneg hz
  rw [Option.bind_some, hc]
  rfl

theorem Certain.combine {op : Outcome → Outcome → Except ε Outcome} (hx : x.Certain)
    (hy : y.Certain) (hz : x.combine y op = .ok z) : z.Certain := by
  obtain ⟨u, n, hn, hu⟩ := id hx
  obtain ⟨v, m, hm, hv⟩ := id hy
  refine ⟨u.bind fun a => v.bind fun b => (op a b).toOption, n * m, mul_ne_zero hn hm, fun g => ?_⟩
  have hsum : z.sumOver (fun c => g (some c))
      = x.sumOver fun a => y.sumOver fun b => g (op a b).toOption := by
    refine sumOver_combine (fun a b c hc => ?_) hx.nonneg hy.nonneg hz
    rw [hc]
    rfl
  have hrow : ∀ a, y.sumOver (fun b => g (op a b).toOption)
      = m * g (v.bind fun b => (op a b).toOption) :=
    fun a => hv fun o => g (o.bind fun b => (op a b).toOption)
  have hcolumn := hu fun o => g (o.bind fun a => v.bind fun b => (op a b).toOption)
  calc z.sumOver (fun c => g (some c))
      = x.sumOver fun a => m * g (v.bind fun b => (op a b).toOption) := by
        rw [hsum]
        simp only [hrow]
    _ = m * (n * g (u.bind fun a => v.bind fun b => (op a b).toOption)) := by
        rw [sumOver_mul]
        exact congrArg _ hcolumn
    _ = _ := by
        push_cast
        ring

end Partial

theorem Certain.sumOverAll {ds : List (Distribution ℚ)} (h : ∀ d ∈ ds, d.Certain) :
    ∃ (o : Option (List Outcome)) (n : ℕ), n ≠ 0 ∧
      ∀ g : Option (List Outcome) → ℚ, sumOverAll ds (fun vs => g (some vs)) = n * g o := by
  induction ds with
  | nil => exact ⟨some [], 1, one_ne_zero, fun g => by rw [Nat.cast_one, one_mul]; rfl⟩
  | cons d ds ih =>
    obtain ⟨hd, hds⟩ := List.forall_mem_cons.1 h
    obtain ⟨v, n, hn, hv⟩ := hd.exists_value
    obtain ⟨o, m, hm, hall⟩ := ih hds
    refine ⟨o.map (v :: ·), n * m, mul_ne_zero hn hm, fun g => ?_⟩
    have hrest := hall fun o => g (o.map (v :: ·))
    simp only [Option.map_some] at hrest
    rw [Distribution.sumOverAll, hv, hrest]
    push_cast
    ring

theorem Certain.keep {items : List (Distribution ℚ)} {count : ℕ} {kind : KeepKind}
    (hitems : ∀ d ∈ items, d.Certain) (h : keep items count kind = .ok z) : z.Certain := by
  obtain ⟨o, n, hn, hall⟩ := Certain.sumOverAll hitems
  refine ⟨o.bind fun vs => kind.sum? count vs, n, hn, fun g => ?_⟩
  have hkeep := sumOver_keep (fun d hd => (hitems d hd).nonneg) h
    fun i => g (Outcome.ofHundredths? i)
  simp only [Outcome.ofHundredths?_hundredths] at hkeep
  rw [hkeep]
  exact hall fun o => g (o.bind fun vs => kind.sum? count vs)

theorem Certain.compare {relation : Relation} {check : Check ℚ} (hx : x.Certain) (hy : y.Certain)
    (h : Check.compare relation x y = .ok check) : check.distribution.Certain := by
  obtain ⟨u, n, hn, hu⟩ := hx.exists_value
  obtain ⟨v, m, hm, hv⟩ := hy.exists_value
  obtain ⟨hs, hf⟩ := nonneg_compare hx.nonneg hy.nonneg h
  have hweight : ∀ answer, check.weightOf answer
      = n * (m * if relation.holds u v = answer then 1 else 0) := fun answer => by
    rw [Check.weightOf_compare h, hu, hv]
  have hsuccess : check.success = n * (m * if relation.holds u v = true then 1 else 0) :=
    hweight true
  have hfailure : check.failure = n * (m * if relation.holds u v = false then 1 else 0) :=
    hweight false
  refine ⟨some (if relation.holds u v then 1 else 0), n * m, mul_ne_zero hn hm, fun g => ?_⟩
  rw [Check.distribution, sumOver_bernoulli hs hf, hsuccess, hfailure]
  cases relation.holds u v <;> simp

/-- A check with a single value holds or fails for certain. -/
theorem Certain.check {check : Check ℚ} (h : check.distribution.Certain) (hs : 0 ≤ check.success)
    (hf : 0 ≤ check.failure) :
    ∃ n : ℕ, n ≠ 0 ∧ check.total = n
      ∧ (check.successProbability = 1 ∨ check.successProbability = 0) := by
  obtain ⟨v, n, hn, hd⟩ := h.exists_value
  have hsum : ∀ f : Outcome → ℚ, check.success * f 1 + check.failure * f 0 = n * f v := fun f => by
    rw [← sumOver_bernoulli hs hf]
    exact hd f
  have htotal : check.total = n := by simpa [Check.total] using hsum fun _ => 1
  have hne : (n : ℚ) ≠ 0 := Nat.cast_ne_zero.2 hn
  refine ⟨n, hn, htotal, ?_⟩
  rw [Check.successProbability, Check.share_eq, htotal]
  have hone := hsum fun x => if x = 1 then 1 else 0
  rw [if_pos rfl, if_neg (by decide), mul_one, mul_zero, add_zero] at hone
  rw [hone]
  split
  · exact .inl (by rw [mul_one, div_self hne])
  · exact .inr (by rw [mul_zero, zero_div])

/-- Of two branches with single values the one that is taken fills the whole total. -/
theorem certain_mix {p : ℚ} (hp : p = 1 ∨ p = 0) (hx : x.Certain) (hy : y.Certain) {t : ℕ}
    (ht : t ≠ 0) : (mix [(p, x), (1 - p, y)] t).Certain := by
  have hblend : ∃ v, ∀ f : Outcome → ℚ, (blend [(p, x), (1 - p, y)] t).sumOver f = t * f v := by
    obtain ⟨u, n, hn, hu⟩ := hx.exists_value
    obtain ⟨v, m, hm, hv⟩ := hy.exists_value
    have hn : (n : ℚ) ≠ 0 := Nat.cast_ne_zero.2 hn
    have hm : (m : ℚ) ≠ 0 := Nat.cast_ne_zero.2 hm
    have hsum : ∀ f : Outcome → ℚ, (blend [(p, x), (1 - p, y)] t).sumOver f
        = t * p * f u + t * (1 - p) * f v := by
      intro f
      rw [sumOver_blend (Nat.cast_nonneg t)]
      · simp only [List.map_cons, List.map_nil, List.sum_cons, List.sum_nil, add_zero,
          total_eq_sumOver, hu, hv]
        field_simp
      · rcases hp with rfl | rfl <;> simp [hx.nonneg, hy.nonneg]
    rcases hp with rfl | rfl
    · exact ⟨u, fun f => by rw [hsum]; ring⟩
    · exact ⟨v, fun f => by rw [hsum]; ring⟩
  obtain ⟨v, hv⟩ := hblend
  have hwhole : (blend [(p, x), (1 - p, y)] t).Whole := whole_of_sumOver fun f hf => by
    obtain ⟨k, hk⟩ := hf v
    exact ⟨t * k, by rw [hv, hk, Nat.cast_mul]⟩
  refine ⟨some v, t, ht, fun g => ?_⟩
  rw [mix_eq_rounded, hwhole.sumOver_rounded, hv]

end Distribution

open DiceOdds.Distribution (Certain certain_point certain_mix)

/-- A conditional passes on the whole of the branch that is taken. -/
theorem certain_ofBranches {mixing : Mixing} {condition : String} {check : Check ℚ}
    {yes no : Evaluation ℚ} (hcheck : check.distribution.Certain) (hs : 0 ≤ check.success)
    (hf : 0 ≤ check.failure) (hyes : yes.distribution.Certain) (hno : no.distribution.Certain) :
    (ConditionalResult.ofBranches mixing condition check yes no).combined.Certain := by
  obtain ⟨n, hn, htotal, hp⟩ := hcheck.check hs hf
  obtain ⟨_, a, ha, hyesTotal⟩ := hyes.exists_value
  obtain ⟨_, b, hb, hnoTotal⟩ := hno.exists_value
  obtain ⟨t, ht, hdvd⟩ := mixing.targetTotal_dvd n [a, b]
  have hne : t ≠ 0 := by
    rintro rfl
    have hzero := zero_dvd_iff.1 hdvd
    simp [hn, ha, hb] at hzero
  have htarget : mixing.targetTotal check.total [yes.distribution.total, no.distribution.total]
      = t := by
    rw [← ht, htotal, Distribution.total_eq_sumOver, Distribution.total_eq_sumOver, hyesTotal,
      hnoTotal]
    simp
  unfold ConditionalResult.ofBranches
  dsimp only
  rw [htarget]
  exact certain_mix hp hyes hno hne

/-! ## 2. The lowest rolls -/

/-- No roll of the die is worth less. -/
def Pool.IsLowest (p : Pool) (low : DieRoll) : Prop :=
  low ∈ p.dieRolls ∧ ∀ roll ∈ p.dieRolls, p.points low ≤ p.points roll

namespace Pool

variable {p : Pool} {low : DieRoll}

theorem exists_isLowest (h : p.dice.sides ≠ 0) : ∃ low, p.IsLowest low := by
  obtain ⟨roll, hroll⟩ := List.exists_mem_of_ne_nil _ (dieRolls_ne_nil h)
  obtain ⟨low, hlow, hmin⟩ := p.dieRolls.toFinset.exists_min_image p.points
    ⟨roll, List.mem_toFinset.2 hroll⟩
  exact ⟨low, List.mem_toFinset.1 hlow, fun roll hroll => hmin roll (List.mem_toFinset.2 hroll)⟩

/-- All dice show the lowest roll. -/
def lowestRoll (p : Pool) (low : DieRoll) : PoolRoll := List.replicate p.dice.count.toNat low

theorem IsLowest.lowestRoll_mem (h : p.IsLowest low) : p.lowestRoll low ∈ p.rolls :=
  mem_rolls.2 ⟨List.length_replicate .., fun _ hdie => List.eq_of_mem_replicate hdie ▸ h.1⟩

theorem values?_cons (die : DieRoll) (roll : PoolRoll) :
    p.values? (die :: roll)
      = (p.dieValue? die).bind fun v => (p.values? roll).map (v :: ·) := by
  unfold values?
  rw [List.mapM_cons]
  cases p.dieValue? die with
  | none => rfl
  | some v => cases roll.mapM p.dieValue? <;> rfl

theorem exactSum_of_values? {roll : PoolRoll} {vs : List Outcome} (h : p.values? roll = some vs) :
    Outcome.exactSum vs = ((roll.map p.points).sum : ℕ) * 100 := by
  induction roll generalizing vs with
  | nil =>
    cases h
    rfl
  | cons die roll ih =>
    rw [values?_cons, Option.bind_eq_some_iff] at h
    obtain ⟨v, hv, h⟩ := h
    obtain ⟨rest, hrest, rfl⟩ := Option.map_eq_some_iff.1 h
    rw [Outcome.exactSum_cons, ih hrest, Outcome.ofHundredths?_eq_some.1 hv, List.map_cons,
      List.sum_cons]
    push_cast
    ring

theorem hundredths_of_sum? {roll : PoolRoll} {v : Outcome} (h : p.sum? roll = some v) :
    v.hundredths = ((roll.map p.points).sum : ℕ) * 100 := by
  obtain ⟨vs, hvs, hsum⟩ := Option.bind_eq_some_iff.1 h
  rw [Outcome.ofHundredths?_eq_some.1 hsum, exactSum_of_values? hvs]

theorem values?_of_points {roll : PoolRoll} (h : ∀ die ∈ roll, p.points die = p.points low) :
    p.values? roll = p.values? (List.replicate roll.length low) := by
  induction roll with
  | nil => rfl
  | cons die roll ih =>
    obtain ⟨hdie, hroll⟩ := List.forall_mem_cons.1 h
    rw [List.length_cons, List.replicate_succ, values?_cons, values?_cons, ih hroll, dieValue?,
      dieValue?, hdie]

theorem eq_of_sum_le {m : ℕ} {l : List ℕ} (h : ∀ a ∈ l, m ≤ a) (hsum : l.sum ≤ l.length * m) :
    ∀ a ∈ l, a = m := by
  induction l with
  | nil => simp
  | cons a l ih =>
    obtain ⟨ha, hl⟩ := List.forall_mem_cons.1 h
    have hle := List.card_nsmul_le_sum l m hl
    rw [List.sum_cons, List.length_cons, Nat.succ_mul] at hsum
    rw [smul_eq_mul] at hle
    exact List.forall_mem_cons.2 ⟨by omega, ih hl (by omega)⟩

/-- **Only the lowest rolls have the lowest sum**, so all of them show the same values. -/
theorem IsLowest.values?_eq (h : p.IsLowest low) {roll : PoolRoll} (hroll : roll ∈ p.rolls)
    {v : Outcome} (hlow : p.sum? (p.lowestRoll low) = some v) (hsum : p.sum? roll = some v) :
    p.values? roll = p.values? (p.lowestRoll low) := by
  obtain ⟨hlen, hdice⟩ := mem_rolls.1 hroll
  have hpoints : ∀ die ∈ roll, p.points die = p.points low := by
    have hle : (roll.map p.points).sum ≤ (roll.map p.points).length * p.points low := by
      have heq := (hundredths_of_sum? hsum).symm.trans (hundredths_of_sum? hlow)
      rw [lowestRoll, List.map_replicate, List.sum_replicate, smul_eq_mul] at heq
      rw [List.length_map, hlen]
      omega
    intro die hdie
    refine eq_of_sum_le (fun a ha => ?_) hle _ (List.mem_map_of_mem hdie)
    obtain ⟨die, hdie, rfl⟩ := List.mem_map.1 ha
    exact h.2 die (hdice die hdie)
  rw [values?_of_points hpoints, hlen]
  rfl

end Pool

/-! ## 3. The walk -/

/-- The value of the group where all of its dice show the least. -/
def Group.IsLowest (g : Group) (v : Outcome) : Prop :=
  ∃ low, g.pool.IsLowest low ∧ g.value? (g.pool.lowestRoll low) = some v

/-- The group is fixed at its value on the lowest rolls. -/
def Group.LowestBy (g : Group) (pins : Pins) : Prop :=
  ∃ id v, g.node.definingId? = some id ∧ pins.lookup id = some v ∧ g.IsLowest v

theorem Group.LowestBy.fixedBy {g : Group} {pins : Pins} (h : g.LowestBy pins) :
    g.FixedBy pins := by
  obtain ⟨id, v, hid, hv, low, hlow, hvalue⟩ := h
  exact ⟨id, v, hid, hv, List.ne_nil_of_mem
    (List.mem_filter.2 ⟨hlow.lowestRoll_mem, decide_eq_true hvalue⟩)⟩

namespace Node

variable {s : Settings ℚ} {split : SplitCheck ℚ} {ctx : Context} {pins : Pins}

/-- All dice of a node are fixed at their lowest rolls. -/
structure Lowest (pins : Pins) (node : Node) : Prop where
  lowest : ∀ g ∈ node.groups, g.LowestBy pins
  sides : ∀ g ∈ node.groups, g.pool.dice.sides ≠ 0

theorem Lowest.fixed {node : Node} (h : node.Lowest pins) : ∀ g ∈ node.groups, g.FixedBy pins :=
  fun g hg => (h.lowest g hg).fixedBy

theorem Lowest.mono {node part : Node} (h : node.Lowest pins)
    (hgroups : part.groups ⊆ node.groups) : part.Lowest pins :=
  ⟨fun g hg => h.lowest g (hgroups hg), fun g hg => h.sides g (hgroups hg)⟩

theorem Lowest.part {node part : Node} (h : node.Lowest pins)
    (hstands : node.standsForDice = false) (hpart : part ∈ node.parts) : part.Lowest pins :=
  h.mono fun g hg => by
    rw [groups_eq_parts hstands]
    exact mem_groupsAll.2 ⟨part, hpart, hg⟩

/-- The rolls that a limit on each die goes through show the same values. -/
theorem Lowest.certain_clampEach (hctx : ctx.pinned = some pins)
    (hfree : ctx.restrictCritical = false) {name : FunctionName} {target : Node} {bound : Outcome}
    {clamped : Distribution ℚ}
    (h : target.Lowest pins) (hclamped : s.clampEach ctx name target bound = .ok (some clamped)) :
    clamped.Certain := by
  obtain ⟨d, id, modifier, v, rfl, -, hv, hcounts⟩ :=
    counts_clampEach_fixed hctx hfree h.fixed h.sides hclamped
  obtain ⟨id', v', hid, hv', low, hlow, hvalue⟩ := h.lowest _ (List.mem_singleton_self _)
  cases hid
  rw [hv] at hv'
  cases hv'
  refine .of_counts hcounts (o := (Pool.mk d modifier).clampedSum? name bound
    ((Pool.mk d modifier).lowestRoll low)) ?_ fun o ho => ?_
  · exact List.ne_nil_of_mem (List.mem_map_of_mem
      (List.mem_filter.2 ⟨hlow.lowestRoll_mem, decide_eq_true hvalue⟩))
  · obtain ⟨roll, hroll, rfl⟩ := List.mem_map.1 ho
    obtain ⟨hroll, hsum⟩ := List.mem_filter.1 hroll
    rw [Pool.clampedSum?, hlow.values?_eq hroll hvalue (of_decide_eq_true hsum)]
    rfl

/-- **With all dice at their lowest rolls, everything has a single value.** -/
theorem Lowest.certain_walk (hctx : ctx.pinned = some pins) (hfree : ctx.restrictCritical = false)
    {node : Node} (h : node.Lowest pins) {e : Evaluation ℚ}
    (he : node.walk s split ctx = .ok e) : e.distribution.Certain := by
  have hpinned : ctx.pinned.isSome = true := by rw [hctx, Option.isSome_some]
  induction node using parts_induction generalizing e with
  | h node ih =>
  cases hstands : node.standsForDice with
  | true =>
    obtain ⟨v, rfl⟩ := eq_point_of_standsForDice hctx h.fixed hstands he
    exact certain_point v
  | false =>
    have hpart : ∀ part ∈ node.parts, ∀ {e}, part.walk s split ctx = .ok e →
        e.distribution.Certain :=
      fun part hpart e he => ih part hpart (h.part hstands hpart) he
    clear ih
    cases node with
    | number value =>
      obtain ⟨v, -, rfl⟩ := walk_number_eq_ok he
      exact certain_point v
    | dice d id modifier => cases hstands
    | reference id critical =>
      obtain ⟨x, hx, rfl⟩ := walk_reference_eq_ok he
      obtain ⟨v, -, rfl⟩ := Settings.reference_eq_ok hctx hx
      exact certain_point v
    | keep kind count items =>
      obtain ⟨only?, values, d, honly, hvalues, hd, rfl⟩ := walk_keep_eq_ok
        (ctx.pinnedValue?_of_definingId? (definingId?_of_not_standsForDice hstands)) he
      have hnone : onlyDie? s ctx items = .ok none :=
        onlyDie?_pinned hctx fun item hitem => (h.part hstands hitem).fixed
      rw [hnone] at honly
      cases honly
      refine Certain.keep (fun d hd => ?_) hd
      obtain ⟨item, hitem, e, he, rfl⟩ := exists_of_mem_walkAll hvalues hd
      exact hpart item hitem he
    | comparison relation left right =>
      obtain ⟨l, r, check, critical, hl, hr, hcompare, rfl⟩ := walk_comparison_any_eq_ok he
      have hcheck := (hpart left (by simp [parts]) hl).compare (hpart right (by simp [parts]) hr)
        hcompare
      exact hcheck
    | conditional condition ifTrue ifFalse =>
      obtain ⟨check, yes, no, hc, hy, hn, rfl⟩ := walk_conditional_pinned hpinned he
      have hyes := hpart ifTrue (by simp [parts]) hy
      have hno := hpart ifFalse (by simp [parts]) hn
      obtain ⟨hs, hf⟩ := nonneg_of_walk hc
      exact certain_ofBranches (hpart condition (by simp [parts]) hc) hs hf hyes hno
    | binary operation left right =>
      obtain ⟨l, r, d, part, hl, hr, hd, rfl⟩ := walk_binary_eq_ok he
      have hleft := hpart left (by simp [parts]) hl
      have hright := hpart right (by simp [parts]) hr
      rcases evaluationCombine_eq_ok hd with hd | ⟨_, hd⟩ | ⟨_, hd⟩
      · exact hleft.combine hright hd
      · exact hright.tryMap hd
      · exact hleft.tryMap hd
    | double inner =>
      obtain ⟨i, d, hi, rfl, hd⟩ := walk_double_eq_ok he
      have hinner := hpart inner (by simp [parts]) hi
      split at hd
      · obtain ⟨part, hd⟩ := hd
        exact hinner.tryMap hd
      · rw [hd]
        exact hinner
    | switch normal critical =>
      obtain ⟨i, hi, rfl⟩ := walk_switch_eq_ok he
      split at hi
      · have hcritical := hpart critical (by simp [parts]) hi
        exact hcritical
      · have hnormal := hpart normal (by simp [parts]) hi
        exact hnormal
    | only inner =>
      have he := walk_only_eq_ok he
      split at he
      · obtain ⟨i, hi, rfl⟩ := he
        have hinner := hpart inner (by simp [parts]) hi
        exact hinner
      · subst he
        exact certain_point 0
    | function name args =>
      obtain ⟨target, threshold, values, bound, clamped?, rfl, -, -, hclamped, he⟩ :=
        walk_function_any_eq_ok he
      cases clamped? with
      | some clamped =>
        obtain rfl : e = .plain clamped := he
        have htarget : target.Lowest pins := h.part hstands (by simp [parts])
        exact htarget.certain_clampEach hctx hfree hclamped
      | none =>
        obtain ⟨t, ht, rfl⟩ := he
        exact (hpart target (by simp [parts]) ht).map (name.clamp bound)
    | group inner =>
      rw [walk_group] at he
      exact hpart inner (by simp [parts]) he

end Node

/-! ## 4. The combination -/

/-- Every choice of values is a combination. -/
theorem mem_combinations_of_choice {ds : List (Distribution ℚ)} {k : ℕ} {pins : Pins} {weight : ℚ}
    {choice : List (Outcome × ℚ)} (h : choice ∈ (ds.map Distribution.toList).sections) :
    (pinsFrom k (choice.map Prod.fst) pins, weight * (choice.map Prod.snd).prod)
      ∈ combinations ((List.range' k ds.length).zip ds) pins weight := by
  induction ds generalizing k pins weight choice with
  | nil =>
    obtain rfl : choice = [] := by simpa using h
    exact List.mem_singleton.2 (by simp [pinsFrom])
  | cons d ds ih =>
    rw [List.map_cons, List.mem_sections] at h
    obtain ⟨p, rest, hp, hrest, rfl⟩ := List.forall₂_cons_right_iff.1 h
    refine List.mem_flatMap.2 ⟨p, hp, ?_⟩
    rw [List.map_cons, List.map_cons, List.prod_cons, ← mul_assoc, pinsFrom]
    exact ih (List.mem_sections.2 hrest)

/-- The lowest rolls of a group have a value, and at least one unit of its weight. -/
theorem Group.exists_isLowest {g : Group} {d : Distribution ℚ}
    (h : d.Counts (g.pool.rolls.map g.value?)) (hsides : g.pool.dice.sides ≠ 0) :
    ∃ p ∈ d.toList, g.IsLowest p.1 ∧ 1 ≤ p.2 := by
  obtain ⟨low, hlow⟩ := Pool.exists_isLowest hsides
  have hmem := List.mem_map_of_mem (f := g.value?) hlow.lowestRoll_mem
  cases hvalue : g.value? (g.pool.lowestRoll low) with
  | none => exact absurd (hvalue ▸ hmem) h.ne_none
  | some v =>
    rw [hvalue] at hmem
    have hone : 1 ≤ d.weightOf v := by
      rw [h.weightOf_eq v, Nat.one_le_cast]
      exact List.count_pos_iff.2 hmem
    exact ⟨(v, d.weightOf v), Distribution.mem_toList_of_weightOf (by linarith),
      ⟨low, hlow, hvalue⟩, hone⟩

theorem CountsGroups.exists_lowest {ds : List (Distribution ℚ)} {gs : List Group}
    (h : CountsGroups ds gs) (hsides : ∀ g ∈ gs, g.pool.dice.sides ≠ 0) :
    ∃ choice ∈ (ds.map Distribution.toList).sections,
      List.Forall₂ (fun (p : Outcome × ℚ) (g : Group) => g.IsLowest p.1) choice gs
        ∧ 1 ≤ (choice.map Prod.snd).prod := by
  induction h with
  | nil => exact ⟨[], by simp, .nil, by simp⟩
  | cons hd _ ih =>
    obtain ⟨hg, hgs⟩ := List.forall_mem_cons.1 hsides
    obtain ⟨p, hp, hlow, hone⟩ := Group.exists_isLowest hd hg
    obtain ⟨choice, hchoice, hall, hprod⟩ := ih hgs
    refine ⟨p :: choice, ?_, .cons hlow hall, ?_⟩
    · rw [List.map_cons, List.mem_sections]
      exact .cons hp (List.mem_sections.1 hchoice)
    · rw [List.map_cons, List.prod_cons]
      exact one_le_mul_of_one_le_of_one_le hone hprod

/-- **There is a combination in which all dice show the least**, and it has a unit of weight. -/
theorem Enumerates.exists_lowest {root : Node} {groups : List (DiceGroup ℚ)}
    (h : Enumerates groups root) :
    ∃ c ∈ combinations groups [] 1, 1 ≤ c.2 ∧ root.Lowest c.1 := by
  obtain ⟨ds, rfl, hds⟩ := h.counted
  obtain ⟨choice, hchoice, hall, hprod⟩ := hds.exists_lowest h.sides
  refine ⟨_, mem_combinations_of_choice hchoice, by rwa [one_mul], fun g hg => ?_, h.sides⟩
  obtain ⟨i, hi, rfl⟩ := List.mem_iff_getElem.1 hg
  have hlen : i < (choice.map Prod.fst).length := by
    rw [List.length_map, hall.length_eq]
    exact hi
  have hlow := hall.get (i := i) (hall.length_eq ▸ hi) hi
  refine ⟨i + 1, _, h.numbered.definingId?_getElem hi, lookup_group hlen, ?_⟩
  rw [List.getElem_map]
  exact hlow

/-! ## 5. What stays of it -/

namespace Distribution

/-- Some outcome has a unit of weight. -/
structure HasUnit (d : Distribution ℚ) : Prop where
  nonneg : d.Nonneg
  exists_unit : ∃ v, 1 ≤ d.weightOf v

variable {d sum : Distribution ℚ}

theorem Nonneg.addWeighted (h : sum.Nonneg) (d : Distribution ℚ) (w : ℚ) :
    (sum.addWeighted d w).Nonneg := by
  unfold Distribution.addWeighted
  dsimp only
  split
  · exact nonneg_addScaled h _ _
  · exact h

theorem weightOf_le_addWeighted (sum d : Distribution ℚ) (w : ℚ) (v : Outcome) :
    sum.weightOf v ≤ (sum.addWeighted d w).weightOf v := by
  unfold Distribution.addWeighted
  dsimp only
  split
  · refine foldl_invariant _ (fun out : Distribution ℚ => sum.weightOf v ≤ out.weightOf v) _ le_rfl
      fun out p _ hout => hout.trans ?_
    rw [weightOf_add]
    split
    · next hpos => exact le_add_of_nonneg_right hpos.1.le
    · exact le_rfl
  · exact le_rfl

theorem HasUnit.addWeighted (h : sum.HasUnit) (d : Distribution ℚ) (w : ℚ) :
    (sum.addWeighted d w).HasUnit := by
  obtain ⟨v, hv⟩ := h.exists_unit
  exact ⟨h.nonneg.addWeighted d w, v, hv.trans (weightOf_le_addWeighted sum d w v)⟩

/-- A single value gets the whole weight of its combination. -/
theorem Certain.hasUnit_addWeighted (hd : d.Certain) (hsum : sum.Nonneg) {w : ℚ} (hw : 1 ≤ w) :
    (sum.addWeighted d w).HasUnit := by
  obtain ⟨v, n, hn, hvalue⟩ := hd.exists_value
  have hpos : (0 : ℚ) < n := Nat.cast_pos.2 (Nat.pos_of_ne_zero hn)
  have htotal : d.total = n := by rw [total_eq_sumOver, hvalue, mul_one]
  have hweight : (sum.addWeighted d w).weightOf v = sum.weightOf v + w := by
    unfold Distribution.addWeighted
    dsimp only
    rw [htotal, if_pos hpos, weightOf_eq_sumOver,
      sumOver_addScaled hd.nonneg (div_nonneg (by linarith) hpos.le), hvalue, if_pos rfl,
      ← weightOf_eq_sumOver, mul_one, div_mul_cancel₀ _ hpos.ne']
  refine ⟨hsum.addWeighted d w, v, ?_⟩
  rw [hweight]
  exact hw.trans (le_add_of_nonneg_left (nonneg_iff.1 hsum v))

theorem HasUnit.total_rounded_pos (h : d.HasUnit) : 0 < d.rounded.total := by
  obtain ⟨v, hv⟩ := h.exists_unit
  exact h.nonneg.total_rounded_pos (le_trans (by norm_num) hv)

end Distribution

end DiceOdds
