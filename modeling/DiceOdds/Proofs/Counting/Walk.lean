import DiceOdds.Proofs.Counting.Group
import DiceOdds.Evaluation.Walk

/-!
# Evaluation counts rolls

The walk over a tree never looks at a roll.  Here it is compared with the values of the formula on
its rolls, one construct at a time: if the parts of a node count the rolls of their dice, the node
counts the rolls of all of them.

## Why a reading says which rolls are meant

A tree is evaluated in several readings: with all dice rolled, without critical faces, or with the
values of some dice fixed.  They differ only in the rolls that each literal may show and in the
weight with which a whole evaluation counts.  A `Reading` carries both, and the constructs that
combine independent parts are described once for all readings.  What remains are the leaves.
-/

namespace DiceOdds

/-! ## 1. What a successful step has done -/

theorem orBlame_eq_ok {α : Type} {x : Except Exceeded α} {part : Unit → String} {a : α} :
    orBlame x part = .ok a ↔ x = .ok a := by
  unfold orBlame
  cases x <;> simp

theorem Context.pinnedValue?_of_definingId? (ctx : Context) {node : Node}
    (h : node.definingId? = none) : ctx.pinnedValue? node = none := by
  unfold pinnedValue?
  rw [h]
  cases ctx.pinned <;> rfl

theorem Operation.apply_eq_ok {operation : Operation} {part : Unit → String} {a b c : Outcome}
    (h : operation.apply part a b = .ok c) : operation.value? a b = some c := by
  unfold apply at h
  dsimp only at h
  split at h
  · next value hvalue =>
    cases h
    cases operation <;> exact hvalue
  · split at h <;> cases h

theorem times_eq_ok {v c : Outcome} {n : ℕ} {error : EvalError}
    (h : (match v.times? n with
      | some twice => .ok twice
      | none => .error error) = Except.ok c) : v.times? n = some c := by
  split at h
  · next twice htwice =>
    cases h
    exact htwice
  · cases h

namespace Node

-- the equations are made here, once for everything that unfolds them
attribute [grind =] walk walkAll

section Steps

variable {W : Type} [Weight W] {s : Settings W} {split : SplitCheck W} {ctx : Context}
  {e : Evaluation W}

theorem walk_number_eq_ok {value : Float} (h : (number value).walk s split ctx = .ok e) :
    ∃ v, Outcome.ofWeight? value = some v ∧ e = .plain (.point v 1) := by
  rw [walk, ctx.pinnedValue?_of_definingId? rfl, bind_eq_ok] at h
  obtain ⟨d, hd, h⟩ := h
  obtain rfl := pure_eq_ok.1 h
  unfold numberValue at hd
  split at hd
  · next v hv =>
    cases hd
    exact ⟨v, hv, rfl⟩
  · cases hd

theorem walk_keep_eq_ok {kind : KeepKind} {count : UInt32} {items : List Node}
    (hid : ctx.pinnedValue? (keep kind count items) = none)
    (h : (keep kind count items).walk s split ctx = .ok e) :
    ∃ only? values d, onlyDie? s ctx items = .ok only?
      ∧ (match only? with
        | some (die, copies) => values = List.replicate copies die
        | none => walkAll s split items ctx = .ok values)
      ∧ Distribution.keep values count.toNat kind = .ok d ∧ e = .plain d := by
  rw [walk, hid] at h
  dsimp only at h
  obtain ⟨only?, honly, h⟩ := bind_eq_ok.1 h
  cases only? with
  | none =>
    obtain ⟨values, hvalues, h⟩ := bind_eq_ok.1 h
    obtain ⟨d, hd, h⟩ := bind_eq_ok.1 h
    exact ⟨none, values, d, honly, hvalues, orBlame_eq_ok.1 hd, (pure_eq_ok.1 h).symm⟩
  | some only =>
    obtain ⟨values, hvalues, h⟩ := bind_eq_ok.1 h
    obtain ⟨d, hd, h⟩ := bind_eq_ok.1 h
    exact ⟨some only, values, d, honly, (pure_eq_ok.1 hvalues).symm, orBlame_eq_ok.1 hd,
      (pure_eq_ok.1 h).symm⟩

/-- The items of a keep are evaluated one by one. -/
theorem walkAll_eq_ok {nodes : List Node} {ds : List (Distribution W)} :
    walkAll s split nodes ctx = .ok ds ↔ List.Forall₂
      (fun node d => ∃ e, node.walk s split ctx = .ok e ∧ e.distribution = d) nodes ds := by
  induction nodes generalizing ds with
  | nil => rw [walkAll, List.forall₂_nil_left_iff, Except.ok.injEq, eq_comm]
  | cons node rest ih =>
    rw [walkAll]
    simp only [bind_eq_ok, pure_eq_ok, ih]
    constructor
    · rintro ⟨first, hfirst, others, hothers, rfl⟩
      exact .cons ⟨first, hfirst, rfl⟩ hothers
    · rintro (_ | ⟨⟨first, hfirst, rfl⟩, hothers⟩)
      exact ⟨first, hfirst, _, hothers, rfl⟩

theorem exists_of_mem_walkAll {nodes : List Node} {ds : List (Distribution W)}
    {d : Distribution W} (h : walkAll s split nodes ctx = .ok ds) (hd : d ∈ ds) :
    ∃ node ∈ nodes, ∃ e, node.walk s split ctx = .ok e ∧ e.distribution = d := by
  have hall := walkAll_eq_ok.1 h
  clear h
  induction hall with
  | nil => cases hd
  | cons hfirst _ ih =>
    rcases List.mem_cons.1 hd with rfl | hd
    · exact ⟨_, List.mem_cons_self .., hfirst⟩
    · obtain ⟨node, hnode, hwalk⟩ := ih hd
      exact ⟨node, List.mem_cons_of_mem _ hnode, hwalk⟩

theorem walk_binary_eq_ok {operation : Operation} {left right : Node}
    (h : (binary operation left right).walk s split ctx = .ok e) :
    ∃ l r d part, left.walk s split ctx = .ok l ∧ right.walk s split ctx = .ok r
      ∧ l.combine operation r part = .ok d ∧ e = .plain d := by
  rw [walk, ctx.pinnedValue?_of_definingId? rfl] at h
  simp only [bind_eq_ok, pure_eq_ok] at h
  obtain ⟨l, hl, r, hr, d, hd, rfl⟩ := h
  exact ⟨l, r, d, _, hl, hr, hd, rfl⟩

theorem walk_dice_eq_ok {d : Dice} {id : Option ℕ} {modifier : Option Modifier}
    (hid : ctx.pinnedValue? (dice d id modifier) = none)
    (h : (dice d id modifier).walk s split ctx = .ok e) :
    ∃ x, s.roll ctx (dice d id modifier) = .ok x ∧ e = .plain x := by
  rw [walk, hid] at h
  obtain ⟨x, hx, h⟩ := bind_eq_ok.1 h
  exact ⟨x, hx, (pure_eq_ok.1 h).symm⟩

theorem walk_reference_eq_ok {id : UInt32} {critical : Bool}
    (h : (reference id critical).walk s split ctx = .ok e) :
    ∃ x, s.reference ctx id critical = .ok x ∧ e = .plain x := by
  rw [walk, ctx.pinnedValue?_of_definingId? rfl] at h
  obtain ⟨x, hx, h⟩ := bind_eq_ok.1 h
  exact ⟨x, hx, (pure_eq_ok.1 h).symm⟩

theorem walk_double_eq_ok {inner : Node} (h : (double inner).walk s split ctx = .ok e) :
    ∃ i d, inner.walk s split ctx = .ok i ∧ e = .plain d
      ∧ if ctx.criticalBranch then ∃ part, i.distribution.doubled part = .ok d
        else d = i.distribution := by
  rw [walk, ctx.pinnedValue?_of_definingId? rfl] at h
  obtain ⟨i, hi, h⟩ := bind_eq_ok.1 h
  split at h
  · next hcritical =>
    obtain ⟨d, hd, h⟩ := bind_eq_ok.1 h
    exact ⟨i, d, hi, (pure_eq_ok.1 h).symm, by rw [if_pos hcritical]; exact ⟨_, hd⟩⟩
  · next hcritical =>
    exact ⟨i, _, hi, (pure_eq_ok.1 h).symm, by rw [if_neg hcritical]⟩

theorem walk_switch_eq_ok {normal critical : Node}
    (h : (switch normal critical).walk s split ctx = .ok e) :
    ∃ i, (if ctx.criticalBranch then critical else normal).walk s split ctx = .ok i
      ∧ e = .plain i.distribution := by
  rw [walk, ctx.pinnedValue?_of_definingId? rfl] at h
  dsimp only at h
  split at h
  · next hcritical =>
    obtain ⟨i, hi, h⟩ := bind_eq_ok.1 h
    exact ⟨i, by rw [if_pos hcritical]; exact hi, (pure_eq_ok.1 h).symm⟩
  · next hcritical =>
    obtain ⟨i, hi, h⟩ := bind_eq_ok.1 h
    exact ⟨i, by rw [if_neg hcritical]; exact hi, (pure_eq_ok.1 h).symm⟩

theorem walk_only_eq_ok {inner : Node} (h : (only inner).walk s split ctx = .ok e) :
    if ctx.criticalBranch then ∃ i, inner.walk s split ctx = .ok i ∧ e = .plain i.distribution
    else e = .plain (.point 0 1) := by
  rw [walk, ctx.pinnedValue?_of_definingId? rfl] at h
  dsimp only at h
  split at h
  · next hcritical =>
    obtain ⟨i, hi, h⟩ := bind_eq_ok.1 h
    rw [if_pos hcritical]
    exact ⟨i, hi, (pure_eq_ok.1 h).symm⟩
  · next hcritical =>
    rw [if_neg hcritical]
    exact (pure_eq_ok.1 h).symm

/-- A function with any threshold that is a single value. -/
theorem walk_function_any_eq_ok {name : FunctionName} {args : List Node}
    (h : (function name args).walk s split ctx = .ok e) :
    ∃ target threshold values bound clamped?, args = [target, threshold]
      ∧ threshold.walk s split ctx = .ok values ∧ values.distribution.point? = some bound
      ∧ s.clampEach ctx name target bound = .ok clamped?
      ∧ match clamped? with
        | some clamped => e = .plain clamped
        | none => ∃ t, target.walk s split ctx = .ok t
            ∧ e = .plain (t.distribution.clamp name bound) := by
  match args, h with
  | [target, threshold], h =>
    rw [walk, ctx.pinnedValue?_of_definingId? rfl] at h
    dsimp only at h
    simp only [bind_eq_ok] at h
    obtain ⟨values, hvalues, bound, hbound, clamped?, hclamped, h⟩ := h
    have hpoint : values.distribution.point? = some bound := by
      unfold constantThreshold at hbound
      split at hbound
      · next v hv =>
        cases hbound
        exact hv
      · cases hbound
    refine ⟨target, threshold, values, bound, clamped?, rfl, hvalues, hpoint, hclamped, ?_⟩
    cases clamped? with
    | none =>
      obtain ⟨t, ht, h⟩ := bind_eq_ok.1 h
      exact ⟨t, ht, (pure_eq_ok.1 h).symm⟩
    | some clamped => exact (pure_eq_ok.1 h).symm
  | [], h | [_], h | _ :: _ :: _ :: _, h =>
    rw [walk, ctx.pinnedValue?_of_definingId? rfl] at h
    · cases h
    · simp

theorem walk_comparison_eq_ok {relation : Relation} {left right : Node}
    (h : (comparison relation left right).walk s split ctx = .ok e) :
    ∃ l r check, left.walk s split ctx = .ok l ∧ right.walk s split ctx = .ok r
      ∧ Check.compare relation l.distribution r.distribution = .ok check
      ∧ if s.rate.isSome && ctx.pinned.isNone && !ctx.restrictCritical then
          ∃ critical, split relation left right ctx check = .ok critical
            ∧ e = .check { check with critical }
        else e = .check check := by
  rw [walk, ctx.pinnedValue?_of_definingId? rfl] at h
  dsimp only at h
  obtain ⟨l, hl, h⟩ := bind_eq_ok.1 h
  obtain ⟨r, hr, h⟩ := bind_eq_ok.1 h
  obtain ⟨check, hcheck, h⟩ := bind_eq_ok.1 h
  refine ⟨l, r, check, hl, hr, orBlame_eq_ok.1 hcheck, ?_⟩
  split at h
  · next hsplit =>
    rw [if_pos hsplit]
    obtain ⟨critical, hcritical, h⟩ := bind_eq_ok.1 h
    exact ⟨critical, hcritical, (pure_eq_ok.1 h).symm⟩
  · next hsplit =>
    rw [if_neg hsplit]
    exact (pure_eq_ok.1 h).symm

/-- However a check is split, its answers are those of the comparison. -/
theorem walk_comparison_any_eq_ok {relation : Relation} {left right : Node}
    (h : (comparison relation left right).walk s split ctx = .ok e) :
    ∃ l r check critical, left.walk s split ctx = .ok l ∧ right.walk s split ctx = .ok r
      ∧ Check.compare relation l.distribution r.distribution = .ok check
      ∧ e = .check { check with critical } := by
  obtain ⟨l, r, check, hl, hr, hcheck, h⟩ := walk_comparison_eq_ok h
  split at h
  · obtain ⟨critical, -, rfl⟩ := h
    exact ⟨l, r, check, critical, hl, hr, hcheck, rfl⟩
  · exact ⟨l, r, check, check.critical, hl, hr, hcheck, h⟩

theorem walk_conditional_eq_ok {condition ifTrue ifFalse : Node}
    (h : (conditional condition ifTrue ifFalse).walk s split ctx = .ok e) :
    ∃ check, condition.walk s split ctx = .ok (.check check)
      ∧ ((∃ shares normalHit criticalHit miss, check.critical = some shares
          ∧ ifTrue.walk s split (ctx.critical false) = .ok normalHit
          ∧ ifTrue.walk s split (ctx.critical true) = .ok criticalHit
          ∧ ifFalse.walk s split ctx = .ok miss
          ∧ e = .critical
            (.ofBranches s.mixing condition.text check shares normalHit criticalHit miss))
        ∨ ∃ yes no, check.critical = none ∧ ifTrue.walk s split ctx = .ok yes
          ∧ ifFalse.walk s split ctx = .ok no
          ∧ e = .conditional (.ofBranches s.mixing condition.text check yes no)) := by
  rw [walk, ctx.pinnedValue?_of_definingId? rfl] at h
  dsimp only at h
  split at h
  · obtain ⟨c, hc, h⟩ := bind_eq_ok.1 h
    cases c with
    | check check =>
      refine ⟨check, hc, ?_⟩
      dsimp only at h
      cases hcritical : check.critical with
      | some shares =>
        rw [hcritical] at h
        simp only [bind_eq_ok, pure_eq_ok] at h
        obtain ⟨normalHit, hn, criticalHit, hcrit, miss, hm, rfl⟩ := h
        exact .inl ⟨shares, normalHit, criticalHit, miss, rfl, hn, hcrit, hm, rfl⟩
      | none =>
        rw [hcritical] at h
        simp only [bind_eq_ok, pure_eq_ok] at h
        obtain ⟨yes, hyes, no, hno, rfl⟩ := h
        exact .inr ⟨yes, no, rfl, hyes, hno, rfl⟩
    | _ => cases h
  · cases h

theorem walk_group (inner : Node) :
    (group inner).walk s split ctx = inner.walk s split ctx := by
  rw [walk, ctx.pinnedValue?_of_definingId? rfl]

end Steps

variable {s : Settings ℚ} {split : SplitCheck ℚ} {ctx : Context} {e : Evaluation ℚ}

/-- Two values without a check in them are combined as independent values. -/
theorem combine_plain_eq_ok {operation : Operation} {x y d : Distribution ℚ} {part : Unit → String}
    (h : Evaluation.combine operation (.plain x) (.plain y) part = .ok d) :
    x.combine y (operation.apply part) = .ok d := by
  have hplain : Evaluation.combine operation (.plain x) (.plain y) part
      = x.combine y (operation.apply part) >>= fun values => orBlame values.checkWeights part := by
    cases operation <;> rfl
  rw [hplain, bind_eq_ok] at h
  obtain ⟨values, hvalues, h⟩ := h
  obtain rfl : values = d := by simpa using orBlame_eq_ok.1 h
  exact hvalues

theorem walk_function_eq_ok {name : FunctionName} {target : Node} {bound : Float}
    (h : (function name [target, number bound]).walk s split ctx = .ok e) :
    ∃ threshold clamped?, Outcome.ofWeight? bound = some threshold
      ∧ s.clampEach ctx name target threshold = .ok clamped?
      ∧ match clamped? with
        | some clamped => e = .plain clamped
        | none => ∃ t, target.walk s split ctx = .ok t
            ∧ e = .plain (t.distribution.clamp name threshold) := by
  obtain ⟨_, _, values, threshold, clamped?, hargs, hvalues, hthreshold, hclamped, h⟩ :=
    walk_function_any_eq_ok h
  cases hargs
  obtain ⟨v, hv, rfl⟩ := walk_number_eq_ok hvalues
  rw [Evaluation.distribution, Distribution.point?_point] at hthreshold
  cases hthreshold
  exact ⟨threshold, clamped?, hv, hclamped, by cases clamped? <;> exact h⟩

/-! ## 2. Nodes that are no dice in parentheses -/

theorem die?_of_strippedPool?_eq_none {W : Type} [Weight W] {s : Settings W} {node : Node}
    (h : node.strippedPool? = none) : node.die? s ctx = .ok none := by
  induction node using stripGroups.induct with
  | case1 inner ih => exact ih h
  | case2 node hnode =>
    rw [strippedPool?, stripGroups] at h
    · cases node with
      | dice d id modifier => cases h
      | group inner => exact absurd rfl (hnode inner)
      | _ => rfl
    · exact hnode

theorem onlyDie?_of_onlyPool?_eq_none {items : List Node} (h : onlyPool? items = none) :
    onlyDie? s ctx items = .ok none := by
  match items with
  | [] => rfl
  | [item] => exact die?_of_strippedPool?_eq_none h
  | _ :: _ :: _ => rfl

theorem clampPinned_of_strippedPool?_eq_none {W : Type} [Weight W] {s : Settings W}
    {name : FunctionName} {target : Node} {threshold : Outcome}
    (h : target.strippedPool? = none) : s.clampPinned ctx name target threshold = .ok none := by
  unfold Settings.clampPinned
  cases ctx.pinnedValue? target with
  | none => rfl
  | some total =>
    dsimp only
    rw [die?_of_strippedPool?_eq_none h]
    rfl

theorem clampEach_of_eachPool?_eq_none {name : FunctionName} {target : Node} {threshold : Outcome}
    {clamped? : Option (Distribution ℚ)} (h : eachPool? name target = none)
    (hc : s.clampEach ctx name target threshold = .ok clamped?) : clamped? = none := by
  unfold eachPool? at h
  unfold Settings.clampEach at hc
  split at hc
  · next hname =>
    rw [if_pos hname] at h
    rw [clampPinned_of_strippedPool?_eq_none h, die?_of_strippedPool?_eq_none h] at hc
    exact (pure_eq_ok.1 hc).symm
  · cases hc
    rfl

end Node

/-! ## 3. Independent parts -/

section Parts

variable {x y d : Distribution ℚ} {ds : List (Distribution ℚ)} {us vs : List (Option Outcome)}
  {c c' : ℚ}

/-- An operation on two independent values, each of which is counted in some unit. -/
theorem sum_operation {operation : Operation} {part : Unit → String} (hxn : x.Nonneg)
    (hyn : y.Nonneg)
    (hx : ∀ g : Option Outcome → ℚ, (us.map g).sum = c * x.sumOver fun v => g (some v))
    (hy : ∀ g : Option Outcome → ℚ, (vs.map g).sum = c' * y.sumOver fun v => g (some v))
    (hd : x.combine y (operation.apply part) = .ok d) (g : Option Outcome → ℚ) :
    (us.map fun oa => (vs.map fun ob =>
        g (oa.bind fun a => ob.bind fun b => operation.value? a b)).sum).sum
      = c * c' * d.sumOver fun v => g (some v) := by
  rw [Distribution.sumOver_combine (g := fun v => g (some v))
    (f := fun a b => g (operation.value? a b))
    (fun a b v hv => by rw [Operation.apply_eq_ok hv]) hxn hyn hd]
  -- the values of the right side, with the left side held fixed
  have hright : ∀ oa : Option Outcome,
      (vs.map fun ob => g (oa.bind fun a => ob.bind fun b => operation.value? a b)).sum
        = c' * y.sumOver fun b => g (oa.bind fun a => operation.value? a b) :=
    fun oa => hy fun ob => g (oa.bind fun a => ob.bind fun b => operation.value? a b)
  simp only [hright]
  rw [hx fun oa => c' * y.sumOver fun b => g (oa.bind fun a => operation.value? a b),
    Distribution.sumOver_mul, mul_assoc]
  rfl

/-- A value in front of a list of values, each counted in some unit. -/
theorem sum_values {vss : List (Option (List Outcome))}
    (hd : ∀ g : Option Outcome → ℚ, (us.map g).sum = c * d.sumOver fun v => g (some v))
    (hds : ∀ g : Option (List Outcome) → ℚ,
      (vss.map g).sum = c' * Distribution.sumOverAll ds fun vs => g (some vs))
    (g : Option (List Outcome) → ℚ) :
    (us.map fun ov => (vss.map fun ovs => g (ov.bind fun v => ovs.map (v :: ·))).sum).sum
      = c * c' * Distribution.sumOverAll (d :: ds) fun vs => g (some vs) := by
  have hothers : ∀ ov : Option Outcome,
      (vss.map fun ovs => g (ov.bind fun v => ovs.map (v :: ·))).sum
        = c' * Distribution.sumOverAll ds fun vs => g (ov.map (· :: vs)) := by
    intro ov
    rw [hds fun ovs => g (ov.bind fun v => ovs.map (v :: ·))]
    cases ov <;> rfl
  simp only [hothers]
  rw [hd fun ov => c' * Distribution.sumOverAll ds fun vs => g (ov.map (· :: vs)),
    Distribution.sumOver_mul, mul_assoc]
  rfl

end Parts

/-! ## 4. Readings -/

/-- One way to evaluate formulas, and the rolls that it goes through. -/
structure Reading where
  settings : Settings ℚ
  split : SplitCheck ℚ
  ctx : Context
  /-- The values of references. -/
  given : ℕ → Option Outcome
  /-- The rolls that the dice of a group may show. -/
  admitted : Group → List PoolRoll
  /-- How many rolls one unit of weight may stand for. -/
  units : Submonoid ℚ

namespace Reading

variable {r : Reading}

/-- The rolls of a formula, one admitted roll for each group. -/
def rolls (r : Reading) (node : Node) : List Roll := (node.groups.map r.admitted).sections

/-- The rolls of a list of formulas. -/
def rollsAll (r : Reading) (nodes : List Node) : List Roll :=
  ((Node.groupsAll nodes).map r.admitted).sections

/-- A distribution that gives each value of a formula as often as there are rolls with it, in some
unit of weight. -/
structure Counted (r : Reading) (node : Node) (d : Distribution ℚ) : Prop where
  nonneg : d.Nonneg
  exists_unit : ∃ c ∈ r.units, ∀ g : Option Outcome → ℚ,
    ((r.rolls node).map fun roll => g (node.valueOn r.given roll)).sum
      = c * d.sumOver fun v => g (some v)

theorem Counted.exists_sum_eq {node : Node} {d : Distribution ℚ} (h : r.Counted node d) :
    ∃ c ∈ r.units, ∀ g : Option Outcome → ℚ,
      (((r.rolls node).map (node.valueOn r.given)).map g).sum
        = c * d.sumOver fun v => g (some v) := by
  obtain ⟨c, hc, hsum⟩ := h.exists_unit
  refine ⟨c, hc, fun g => ?_⟩
  rw [List.map_map]
  exact hsum g

/-- An evaluation that succeeds counts the rolls of the formula. -/
def Sound (r : Reading) (node : Node) : Prop :=
  ∀ e, node.walk r.settings r.split r.ctx = .ok e → ∃ d, e = .plain d ∧ r.Counted node d

theorem length_of_mem_rolls {node : Node} {roll : Roll} (h : roll ∈ r.rolls node) :
    roll.length = node.pools.length := by
  rw [List.mem_sections_length h, List.length_map, ← node.groups_pools, List.length_map]

/-! ## 5. Numbers, operations and parentheses -/

theorem sound_number (value : Float) : r.Sound (.number value) := by
  intro e he
  obtain ⟨v, hv, rfl⟩ := Node.walk_number_eq_ok he
  refine ⟨_, rfl, Distribution.nonneg_point v, 1, r.units.one_mem, fun g => ?_⟩
  rw [Distribution.sumOver_point, rolls, Node.groups]
  simp [Node.valueOn, hv]

/-- The roll of an operation is the roll of its left side, followed by that of its right side. -/
theorem valueOn_binary_append (operation : Operation) {left right : Node}
    {given : ℕ → Option Outcome} {s t : Roll} (hs : s.length = left.pools.length) :
    (Node.binary operation left right).valueOn given (s ++ t)
      = (left.valueOn given s).bind fun a =>
          (right.valueOn given t).bind fun b => operation.value? a b := by
  rw [Node.valueOn, ← hs, List.take_left, List.drop_left]

theorem sound_binary (operation : Operation) {left right : Node} (hl : r.Sound left)
    (hr : r.Sound right) : r.Sound (.binary operation left right) := by
  intro e he
  obtain ⟨el, er, d, part, hel, her, hd, rfl⟩ := Node.walk_binary_eq_ok he
  obtain ⟨x, rfl, hx⟩ := hl el hel
  obtain ⟨y, rfl, hy⟩ := hr er her
  obtain ⟨c, hc, hxc⟩ := hx.exists_sum_eq
  obtain ⟨c', hc', hyc⟩ := hy.exists_sum_eq
  have hcombine := Node.combine_plain_eq_ok hd
  refine ⟨d, rfl, Distribution.nonneg_combine hcombine, c * c', r.units.mul_mem hc hc', fun g => ?_⟩
  rw [← sum_operation hx.nonneg hy.nonneg hxc hyc hcombine g, List.map_map, rolls, Node.groups,
    List.map_append, sum_sections_append]
  refine congrArg List.sum (List.map_congr_left fun s hs => ?_)
  rw [Function.comp_apply, List.map_map]
  refine congrArg List.sum (List.map_congr_left fun t _ => ?_)
  rw [valueOn_binary_append operation (length_of_mem_rolls hs)]
  rfl

theorem sound_group {inner : Node} (h : r.Sound inner) : r.Sound (.group inner) := by
  intro e he
  rw [Node.walk_group] at he
  obtain ⟨d, hd, hn, c, hc, hsum⟩ := h e he
  refine ⟨d, hd, hn, c, hc, fun g => ?_⟩
  rw [← hsum g, rolls, Node.groups]
  simp only [Node.valueOn]
  rfl

/-! ## 6. Keeping from several values -/

/-- The values of a list of nodes, from one roll for each of them. -/
theorem sound_all {items : List Node} (h : ∀ item ∈ items, r.Sound item)
    {ds : List (Distribution ℚ)} (hds : Node.walkAll r.settings r.split items r.ctx = .ok ds) :
    (∀ d ∈ ds, d.Nonneg) ∧ ∃ c ∈ r.units, ∀ g : Option (List Outcome) → ℚ,
      ((r.rollsAll items).map fun roll => g (Node.valuesOn r.given items roll)).sum
        = c * Distribution.sumOverAll ds fun vs => g (some vs) := by
  induction items generalizing ds with
  | nil =>
    rw [Node.walkAll] at hds
    cases hds
    refine ⟨by simp, 1, r.units.one_mem, fun g => ?_⟩
    simp [rollsAll, Node.groupsAll, Node.valuesOn, Distribution.sumOverAll]
  | cons node rest ih =>
    rw [Node.walkAll] at hds
    simp only [bind_eq_ok, pure_eq_ok] at hds
    obtain ⟨first, hfirst, others, hothers, rfl⟩ := hds
    obtain ⟨d, rfl, hd⟩ := h node (List.mem_cons_self ..) first hfirst
    obtain ⟨c, hc, hdc⟩ := hd.exists_sum_eq
    obtain ⟨hn, c', hc', hrest⟩ := ih (fun item hi => h item (List.mem_cons_of_mem _ hi)) hothers
    refine ⟨?_, c * c', r.units.mul_mem hc hc', fun g => ?_⟩
    · intro d' hd'
      rcases List.mem_cons.1 hd' with rfl | hd'
      · exact hd.nonneg
      · exact hn d' hd'
    have hothers : ∀ g : Option (List Outcome) → ℚ,
        (((r.rollsAll rest).map (Node.valuesOn r.given rest)).map g).sum
          = c' * Distribution.sumOverAll others fun vs => g (some vs) := by
      intro g
      rw [List.map_map]
      exact hrest g
    rw [Evaluation.distribution, ← sum_values hdc hothers g, List.map_map, rollsAll,
      Node.groupsAll, List.map_append, sum_sections_append]
    refine congrArg List.sum (List.map_congr_left fun s hs => ?_)
    rw [Function.comp_apply, List.map_map]
    refine congrArg List.sum (List.map_congr_left fun t _ => ?_)
    rw [Node.valuesOn, ← length_of_mem_rolls hs, List.take_left, List.drop_left]
    rfl

theorem sound_keep (kind : KeepKind) (count : UInt32) {items : List Node}
    (honly : Node.onlyPool? items = none) (h : ∀ item ∈ items, r.Sound item) :
    r.Sound (.keep kind count items) := by
  intro e he
  obtain ⟨only?, values, d, hdie, hvalues, hd, rfl⟩ :=
    Node.walk_keep_eq_ok
      (r.ctx.pinnedValue?_of_definingId?
        (Node.definingId?_keep (Node.literalItem?_of_onlyPool? honly))) he
  rw [Node.onlyDie?_of_onlyPool?_eq_none honly] at hdie
  cases hdie
  obtain ⟨hn, c, hc, hsum⟩ := sound_all h hvalues
  refine ⟨d, rfl, Distribution.nonneg_keep hn hd, c, hc, fun g => ?_⟩
  have hkeep := Distribution.sumOver_keep hn hd fun m => g (Outcome.ofHundredths? m)
  simp only [Outcome.ofHundredths?_hundredths] at hkeep
  rw [hkeep, rolls, Node.groups, Node.literalItem?_of_onlyPool? honly]
  simp only [Node.valueOn, honly]
  exact hsum fun ovs => g (ovs.bind (kind.sum? count.toNat))

/-! ## 7. Limits on whole values -/

theorem sound_function (name : FunctionName) {target : Node} (bound : Float)
    (heach : Node.eachPool? name target = none) (h : r.Sound target) :
    r.Sound (.function name [target, .number bound]) := by
  intro e he
  obtain ⟨threshold, clamped?, hbound, hclamped, he⟩ := Node.walk_function_eq_ok he
  obtain rfl := Node.clampEach_of_eachPool?_eq_none heach hclamped
  obtain ⟨t, ht, rfl⟩ := he
  obtain ⟨d, rfl, hd⟩ := h t ht
  obtain ⟨c, hc, hsum⟩ := hd.exists_unit
  refine ⟨_, rfl, Distribution.nonneg_map d _, c, hc, fun g => ?_⟩
  rw [Distribution.clamp, Evaluation.distribution, Distribution.sumOver_map hd.nonneg]
  have hrolls : r.rolls (.function name [target, .number bound]) = r.rolls target := by
    rw [rolls, rolls, Node.groups]
    simp [Node.groupsAll, Node.groups]
  rw [hrolls]
  simp only [Node.valueOn, hbound, heach, Option.bind_some]
  exact hsum fun o => g (o.map (name.clamp threshold))

/-! ## 8. Whole formulas -/

/-- **If the leaves count their rolls, so does the formula.** -/
theorem sound_of_leaves (leaf : Node → Prop) {node : Node} (h : node.Built leaf)
    (hleaf : ∀ n, leaf n → r.Sound n) : r.Sound node := by
  induction h with
  | leaf h => exact hleaf _ h
  | number value => exact sound_number value
  | keep kind count honly _ ih => exact sound_keep kind count honly ih
  | binary operation _ _ ihl ihr => exact sound_binary operation ihl ihr
  | function name bound heach _ ih => exact sound_function name bound heach ih
  | group _ ih => exact sound_group ih

end Reading

end DiceOdds
