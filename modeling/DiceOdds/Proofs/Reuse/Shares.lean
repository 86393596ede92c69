import DiceOdds.Proofs.Mixing.Divides
import DiceOdds.Proofs.Reuse.Values

/-!
# Fixed values and the rolls that they leave open

With the values of all groups fixed, a formula is evaluated over the rolls that it still tells
apart.  Their number divides the number of all rolls with these values, so whatever comes out can be
scaled to the weight of its combination.

## Why only limits on single dice leave rolls open

A literal with a fixed value is that value, whichever roll it comes from.  A limit on each of its
dice looks at the roll itself, and goes through all rolls with the fixed total (`openRolls`).  So a
part of a formula without such a limit has a single value, and a conditional in it takes one of its
branches for certain.
-/

namespace DiceOdds

/-! ## 1. Open rolls -/

/-- The number of rolls of a group with its fixed value. -/
def Group.share (pins : Pins) (g : Group) : ℕ :=
  (g.rollsWith (g.node.definingId?.bind fun id => pins.lookup id)).length

namespace Node

/-- The number of rolls that a node itself goes through: those of a literal with its fixed total, if
each of the dice is limited. -/
def openRolls (pins : Pins) : Node → ℕ
  | function name [target, _] => match target.pool? with
    | some p => if name.perDie then Group.share pins ⟨target, p⟩ else 1
    | none => 1
  | _ => 1

/-- The number of rolls that a node goes through with all of its parts. -/
def spread (pins : Pins) (node : Node) : ℕ := (node.subterms.map (openRolls pins)).prod

variable {pins : Pins}

theorem spread_eq_parts (node : Node) :
    node.spread pins = node.openRolls pins * (node.parts.map (spread pins)).prod := by
  have hall : ∀ nodes : List Node,
      ((subtermsAll nodes).map (openRolls pins)).prod = (nodes.map (spread pins)).prod := by
    intro nodes
    induction nodes with
    | nil => rfl
    | cons node rest ih =>
      rw [subtermsAll, List.map_append, List.prod_append, ih, List.map_cons, List.prod_cons]
      rfl
  rw [spread, subterms_eq_parts, List.map_cons, List.prod_cons, hall]

/-- Only a limit on each die of a literal goes through rolls. -/
theorem openRolls_eq_one_or (pins : Pins) (node : Node) : node.openRolls pins = 1
    ∨ ∃ name d id modifier threshold, node = function name [dice d id modifier, threshold]
      ∧ node.limitsDice = true
      ∧ node.openRolls pins = Group.share pins ⟨dice d id modifier, ⟨d, modifier⟩⟩ := by
  unfold openRolls
  split
  · next name target threshold =>
    split
    · next p hp =>
      obtain ⟨id, htarget⟩ : ∃ id, [target] = [dice p.dice id p.modifier] :=
        eq_of_literalItem? hp
      obtain rfl := (List.cons.inj htarget).1
      split
      · next hname =>
        have hlimits : (eachPool? name (dice p.dice id p.modifier)).isSome = true :=
          Option.isSome_iff_exists.2 ⟨p, eachPool?_eq_some.2 ⟨hname, rfl⟩⟩
        exact .inr ⟨name, p.dice, id, p.modifier, threshold, rfl, hlimits, rfl⟩
      · exact .inl rfl
    · exact .inl rfl
  · exact .inl rfl

theorem openRolls_of_limitsDice {node : Node} (h : node.limitsDice = false) :
    node.openRolls pins = 1 := by
  rcases node.openRolls_eq_one_or pins with hone | ⟨_, _, _, _, _, -, hlimits, -⟩
  · exact hone
  · rw [h] at hlimits
    cases hlimits

/-- Without a limit on single dice there is nothing left open. -/
theorem spread_of_limitsDice {node : Node} (h : ∀ n ∈ node.subterms, n.limitsDice = false) :
    node.spread pins = 1 :=
  List.prod_eq_one fun k hk => by
    obtain ⟨n, hn, rfl⟩ := List.mem_map.1 hk
    exact openRolls_of_limitsDice (h n hn)

theorem spread_of_standsForDice {node : Node} (h : node.standsForDice = true) :
    node.spread pins = 1 := by
  refine spread_of_limitsDice fun n hn => ?_
  cases node with
  | dice d id modifier =>
    obtain rfl := List.mem_singleton.1 hn
    rfl
  | keep kind count items =>
    obtain ⟨p, hp⟩ := Option.isSome_iff_exists.1 h
    obtain ⟨id, rfl⟩ := eq_of_literalItem? hp
    simp only [subterms, subtermsAll, List.append_nil, List.mem_cons, List.not_mem_nil,
      or_false] at hn
    rcases hn with rfl | rfl
    · rfl
    · rfl
  | _ => cases h

theorem prod_share_groupsAll (nodes : List Node) :
    ((groupsAll nodes).map (Group.share pins)).prod
      = (nodes.map fun node => (node.groups.map (Group.share pins)).prod).prod := by
  induction nodes with
  | nil => rfl
  | cons node rest ih =>
    rw [groupsAll, List.map_append, List.prod_append, ih, List.map_cons, List.prod_cons]

/-- **The open rolls are a part of the rolls with the fixed values.** -/
theorem spread_dvd (node : Node) :
    node.spread pins ∣ (node.groups.map (Group.share pins)).prod := by
  induction node using parts_induction with
  | h node ih =>
  cases hstands : node.standsForDice with
  | true => exact spread_of_standsForDice hstands ▸ one_dvd _
  | false =>
    rw [spread_eq_parts, groups_eq_parts hstands, prod_share_groupsAll]
    have hparts : (node.parts.map (spread pins)).prod
        ∣ (node.parts.map fun part => (part.groups.map (Group.share pins)).prod).prod :=
      Multiset.prod_dvd_prod_of_dvd (S := (node.parts : Multiset Node)) _ _ ih
    rcases node.openRolls_eq_one_or pins with
      hone | ⟨name, d, id, modifier, threshold, rfl, -, hshare⟩
    · rwa [hone, one_mul]
    · -- what the limit leaves open are rolls of the literal, which has no open rolls itself
      have hthreshold := ih threshold (by simp [parts])
      have hone : (dice d id modifier).spread pins = 1 := spread_of_standsForDice rfl
      rw [hshare]
      simp only [parts, List.map_cons, List.map_nil, List.prod_cons, List.prod_nil, mul_one, hone,
        one_mul, groups]
      exact mul_dvd_mul_left _ hthreshold

/-! ## 2. What a reading with fixed values needs -/

variable {s : Settings ℚ} {split : SplitCheck ℚ} {ctx : Context}

/-- All dice of a node have a fixed value, and no conditional in it that goes through open rolls
loses or gains weight by rounding. -/
structure Settled (s : Settings ℚ) (split : SplitCheck ℚ) (ctx : Context) (pins : Pins)
    (node : Node) : Prop where
  fixed : ∀ g ∈ node.groups, g.FixedBy pins
  sides : ∀ g ∈ node.groups, g.pool.dice.sides ≠ 0
  kept : ∀ condition ifTrue ifFalse, conditional condition ifTrue ifFalse ∈ node.subterms →
    (conditional condition ifTrue ifFalse).spread pins ≠ 1 → ∀ r,
    (conditional condition ifTrue ifFalse).walk s split ctx = .ok (.conditional r) →
    r.KeepsTotal s.mixing

theorem Settled.part {node part : Node} (h : node.Settled s split ctx pins)
    (hstands : node.standsForDice = false) (hpart : part ∈ node.parts) :
    part.Settled s split ctx pins := by
  have hgroups : ∀ g ∈ part.groups, g ∈ node.groups := by
    intro g hg
    rw [groups_eq_parts hstands]
    exact mem_groupsAll.2 ⟨part, hpart, hg⟩
  refine ⟨fun g hg => h.fixed g (hgroups g hg), fun g hg => h.sides g (hgroups g hg),
    fun condition ifTrue ifFalse hn => h.kept condition ifTrue ifFalse
      (subterms_subset_of_mem_parts hpart hn)⟩

/-- A literal with a fixed value shows no single dice. -/
theorem die?_pinned (hctx : ctx.pinned = some pins) {node : Node}
    (hfix : ∀ g ∈ node.groups, g.FixedBy pins) : node.die? s ctx = .ok none := by
  induction node using stripGroups.induct with
  | case1 inner ih => exact ih hfix
  | case2 node hnode =>
    cases node with
    | dice d id modifier =>
      obtain ⟨i, v, hid, -, -⟩ := hfix _ (List.mem_singleton_self _)
      obtain rfl : id = some i := hid
      rw [die?, hctx]
      rfl
    | group inner => exact absurd rfl (hnode inner)
    | _ => rfl

theorem onlyDie?_pinned (hctx : ctx.pinned = some pins) {items : List Node}
    (hfix : ∀ item ∈ items, ∀ g ∈ item.groups, g.FixedBy pins) :
    onlyDie? s ctx items = .ok none := by
  match items with
  | [] => rfl
  | [item] => exact die?_pinned hctx (hfix item (List.mem_singleton_self _))
  | _ :: _ :: _ => rfl

/-- A limit on each die of a literal with a fixed value counts the rolls with that value. -/
theorem counts_clampEach_fixed (hctx : ctx.pinned = some pins)
    (hfree : ctx.restrictCritical = false) {name : FunctionName} {target : Node} {bound : Outcome}
    {clamped : Distribution ℚ} (hfix : ∀ g ∈ target.groups, g.FixedBy pins)
    (hsides : ∀ g ∈ target.groups, g.pool.dice.sides ≠ 0)
    (h : s.clampEach ctx name target bound = .ok (some clamped)) :
    ∃ d id modifier v, target = dice d (some id) modifier ∧ name.perDie = true
      ∧ pins.lookup id = some v
      ∧ clamped.Counts (((Pool.mk d modifier).rolls.filter fun roll =>
          (Pool.mk d modifier).sum? roll = some v).map
            ((Pool.mk d modifier).clampedSum? name bound)) := by
  cases heach : eachPool? name target with
  | none => cases clampEach_of_eachPool?_eq_none heach h
  | some p =>
    obtain ⟨hname, hp⟩ := eachPool?_eq_some.1 heach
    cases target with
    | dice d id modifier =>
      cases hp
      obtain ⟨i, v, hid, hv, -⟩ := hfix _ (List.mem_singleton_self _)
      obtain rfl : id = some i := hid
      have hvalue : ctx.pinnedValue? (dice d (some i) modifier) = some (.ok v) := by
        rw [Context.pinnedValue?, hctx]
        simp [definingId?, literalId?, hv]
      obtain ⟨die, sum, hdie, hsum, hclamped⟩ :=
        Settings.clampEach_eq_ok (p := ⟨d, modifier⟩) hname rfl hvalue h
      obtain rfl := Option.some.inj hclamped
      exact ⟨d, i, modifier, v, rfl, hname, hv, counts_clampedGiven (p := ⟨d, modifier⟩) hfree
        (hsides _ (List.mem_singleton_self _)) hdie hsum⟩
    | group inner =>
      -- in parentheses the literal is a value like any other
      have hpinned : s.clampPinned ctx name (group inner) bound = .ok none := by
        rw [Settings.clampPinned, ctx.pinnedValue?_of_definingId? rfl]
      rw [Settings.clampEach, if_pos hname, hpinned] at h
      obtain ⟨_, hnone, h⟩ := bind_eq_ok.1 h
      cases hnone
      obtain ⟨_, hnone, h⟩ := bind_eq_ok.1 h
      rw [die?_pinned hctx hfix] at hnone
      cases hnone
      cases h
    | _ => cases hp

theorem counts_clampEach_pinned (hctx : ctx.pinned = some pins)
    (hfree : ctx.restrictCritical = false) {name : FunctionName} {target : Node}
    (threshold : Node) {bound : Outcome} {clamped : Distribution ℚ}
    (hfix : ∀ g ∈ target.groups, g.FixedBy pins)
    (hsides : ∀ g ∈ target.groups, g.pool.dice.sides ≠ 0)
    (h : s.clampEach ctx name target bound = .ok (some clamped)) :
    ∃ l, clamped.Counts l ∧ l.length = (function name [target, threshold]).openRolls pins := by
  obtain ⟨d, id, modifier, v, rfl, hname, hv, hcounts⟩ :=
    counts_clampEach_fixed hctx hfree hfix hsides h
  refine ⟨_, hcounts, ?_⟩
  simp only [List.length_map, openRolls, pool?, if_pos hname, Group.share, definingId?,
    literalId?, Option.bind_some, hv]
  rfl

/-! ## 3. The walk -/

/-- What the node comes to scales to the number of rolls that it leaves open. -/
def DividesWalk (s : Settings ℚ) (split : SplitCheck ℚ) (ctx : Context) (pins : Pins)
    (node : Node) : Prop :=
  ∀ e, node.walk s split ctx = .ok e → e.distribution.Divides (node.spread pins)

theorem dividesWalk_number (value : Float) : DividesWalk s split ctx pins (number value) := by
  intro e he
  obtain ⟨v, -, rfl⟩ := walk_number_eq_ok he
  exact Distribution.divides_point v _

theorem dividesWalk_comparison (relation : Relation) {left right : Node}
    (hleft : DividesWalk s split ctx pins left) (hright : DividesWalk s split ctx pins right) :
    DividesWalk s split ctx pins (comparison relation left right) := by
  intro e he
  obtain ⟨l, r, check, critical, hl, hr, hcompare, rfl⟩ := walk_comparison_any_eq_ok he
  have hspread : (comparison relation left right).spread pins
      = left.spread pins * right.spread pins := by
    simp [spread_eq_parts (comparison relation left right), openRolls, parts]
  have hcheck := (hleft l hl).compare (hright r hr) hcompare
  rw [hspread]
  exact hcheck

theorem dividesWalk_binary (operation : Operation) {left right : Node}
    (hleft : DividesWalk s split ctx pins left) (hright : DividesWalk s split ctx pins right) :
    DividesWalk s split ctx pins (binary operation left right) := by
  intro e he
  obtain ⟨l, r, d, part, hl, hr, hd, rfl⟩ := walk_binary_eq_ok he
  have hspread : (binary operation left right).spread pins
      = left.spread pins * right.spread pins := by
    simp [spread_eq_parts (binary operation left right), openRolls, parts]
  rw [hspread]
  exact Evaluation.divides_combine (hleft l hl) (hright r hr) hd

theorem dividesWalk_double {inner : Node} (h : DividesWalk s split ctx pins inner) :
    DividesWalk s split ctx pins (double inner) := by
  intro e he
  obtain ⟨i, d, hi, rfl, hd⟩ := walk_double_eq_ok he
  have hspread : (double inner).spread pins = inner.spread pins := by
    simp [spread_eq_parts (double inner), openRolls, parts]
  rw [hspread]
  split at hd
  · obtain ⟨part, hd⟩ := hd
    exact (h i hi).tryMap hd
  · rw [hd]
    exact h i hi

/-- Only one side is evaluated; the rolls of both are more than enough for it. -/
theorem dividesWalk_switch {normal critical : Node} (hn : DividesWalk s split ctx pins normal)
    (hc : DividesWalk s split ctx pins critical) :
    DividesWalk s split ctx pins (switch normal critical) := by
  intro e he
  obtain ⟨i, hi, rfl⟩ := walk_switch_eq_ok he
  have hspread : (switch normal critical).spread pins
      = normal.spread pins * critical.spread pins := by
    simp [spread_eq_parts (switch normal critical), openRolls, parts]
  rw [hspread]
  split at hi
  · exact (hc i hi).mono (Dvd.intro_left _ rfl)
  · exact (hn i hi).mono (Dvd.intro _ rfl)

theorem dividesWalk_only {inner : Node} (h : DividesWalk s split ctx pins inner) :
    DividesWalk s split ctx pins (only inner) := by
  intro e he
  have he := walk_only_eq_ok he
  split at he
  · obtain ⟨i, hi, rfl⟩ := he
    have hspread : (only inner).spread pins = inner.spread pins := by
      simp [spread_eq_parts (only inner), openRolls, parts]
    rw [hspread]
    exact h i hi
  · subst he
    exact Distribution.divides_point 0 _

theorem dividesWalk_group {inner : Node} (h : DividesWalk s split ctx pins inner) :
    DividesWalk s split ctx pins (group inner) := by
  intro e he
  rw [walk_group] at he
  have hspread : (group inner).spread pins = inner.spread pins := by
    simp [spread_eq_parts (group inner), openRolls, parts]
  rw [hspread]
  exact h e he

theorem divides_walkAll {nodes : List Node} {ds : List (Distribution ℚ)}
    (h : ∀ node ∈ nodes, DividesWalk s split ctx pins node)
    (hds : walkAll s split nodes ctx = .ok ds) :
    List.Forall₂ Distribution.Divides ds (nodes.map (spread pins)) := by
  induction nodes generalizing ds with
  | nil =>
    rw [walkAll] at hds
    cases hds
    exact .nil
  | cons node rest ih =>
    rw [walkAll] at hds
    simp only [bind_eq_ok, pure_eq_ok] at hds
    obtain ⟨first, hfirst, others, hothers, rfl⟩ := hds
    exact .cons (h node (List.mem_cons_self ..) first hfirst)
      (ih (fun node hnode => h node (List.mem_cons_of_mem _ hnode)) hothers)

section Pinned

variable (hctx : ctx.pinned = some pins)

include hctx

/-- A literal with a fixed value is that value. -/
theorem eq_point_of_standsForDice {node : Node} (hfix : ∀ g ∈ node.groups, g.FixedBy pins)
    (hstands : node.standsForDice = true) {e : Evaluation ℚ}
    (he : node.walk s split ctx = .ok e) : ∃ v, e = .plain (.point v 1) := by
  obtain ⟨g, rfl, hg, hgroups⟩ := exists_group hstands
  obtain ⟨id, v, hid, hv, -⟩ := hfix g (hgroups ▸ List.mem_singleton_self g)
  have hvalue : ctx.pinnedValue? g.node = some (.ok v) := by
    rw [Context.pinnedValue?, hctx, hid]
    simp only [hv]
  rw [hg.walk_eq hvalue] at he
  cases he
  exact ⟨v, rfl⟩

theorem dividesWalk_reference (id : UInt32) (critical : Bool) :
    DividesWalk s split ctx pins (reference id critical) := by
  intro e he
  obtain ⟨x, hx, rfl⟩ := walk_reference_eq_ok he
  obtain ⟨v, -, rfl⟩ := Settings.reference_eq_ok hctx hx
  exact Distribution.divides_point v _

theorem dividesWalk_keep {kind : KeepKind} {count : UInt32} {items : List Node}
    (h : (keep kind count items).Settled s split ctx pins)
    (hstands : (keep kind count items).standsForDice = false)
    (hitem : ∀ item ∈ items, DividesWalk s split ctx pins item) :
    DividesWalk s split ctx pins (keep kind count items) := by
  intro e he
  obtain ⟨only?, values, d, honly, hvalues, hd, rfl⟩ := walk_keep_eq_ok
    (ctx.pinnedValue?_of_definingId? (definingId?_of_not_standsForDice hstands)) he
  have hnone : onlyDie? s ctx items = .ok none :=
    onlyDie?_pinned hctx fun item hitem => (h.part hstands hitem).fixed
  rw [hnone] at honly
  cases honly
  have hkeep := Distribution.Divides.keep (divides_walkAll hitem hvalues) hd
  have hone : (keep kind count items).openRolls pins = 1 := rfl
  rwa [spread_eq_parts, hone, one_mul]

theorem dividesWalk_conditional {condition ifTrue ifFalse : Node}
    (h : (conditional condition ifTrue ifFalse).Settled s split ctx pins)
    (hcondition : DividesWalk s split ctx pins condition)
    (htrue : DividesWalk s split ctx pins ifTrue)
    (hfalse : DividesWalk s split ctx pins ifFalse) :
    DividesWalk s split ctx pins (conditional condition ifTrue ifFalse) := by
  intro e he
  have hpinned : ctx.pinned.isSome = true := by rw [hctx, Option.isSome_some]
  obtain ⟨check, yes, no, hc, hy, hn, rfl⟩ := walk_conditional_pinned hpinned he
  have hspread : (conditional condition ifTrue ifFalse).spread pins
      = condition.spread pins * (ifTrue.spread pins * ifFalse.spread pins) := by
    simp [spread_eq_parts (conditional condition ifTrue ifFalse), openRolls, parts]
  have hcheck : check.distribution.Divides (condition.spread pins) := hcondition _ hc
  have hyes := htrue yes hy
  have hno := hfalse no hn
  obtain ⟨hs, hf⟩ := nonneg_of_walk hc
  have hkept : (ConditionalResult.ofBranches s.mixing condition.text check yes no).KeepsTotal
      s.mixing := by
    by_cases hone : (conditional condition ifTrue ifFalse).spread pins = 1
    · rw [hspread, mul_eq_one, mul_eq_one] at hone
      obtain ⟨hc1, hy1, hn1⟩ := hone
      exact keepsTotal_of_divides_one (hc1 ▸ hcheck) hs hf (hy1 ▸ hyes) (hn1 ▸ hno)
    · exact h.kept _ _ _ (mem_subterms_self _) hone _ he
  rw [hspread]
  exact divides_ofBranches hcheck hs hf hyes hno hkept

/-- A limit on single dice goes through the open rolls of its literal. -/
theorem dividesWalk_function (hfree : ctx.restrictCritical = false) {name : FunctionName}
    {args : List Node} (h : (function name args).Settled s split ctx pins)
    (harg : ∀ arg ∈ args, DividesWalk s split ctx pins arg) :
    DividesWalk s split ctx pins (function name args) := by
  intro e he
  obtain ⟨target, threshold, values, bound, clamped?, rfl, -, -, hclamped, he⟩ :=
    walk_function_any_eq_ok he
  have hspread : (function name [target, threshold]).spread pins
      = (function name [target, threshold]).openRolls pins
        * (target.spread pins * threshold.spread pins) := by
    simp [spread_eq_parts (function name [target, threshold]), parts]
  have htarget : target.Settled s split ctx pins := h.part rfl (by simp [parts])
  rw [hspread]
  cases clamped? with
  | some clamped =>
    obtain rfl : e = .plain clamped := he
    obtain ⟨l, hcounts, hlength⟩ := counts_clampEach_pinned hctx hfree threshold
      htarget.fixed htarget.sides hclamped
    exact ⟨hcounts.whole, l.length, hcounts.total_eq, hlength ▸ Dvd.intro _ rfl⟩
  | none =>
    obtain ⟨t, ht, rfl⟩ := he
    refine ((harg target (by simp) t ht).map (name.clamp bound)).mono ?_
    exact (Dvd.intro _ rfl : target.spread pins ∣ _).mul_left _

/-- **With the values of all dice fixed, a node scales to the number of rolls that it leaves
open.** -/
theorem divides_walk (hfree : ctx.restrictCritical = false) {node : Node}
    (h : node.Settled s split ctx pins) {e : Evaluation ℚ} (he : node.walk s split ctx = .ok e) :
    e.distribution.Divides (node.spread pins) := by
  revert e
  change DividesWalk s split ctx pins node
  induction node using parts_induction with
  | h node ih =>
  cases hstands : node.standsForDice with
  | true =>
    intro e he
    obtain ⟨v, rfl⟩ := eq_point_of_standsForDice hctx h.fixed hstands he
    exact Distribution.divides_point v _
  | false =>
    have hpart : ∀ part ∈ node.parts, DividesWalk s split ctx pins part :=
      fun part hpart => ih part hpart (h.part hstands hpart)
    cases node with
    | number value => exact dividesWalk_number value
    | dice d id modifier => cases hstands
    | reference id critical => exact dividesWalk_reference hctx id critical
    | keep kind count items => exact dividesWalk_keep hctx h hstands hpart
    | comparison relation left right =>
      exact dividesWalk_comparison relation (hpart left (by simp [parts]))
        (hpart right (by simp [parts]))
    | conditional condition ifTrue ifFalse =>
      exact dividesWalk_conditional hctx h (hpart condition (by simp [parts]))
        (hpart ifTrue (by simp [parts])) (hpart ifFalse (by simp [parts]))
    | binary operation left right =>
      exact dividesWalk_binary operation (hpart left (by simp [parts]))
        (hpart right (by simp [parts]))
    | double inner => exact dividesWalk_double (hpart inner (by simp [parts]))
    | switch normal critical =>
      exact dividesWalk_switch (hpart normal (by simp [parts])) (hpart critical (by simp [parts]))
    | only inner => exact dividesWalk_only (hpart inner (by simp [parts]))
    | function name args => exact dividesWalk_function hctx hfree h hpart
    | group inner => exact dividesWalk_group (hpart inner (by simp [parts]))

end Pinned

end Node

end DiceOdds
