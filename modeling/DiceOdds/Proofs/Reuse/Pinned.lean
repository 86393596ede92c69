import DiceOdds.Proofs.Counting.Limits
import DiceOdds.Proofs.Counting.Results

/-!
# Evaluating with fixed values

Where the values of all groups are fixed, an evaluation counts the rolls with these values, in some
unit of weight: a literal or a keep that is fixed weighs `1` and stands for all of its rolls, while
a limit on each die is left with every roll of the right total.

## Why the unit does not matter

The unit is the same for all values of the formula.  It is the number of rolls of those groups of
which nothing but the value is seen, and scaling the result to the number of all rolls with the
fixed values brings it back.

## Why no literal may be hidden in parentheses

A keep of a literal in parentheses, or a limit on each of its dice, acts on single dice as it does
without them.  But the literal is then no group with that node, and under fixed values its dice
are not seen.
-/

namespace DiceOdds

namespace Node

/-- Whether a keep or a limit on each die has a literal in parentheses as its operand. -/
def hidesDice : Node → Bool
  | keep _ _ [group inner] => inner.strippedPool?.isSome
  | function name [group inner, _] => name.perDie && inner.strippedPool?.isSome
  | _ => false

/-- Dice that are not hidden are a literal. -/
theorem eq_dice_of_strippedPool? {node : Node} {p : Pool} (h : node.strippedPool? = some p)
    (hgroup : ∀ inner, node = group inner → inner.strippedPool?.isSome = false) :
    ∃ id, node = dice p.dice id p.modifier := by
  cases node with
  | dice d id modifier =>
    cases h
    exact ⟨id, rfl⟩
  | group inner =>
    have hinner : inner.strippedPool? = some p := h
    have hnone := hgroup inner rfl
    rw [hinner] at hnone
    cases hnone
  | _ => cases h

/-- A keep that chooses from single dice is a group, if it does not hide them. -/
theorem eq_dice_of_onlyPool? {kind : KeepKind} {count : UInt32} {items : List Node} {p : Pool}
    (h : onlyPool? items = some p) (hhide : (keep kind count items).hidesDice = false) :
    ∃ id, items = [dice p.dice id p.modifier] := by
  match items, h with
  | [item], h =>
    obtain ⟨id, rfl⟩ := eq_dice_of_strippedPool? h fun inner hinner => by
      subst hinner
      exact hhide
    exact ⟨id, rfl⟩

end Node

/-! ## 1. Groups with a fixed value -/

namespace Group

variable {g : Group}

/-- The rolls of a group with a value. -/
def rollsWith (g : Group) (o : Option Outcome) : List PoolRoll :=
  g.pool.rolls.filter fun cell => g.value? cell = o

/-- The value of the group is fixed, and there is a roll with it. -/
def FixedBy (g : Group) (pins : Pins) : Prop :=
  ∃ id v, g.node.definingId? = some id ∧ pins.lookup id = some v ∧ g.rollsWith (some v) ≠ []

namespace Wellformed

theorem groups_eq (h : g.Wellformed) : g.node.groups = [g] := by
  cases h <;> rfl

/-- Nothing in a group refers to other dice. -/
theorem valueOn_eq (h : g.Wellformed) (given : ℕ → Option Outcome) (cell : PoolRoll) :
    g.node.valueOn given [cell] = g.value? cell := by
  cases h <;> simp only [value?, Node.valueOn, Node.onlyPool?, Node.strippedPool?,
    Node.stripGroups, Node.pool?]

/-- A group with a fixed value is that value. -/
theorem walk_eq (h : g.Wellformed) {s : Settings ℚ} {split : SplitCheck ℚ} {ctx : Context}
    {v : Outcome} (hv : ctx.pinnedValue? g.node = some (.ok v)) :
    g.node.walk s split ctx = .ok (.plain (.point v 1)) := by
  cases h <;> (rw [Node.walk, hv]; rfl)

end Wellformed

end Group

/-! ## 2. What a successful step has done -/

section Steps

variable {s : Settings ℚ} {ctx : Context}

/-- A limit on each die of a literal with a fixed value goes through the rolls with that total. -/
theorem Settings.clampEach_eq_ok {name : FunctionName} {target : Node} {p : Pool}
    {threshold total : Outcome} {clamped? : Option (Distribution ℚ)} (hname : name.perDie = true)
    (hp : target.strippedPool? = some p) (htotal : ctx.pinnedValue? target = some (.ok total))
    (h : s.clampEach ctx name target threshold = .ok clamped?) :
    ∃ die clamped, s.die ctx.unpinned p.dice p.modifier = .ok die
      ∧ die.clampEachGivenTotal p.dice.count.toNat name threshold total = .ok clamped
      ∧ clamped? = some clamped := by
  rw [clampEach, if_pos hname, clampPinned, htotal] at h
  obtain ⟨pinned, hpinned, h⟩ := bind_eq_ok.1 h
  obtain ⟨found, hfound, hpinned⟩ := bind_eq_ok.1 hpinned
  obtain ⟨die, rfl, hdie⟩ := Node.die?_eq_ok rfl hp hfound
  obtain ⟨value, hvalue, hpinned⟩ := bind_eq_ok.1 hpinned
  obtain rfl : total = value := Except.ok.inj hvalue
  obtain ⟨clamped, hclamped, hpinned⟩ := bind_eq_ok.1 hpinned
  obtain rfl := pure_eq_ok.1 hpinned
  exact ⟨die, clamped, hdie, orBlame_eq_ok.1 hclamped, (pure_eq_ok.1 h).symm⟩

/-- Where no face is excluded, a die may show every face. -/
theorem counts_die_of_unrestricted {p : Pool} {die : Distribution ℚ}
    (hctx : ctx.restrictCritical = false) (h : s.die ctx p.dice p.modifier = .ok die) :
    die.Counts (p.dieRolls.map p.dieValue?) := by
  have hall : p.dieRolls.filter (fun roll => s.admits ctx p.dice (p.decidingFace roll))
      = p.dieRolls :=
    List.filter_eq_self.2 fun roll _ => Settings.admits_of_unrestricted hctx p.dice _
  exact hall ▸ counts_die h

/-- Among the rolls of a literal with a given sum, each limited sum is counted. -/
theorem counts_clampedGiven {p : Pool} {die clamped : Distribution ℚ} {name : FunctionName}
    {threshold total : Outcome} (hctx : ctx.restrictCritical = false) (hsides : p.dice.sides ≠ 0)
    (hdie : s.die ctx p.dice p.modifier = .ok die)
    (h : die.clampEachGivenTotal p.dice.count.toNat name threshold total = .ok clamped) :
    clamped.Counts ((p.rolls.filter fun roll => p.sum? roll = some total).map
      (p.clampedSum? name threshold)) :=
  (counts_die_of_unrestricted hctx hdie).clampEachGivenTotal (Pool.dieRolls_ne_nil hsides) h

end Steps

namespace Reading

/-! ## 3. Leaves -/

/-- The reading in which the dice with ids have fixed values; a weight stands for any number of
rolls. -/
def pinned (s : Settings ℚ) (split : SplitCheck ℚ) (pins : Pins) : Reading where
  settings := s
  split
  ctx := { pinned := some pins }
  given id := pins.lookup id
  admitted g := g.rollsWith (g.node.definingId?.bind fun id => pins.lookup id)
  units := Submonoid.pos ℚ

variable {s : Settings ℚ} {split : SplitCheck ℚ} {pins : Pins}

theorem pinnedValue?_eq {node : Node} {id : ℕ} {v : Outcome} (hid : node.definingId? = some id)
    (hv : pins.lookup id = some v) :
    (pinned s split pins).ctx.pinnedValue? node = some (.ok v) := by
  rw [Context.pinnedValue?, hid]
  simp only [pinned, hv]

theorem admitted_eq {g : Group} {id : ℕ} {v : Outcome} (hid : g.node.definingId? = some id)
    (hv : pins.lookup id = some v) :
    (pinned s split pins).admitted g = g.rollsWith (some v) := by
  change g.rollsWith (g.node.definingId?.bind _) = _
  rw [hid, Option.bind_some, hv]

/-- A group has its value on every roll that is left. -/
theorem sound_pinned_group {g : Group} (hg : g.Wellformed) (hfix : g.FixedBy pins) :
    (pinned s split pins).Sound g.node := by
  intro e he
  obtain ⟨id, v, hid, hv, hne⟩ := hfix
  rw [hg.walk_eq (pinnedValue?_eq hid hv)] at he
  cases he
  refine ⟨_, rfl, Distribution.nonneg_point v, (g.rollsWith (some v)).length, ?_, fun f => ?_⟩
  · have hpos : (0 : ℚ) < (g.rollsWith (some v)).length :=
      Nat.cast_pos.2 (List.length_pos_iff.2 hne)
    exact hpos
  have hvalue : ∀ cell ∈ g.rollsWith (some v),
      f (g.node.valueOn (pinned s split pins).given [cell]) = f (some v) := by
    intro cell hcell
    rw [hg.valueOn_eq, of_decide_eq_true (List.mem_filter.1 hcell).2]
  rw [rolls, hg.groups_eq, List.map_singleton, admitted_eq hid hv, sum_sections_cons]
  simp only [List.sections, List.map_singleton, List.sum_singleton]
  rw [List.map_congr_left hvalue, Distribution.sumOver_point]
  simp

theorem sound_pinned_reference (id : UInt32) (critical : Bool) :
    (pinned s split pins).Sound (.reference id critical) := by
  intro e he
  change Node.walk s split _ _ = _ at he
  rw [Node.walk, Context.pinnedValue?_of_definingId? _ rfl, bind_eq_ok] at he
  obtain ⟨d, hd, he⟩ := he
  obtain rfl := pure_eq_ok.1 he
  have hctx : (pinned s split pins).ctx.pinned = some pins := rfl
  obtain ⟨v, hv, rfl⟩ := Settings.reference_eq_ok hctx hd
  refine ⟨_, rfl, Distribution.nonneg_point v, 1, Submonoid.one_mem _, fun f => ?_⟩
  rw [Distribution.sumOver_point, rolls, Node.groups]
  simp [Node.valueOn, pinned, hv]

/-- A limit on each die meets every roll with the fixed total. -/
theorem sound_pinned_function {name : FunctionName}
    (hname : name.perDie = true) {d : Dice} {id : Option ℕ} {modifier : Option Modifier}
    (bound : Float) (hsides : d.sides ≠ 0)
    (hfix : Group.FixedBy ⟨.dice d id modifier, ⟨d, modifier⟩⟩ pins) :
    (pinned s split pins).Sound (.function name [.dice d id modifier, .number bound]) := by
  intro e he
  obtain ⟨i, v, hid, hv, -⟩ := hfix
  obtain ⟨threshold, clamped?, hbound, hclamped, he⟩ := Node.walk_function_eq_ok he
  obtain ⟨die, clamped, hdie, hsum, rfl⟩ :=
    Settings.clampEach_eq_ok (p := ⟨d, modifier⟩) hname rfl (pinnedValue?_eq hid hv) hclamped
  obtain rfl : e = .plain clamped := he
  have hcounts := counts_clampedGiven (p := ⟨d, modifier⟩) rfl hsides hdie hsum
  refine ⟨clamped, rfl, hcounts.nonneg, 1, Submonoid.one_mem _, fun f => ?_⟩
  have hgroups : (Node.function name [.dice d id modifier, .number bound]).groups
      = [⟨.dice d id modifier, ⟨d, modifier⟩⟩] := rfl
  have heach : Node.eachPool? name (.dice d id modifier) = some ⟨d, modifier⟩ :=
    Node.eachPool?_eq_some.2 ⟨hname, rfl⟩
  rw [rolls, hgroups, List.map_singleton, admitted_eq hid hv, sum_sections_cons, one_mul,
    hcounts f, List.map_map]
  simp only [List.sections, List.map_singleton, List.sum_singleton, Node.valueOn, hbound, heach,
    Option.bind_some, List.headD_cons]
  rfl

/-- **With the values of all groups fixed, an arithmetic formula counts the rolls with these
values**, up to a unit. -/
theorem sound_pinned {node : Node} (h : node.Arithmetic)
    (hhide : ∀ n ∈ node.subterms, n.hidesDice = false)
    (hsides : ∀ g ∈ node.groups, g.pool.dice.sides ≠ 0)
    (hfix : ∀ g ∈ node.groups, g.FixedBy pins) : (pinned s split pins).Sound node := by
  refine sound_of_leaves (fun n => n.Leaf ∧ n ∈ node.subterms ∧ n.groups ⊆ node.groups)
    (h.built fun n hn hg hleaf => ⟨hleaf, hn, hg⟩) ?_
  rintro n ⟨hleaf, hn, hg⟩
  cases hleaf with
  | dice d id modifier =>
    exact sound_pinned_group (.dice d id modifier) (hfix _ (hg (List.mem_singleton_self _)))
  | reference id critical => exact sound_pinned_reference id critical
  | @keep kind count items p honly =>
    obtain ⟨id, rfl⟩ := Node.eq_dice_of_onlyPool? honly (hhide _ hn)
    refine sound_pinned_group (.keep kind count p.dice id p.modifier) (hfix _ (hg ?_))
    exact List.mem_singleton_self _
  | @function name target bound p heach =>
    obtain ⟨hname, htarget⟩ := Node.eachPool?_eq_some.1 heach
    obtain ⟨id, rfl⟩ := Node.eq_dice_of_strippedPool? htarget fun inner hinner => by
      subst hinner
      have hfalse := hhide _ hn
      rwa [Node.hidesDice, hname, Bool.true_and] at hfalse
    have hmem : (⟨.dice p.dice id p.modifier, p⟩ : Group) ∈ node.groups :=
      hg (List.mem_singleton_self _)
    exact sound_pinned_function hname bound (hsides _ hmem) (hfix _ hmem)

end Reading

end DiceOdds
