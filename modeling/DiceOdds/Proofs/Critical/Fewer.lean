import DiceOdds.Proofs.Counting.Results
import DiceOdds.Proofs.Critical.Marks
import DiceOdds.Proofs.Critical.Split

/-!
# Fewer faces, less weight

Limiting some dice to some of their faces leaves fewer rolls.  So the reading without critical
faces gives no outcome more weight than the full one, whatever the formula contains, as long as it
only counts.

## Why probabilities are left out

Where a value is scaled or mixed by the *probability* of a check, there is no such order: with
fewer faces a check may become more likely, and then its product with another value is another
value.  `usesProbability` finds the two constructs that do this.
-/

namespace DiceOdds

variable {s : Settings ℚ} {ctx low : Context}

namespace Node

variable {split split' : SplitCheck ℚ}

/-! ## 1. Fewer faces, fewer rolls -/

/-- One die with fewer faces, or with a mark that excludes some of them. -/
theorem below_die (hfree : ctx.restrictCritical = false) {d d' : Dice}
    (hd : { d' with critical := false } = { d with critical := false }) {modifier : Option Modifier}
    {die die' : Distribution ℚ} (hlow : s.die low d' modifier = .ok die')
    (hfull : s.die ctx d modifier = .ok die) : die'.Below die := by
  have hall : ∀ face, s.admits ctx d face = true := by
    intro face
    unfold Settings.admits
    cases s.rate with
    | none => rfl
    | some rate => simp [hfree]
  have hfaces := counts_die (p := ⟨d, modifier⟩) hfull
  simp only [hall, List.filter_true] at hfaces
  obtain ⟨count, sides, critical⟩ := d
  obtain ⟨count', sides', critical'⟩ := d'
  obtain ⟨rfl, rfl⟩ : count' = count ∧ sides' = sides := by simpa using hd
  have hlowfaces := counts_die (p := ⟨⟨count', sides', critical'⟩, modifier⟩) hlow
  exact .of_counts hlowfaces hfaces (List.filter_sublist.map _)

/-- The die of a literal in parentheses, in trees that differ in marks only. -/
theorem below_die? (hctx : ctx.pinned = none) (hlow : low.pinned = none)
    (hfree : ctx.restrictCritical = false) : ∀ (node node' : Node)
    {found found' : Option (Distribution ℚ × ℕ)}, node'.withoutMarks = node.withoutMarks →
    node'.die? s low = .ok found' → node.die? s ctx = .ok found →
    found' = none ∧ found = none
      ∨ ∃ die' die n, found' = some (die', n) ∧ found = some (die, n) ∧ die'.Below die := by
  intro node
  induction node using stripGroups.induct with
  | case1 inner ih =>
    intro node' found found' hmarks hl hf
    cases node' <;> simp only [withoutMarks, reduceCtorEq, group.injEq] at hmarks
    exact ih _ hmarks hl hf
  | case2 node hnode =>
    intro node' found found' hmarks hl hf
    cases node with
    | group inner => exact absurd rfl (hnode inner)
    | dice d id modifier =>
      cases node' <;> simp only [withoutMarks, reduceCtorEq, dice.injEq] at hmarks
      obtain ⟨hd, rfl, rfl⟩ := hmarks
      obtain ⟨die, rfl, hdie⟩ := die?_eq_ok (p := ⟨d, _⟩) hctx rfl hf
      obtain ⟨die', rfl, hdie'⟩ := die?_eq_ok (p := ⟨_, _⟩) hlow rfl hl
      have hcount := congrArg Dice.count hd
      exact .inr ⟨die', die, d.count.toNat, by rw [← hcount], rfl, below_die hfree hd hdie' hdie⟩
    | _ =>
      cases node' <;> simp only [withoutMarks, reduceCtorEq] at hmarks
      all_goals
        cases hl
        cases hf
        exact .inl ⟨rfl, rfl⟩

theorem below_onlyDie? (hctx : ctx.pinned = none) (hlow : low.pinned = none)
    (hfree : ctx.restrictCritical = false) {items items' : List Node}
    {found found' : Option (Distribution ℚ × ℕ)}
    (hmarks : withoutMarksAll items' = withoutMarksAll items)
    (hl : onlyDie? s low items' = .ok found') (hf : onlyDie? s ctx items = .ok found) :
    found' = none ∧ found = none
      ∨ ∃ die' die n, found' = some (die', n) ∧ found = some (die, n) ∧ die'.Below die := by
  rcases items with _ | ⟨item, _ | ⟨_, _⟩⟩ <;> rcases items' with _ | ⟨item', _ | ⟨_, _⟩⟩ <;>
    simp only [withoutMarksAll, reduceCtorEq, List.cons.injEq, and_true, and_false] at hmarks
  · cases hl
    cases hf
    exact .inl ⟨rfl, rfl⟩
  · exact below_die? hctx hlow hfree item item' hmarks hl hf
  · cases hl
    cases hf
    exact .inl ⟨rfl, rfl⟩

/-- Limits on single dice, in trees that differ in marks only. -/
theorem below_clampEach (hctx : ctx.pinned = none) (hlow : low.pinned = none)
    (hfree : ctx.restrictCritical = false) {name : FunctionName} {target target' : Node}
    {bound : Outcome} {clamped? clamped?' : Option (Distribution ℚ)}
    (hmarks : target'.withoutMarks = target.withoutMarks)
    (hl : s.clampEach low name target' bound = .ok clamped?')
    (hf : s.clampEach ctx name target bound = .ok clamped?) :
    clamped?' = none ∧ clamped? = none
      ∨ ∃ x' x, clamped?' = some x' ∧ clamped? = some x ∧ x'.Below x := by
  rcases clampEach_eq_ok hctx hf with ⟨hname, rfl⟩ | ⟨hname, found, hfound, hf⟩
  · rcases clampEach_eq_ok hlow hl with ⟨-, rfl⟩ | ⟨hname', -⟩
    · exact .inl ⟨rfl, rfl⟩
    · rw [hname] at hname'
      cases hname'
  rcases clampEach_eq_ok hlow hl with ⟨hname', -⟩ | ⟨-, found', hfound', hl⟩
  · rw [hname] at hname'
    cases hname'
  rcases below_die? hctx hlow hfree target target' hmarks hfound' hfound with
    ⟨rfl, rfl⟩ | ⟨die', die, n, rfl, rfl, hdie⟩
  · obtain ⟨-, rfl⟩ | ⟨_, _, _, h, -⟩ := hf
    · obtain ⟨-, rfl⟩ | ⟨_, _, _, h, -⟩ := hl
      · exact .inl ⟨rfl, rfl⟩
      · cases h
    · cases h
  · obtain ⟨h, -⟩ | ⟨_, _, sum, h, hsum, rfl⟩ := hf
    · cases h
    obtain ⟨h', -⟩ | ⟨_, _, sum', h', hsum', rfl⟩ := hl
    · cases h'
    cases h
    cases h'
    exact .inr ⟨sum', sum, rfl, rfl, (hdie.map _).sumOfCopies hsum' hsum⟩

/-- Where no check is multiplied, results are combined as independent values. -/
theorem combine_independent_eq_ok {operation : Operation} {l r : Evaluation ℚ}
    {part : Unit → String} {d : Distribution ℚ}
    (hmul : operation = .mul → (∀ check, l ≠ .check check) ∧ ∀ check, r ≠ .check check)
    (h : l.combine operation r part = .ok d) :
    l.distribution.combine r.distribution (operation.apply part) = .ok d := by
  unfold Evaluation.combine at h
  split at h
  · next check => exact absurd rfl ((hmul rfl).1 check)
  · next check _ => exact absurd rfl ((hmul rfl).2 check)
  · obtain ⟨values, hvalues, h⟩ := bind_eq_ok.1 h
    obtain rfl : values = d := by simpa using orBlame_eq_ok.1 h
    exact hvalues

/-- Whether the node uses the probability of a check as a number: to scale another value, or to
mix two of them. -/
def usesProbability : Node → Bool
  | conditional _ _ _ => true
  | binary .mul left right => left.isComparison || right.isComparison
  | _ => false

theorem usesProbability_binary_eq {operation : Operation} {left right left' right' : Node}
    (hleft : left'.withoutMarks = left.withoutMarks)
    (hright : right'.withoutMarks = right.withoutMarks) :
    (binary operation left' right').usesProbability
      = (binary operation left right).usesProbability := by
  cases operation with
  | mul => rw [usesProbability, usesProbability, isComparison_eq hleft, isComparison_eq hright]
  | _ => rfl

theorem not_check_of_usesProbability {operation : Operation}
    {left right : Node} (h : (binary operation left right).usesProbability = false)
    {l r : Evaluation ℚ} (hl : left.walk s split ctx = .ok l)
    (hr : right.walk s split ctx = .ok r) (hmul : operation = .mul) :
    (∀ check, l ≠ .check check) ∧ ∀ check, r ≠ .check check := by
  subst hmul
  rw [usesProbability, Bool.or_eq_false_iff] at h
  constructor
  · rintro check rfl
    rw [isComparison_of_walk hl] at h
    cases h.1
  · rintro check rfl
    rw [isComparison_of_walk hr] at h
    cases h.2

/-- Where the walk in a reading with fewer faces succeeds as well, over a tree that differs in marks
only, its values lie below those of the full reading. -/
def BelowWalk (s : Settings ℚ) (split split' : SplitCheck ℚ) (ctx low : Context) (node : Node) :
    Prop :=
  ∀ (node' : Node) (e e' : Evaluation ℚ), node'.withoutMarks = node.withoutMarks →
    node'.walk s split' low = .ok e' → node.walk s split ctx = .ok e →
      e'.distribution.Below e.distribution

theorem belowWalk_number (value : Float) : BelowWalk s split split' ctx low (number value) := by
  intro node' e e' hmarks hl hf
  cases node' <;> simp only [withoutMarks, reduceCtorEq, number.injEq] at hmarks
  subst hmarks
  obtain ⟨v, hv, rfl⟩ := walk_number_eq_ok hf
  obtain ⟨v', hv', rfl⟩ := walk_number_eq_ok hl
  rw [hv] at hv'
  cases hv'
  exact .refl (Distribution.nonneg_point v)

theorem belowWalk_comparison (relation : Relation) {left right : Node}
    (hleft : BelowWalk s split split' ctx low left)
    (hright : BelowWalk s split split' ctx low right) :
    BelowWalk s split split' ctx low (comparison relation left right) := by
  intro node' e e' hmarks hl hf
  cases node' <;> simp only [withoutMarks, reduceCtorEq, comparison.injEq] at hmarks
  obtain ⟨rfl, hmarksl, hmarksr⟩ := hmarks
  obtain ⟨l, r, check, critical, hlw, hrw, hcheck, rfl⟩ := walk_comparison_any_eq_ok hf
  obtain ⟨l', r', check', critical', hlw', hrw', hcheck', rfl⟩ := walk_comparison_any_eq_ok hl
  have hbelow := (hleft _ _ _ hmarksl hlw' hlw).compare (hright _ _ _ hmarksr hrw' hrw)
    hcheck' hcheck
  exact hbelow

theorem belowWalk_binary {operation : Operation} {left right : Node}
    (huses : (binary operation left right).usesProbability = false)
    (hleft : BelowWalk s split split' ctx low left)
    (hright : BelowWalk s split split' ctx low right) :
    BelowWalk s split split' ctx low (binary operation left right) := by
  intro node' e e' hmarks hl hf
  cases node' <;> simp only [withoutMarks, reduceCtorEq, binary.injEq] at hmarks
  obtain ⟨rfl, hmarksl, hmarksr⟩ := hmarks
  obtain ⟨l, r, d, part, hlw, hrw, hd, rfl⟩ := walk_binary_eq_ok hf
  obtain ⟨l', r', d', part', hlw', hrw', hd', rfl⟩ := walk_binary_eq_ok hl
  have huses' := (usesProbability_binary_eq hmarksl hmarksr).trans huses
  have hcombine := combine_independent_eq_ok (not_check_of_usesProbability huses hlw hrw) hd
  have hcombine' := combine_independent_eq_ok (not_check_of_usesProbability huses' hlw' hrw') hd'
  exact (hleft _ _ _ hmarksl hlw' hlw).combine (hright _ _ _ hmarksr hrw' hrw)
    (fun _ _ _ => Operation.apply_eq_ok) (fun _ _ _ => Operation.apply_eq_ok) hcombine' hcombine

theorem belowWalk_group {inner : Node} (h : BelowWalk s split split' ctx low inner) :
    BelowWalk s split split' ctx low (group inner) := by
  intro node' e e' hmarks hl hf
  cases node' <;> simp only [withoutMarks, reduceCtorEq, group.injEq] at hmarks
  rw [walk_group] at hl hf
  exact h _ _ _ hmarks hl hf

/-- Items that are evaluated one by one. -/
theorem below_walkAll {items items' : List Node} {ds ds' : List (Distribution ℚ)}
    (hitem : ∀ item ∈ items, BelowWalk s split split' ctx low item)
    (hmarks : withoutMarksAll items' = withoutMarksAll items)
    (hl : walkAll s split' items' low = .ok ds') (hf : walkAll s split items ctx = .ok ds) :
    List.Forall₂ Distribution.Below ds' ds := by
  induction items generalizing items' ds ds' with
  | nil =>
    cases items' <;> simp only [withoutMarksAll, reduceCtorEq] at hmarks
    rw [walkAll] at hl hf
    cases hl
    cases hf
    exact .nil
  | cons item rest ih =>
    cases items' <;> simp only [withoutMarksAll, reduceCtorEq, List.cons.injEq] at hmarks
    obtain ⟨hfirst, hrest⟩ := List.forall_mem_cons.1 hitem
    rw [walkAll] at hl hf
    simp only [bind_eq_ok, pure_eq_ok] at hl hf
    obtain ⟨first, hfirst', others, hothers, rfl⟩ := hf
    obtain ⟨low, hlow, lowOthers, hlowOthers, rfl⟩ := hl
    exact .cons (hfirst _ _ _ hmarks.1 hlow hfirst') (ih hrest hmarks.2 hlowOthers hothers)

section Branches

variable (hbranch : low.criticalBranch = ctx.criticalBranch)

include hbranch

theorem belowWalk_double {inner : Node} (h : BelowWalk s split split' ctx low inner) :
    BelowWalk s split split' ctx low (double inner) := by
  intro node' e e' hmarks hl hf
  cases node' <;> simp only [withoutMarks, reduceCtorEq, double.injEq] at hmarks
  obtain ⟨i, d, hi, rfl, hd⟩ := walk_double_eq_ok hf
  obtain ⟨i', d', hi', rfl, hd'⟩ := walk_double_eq_ok hl
  have hinner := h _ _ _ hmarks hi' hi
  rw [hbranch] at hd'
  split at hd
  · next hcritical =>
    rw [if_pos hcritical] at hd'
    obtain ⟨part, hd⟩ := hd
    obtain ⟨part', hd'⟩ := hd'
    exact hinner.tryMap (fun v => v.times? 2) (fun v c => times_eq_ok) (fun v c => times_eq_ok)
      hd' hd
  · next hcritical =>
    rw [if_neg hcritical] at hd'
    rw [hd, hd']
    exact hinner

theorem belowWalk_switch {normal critical : Node} (hn : BelowWalk s split split' ctx low normal)
    (hc : BelowWalk s split split' ctx low critical) :
    BelowWalk s split split' ctx low (switch normal critical) := by
  intro node' e e' hmarks hl hf
  cases node' <;> simp only [withoutMarks, reduceCtorEq, switch.injEq] at hmarks
  obtain ⟨i, hi, rfl⟩ := walk_switch_eq_ok hf
  obtain ⟨i', hi', rfl⟩ := walk_switch_eq_ok hl
  rw [hbranch] at hi'
  change i'.distribution.Below i.distribution
  split at hi
  · next hcritical =>
    rw [if_pos hcritical] at hi'
    exact hc _ _ _ hmarks.2 hi' hi
  · next hcritical =>
    rw [if_neg hcritical] at hi'
    exact hn _ _ _ hmarks.1 hi' hi

theorem belowWalk_only {inner : Node} (h : BelowWalk s split split' ctx low inner) :
    BelowWalk s split split' ctx low (only inner) := by
  intro node' e e' hmarks hl hf
  cases node' <;> simp only [withoutMarks, reduceCtorEq, only.injEq] at hmarks
  have hf := walk_only_eq_ok hf
  have hl := walk_only_eq_ok hl
  rw [hbranch] at hl
  split at hf
  · next hcritical =>
    rw [if_pos hcritical] at hl
    obtain ⟨i, hi, rfl⟩ := hf
    obtain ⟨i', hi', rfl⟩ := hl
    have hinner := h _ _ _ hmarks hi' hi
    exact hinner
  · next hcritical =>
    rw [if_neg hcritical] at hl
    rw [hf, hl]
    exact .refl (Distribution.nonneg_point 0)

end Branches

section Dice

variable (hctx : ctx.pinned = none) (hlow : low.pinned = none)

include hctx hlow

theorem belowWalk_reference (id : UInt32) (critical : Bool) :
    BelowWalk s split split' ctx low (reference id critical) := by
  intro node' e e' hmarks hl hf
  cases node' <;> simp only [withoutMarks, reduceCtorEq, reference.injEq] at hmarks
  obtain ⟨rfl, rfl⟩ := hmarks
  obtain ⟨x, hx, rfl⟩ := walk_reference_eq_ok hf
  obtain ⟨x', hx', rfl⟩ := walk_reference_eq_ok hl
  obtain ⟨d, hd, hsum⟩ := reference_eq_ok hctx hx
  obtain ⟨d', hd', hsum'⟩ := reference_eq_ok hlow hx'
  rw [hd] at hd'
  cases hd'
  rw [hsum] at hsum'
  cases hsum'
  exact .refl (Distribution.positive_sumOfCopies hsum).nonneg

variable (hfree : ctx.restrictCritical = false)

include hfree

theorem belowWalk_dice (d : Dice) (id : Option ℕ) (modifier : Option Modifier) :
    BelowWalk s split split' ctx low (dice d id modifier) := by
  intro node' e e' hmarks hl hf
  cases node' <;> simp only [withoutMarks, reduceCtorEq, dice.injEq] at hmarks
  obtain ⟨hd, rfl, rfl⟩ := hmarks
  obtain ⟨x, hx, rfl⟩ := walk_dice_eq_ok (pinnedValue?_of_unpinned hctx _) hf
  obtain ⟨x', hx', rfl⟩ := walk_dice_eq_ok (pinnedValue?_of_unpinned hlow _) hl
  obtain ⟨die, hdie, hsum⟩ := roll_eq_ok hctx hx
  obtain ⟨die', hdie', hsum'⟩ := roll_eq_ok hlow hx'
  have hcount := congrArg Dice.count hd
  dsimp only at hcount
  rw [hcount] at hsum'
  exact (below_die hfree hd hdie' hdie).sumOfCopies hsum' hsum

theorem belowWalk_keep (kind : KeepKind) (count : UInt32) {items : List Node}
    (hitem : ∀ item ∈ items, BelowWalk s split split' ctx low item) :
    BelowWalk s split split' ctx low (keep kind count items) := by
  intro node' e e' hmarks hl hf
  cases node' <;> simp only [withoutMarks, reduceCtorEq, keep.injEq] at hmarks
  obtain ⟨rfl, rfl, hitems⟩ := hmarks
  obtain ⟨only?, values, x, honly, hvalues, hx, rfl⟩ :=
    walk_keep_eq_ok (pinnedValue?_of_unpinned hctx _) hf
  obtain ⟨only?', values', x', honly', hvalues', hx', rfl⟩ :=
    walk_keep_eq_ok (pinnedValue?_of_unpinned hlow _) hl
  refine Distribution.Below.keep ?_ hx' hx
  rcases below_onlyDie? hctx hlow hfree hitems honly' honly with
    ⟨rfl, rfl⟩ | ⟨die', die, n, rfl, rfl, hdie⟩
  · exact below_walkAll hitem hitems hvalues' hvalues
  · obtain rfl : values = List.replicate n die := hvalues
    obtain rfl : values' = List.replicate n die' := hvalues'
    exact forall₂_replicate hdie n

theorem belowWalk_function (name : FunctionName) {args : List Node}
    (harg : ∀ arg ∈ args, BelowWalk s split split' ctx low arg) :
    BelowWalk s split split' ctx low (function name args) := by
  intro node' e e' hmarks hl hf
  cases node' <;> simp only [withoutMarks, reduceCtorEq, function.injEq] at hmarks
  obtain ⟨rfl, hargs⟩ := hmarks
  obtain ⟨target, threshold, values, bound, clamped?, rfl, hvalues, hbound, hclamped, hf⟩ :=
    walk_function_any_eq_ok hf
  obtain ⟨target', threshold', values', bound', clamped?', rfl, hvalues', hbound', hclamped', hl⟩ :=
    walk_function_any_eq_ok hl
  simp only [withoutMarksAll, List.cons.injEq, and_true] at hargs
  obtain ⟨htarget, hthreshold⟩ := hargs
  -- the threshold is the same number in both readings
  have hsame : bound' = bound :=
    (harg threshold (by simp) _ _ _ hthreshold hvalues' hvalues).point_eq (positive_walk _ hvalues')
      hbound' hbound
  subst hsame
  rcases below_clampEach hctx hlow hfree htarget hclamped' hclamped with
    ⟨rfl, rfl⟩ | ⟨x', x, rfl, rfl, hx⟩
  · obtain ⟨t, ht, rfl⟩ := hf
    obtain ⟨t', ht', rfl⟩ := hl
    exact (harg target (by simp) _ _ _ htarget ht' ht).map _
  · obtain rfl : e = .plain x := hf
    obtain rfl : e' = .plain x' := hl
    exact hx

end Dice

/-- One case for each kind of node. -/
theorem belowWalk_of_counting (hctx : ctx.pinned = none) (hlow : low.pinned = none)
    (hbranch : low.criticalBranch = ctx.criticalBranch) (hfree : ctx.restrictCritical = false)
    (node : Node) (hcounts : ∀ n ∈ node.subterms, n.usesProbability = false) :
    BelowWalk s split split' ctx low node := by
  induction node using parts_induction with
  | h node ih =>
    have hpart : ∀ part ∈ node.parts, BelowWalk s split split' ctx low part := fun part hpart =>
      ih part hpart fun n hn => hcounts n (subterms_subset_of_mem_parts hpart hn)
    have huses := hcounts node node.mem_subterms_self
    cases node with
    | number value => exact belowWalk_number value
    | dice d id modifier => exact belowWalk_dice hctx hlow hfree d id modifier
    | reference id critical => exact belowWalk_reference hctx hlow id critical
    | keep kind count items => exact belowWalk_keep hctx hlow hfree kind count hpart
    | comparison relation left right =>
      exact belowWalk_comparison relation (hpart left (by simp [parts]))
        (hpart right (by simp [parts]))
    | conditional condition ifTrue ifFalse => cases huses
    | binary operation left right =>
      exact belowWalk_binary huses (hpart left (by simp [parts])) (hpart right (by simp [parts]))
    | double inner => exact belowWalk_double hbranch (hpart inner (by simp [parts]))
    | switch normal critical =>
      exact belowWalk_switch hbranch (hpart normal (by simp [parts]))
        (hpart critical (by simp [parts]))
    | only inner => exact belowWalk_only hbranch (hpart inner (by simp [parts]))
    | function name args => exact belowWalk_function hctx hlow hfree name hpart
    | group inner => exact belowWalk_group (hpart inner (by simp [parts]))

/-- **The reading with fewer faces lies below the full one**, unless the probability of a check is
used as a number. -/
theorem below_walk (hctx : ctx.pinned = none) (hlow : low.pinned = none)
    (hbranch : low.criticalBranch = ctx.criticalBranch) (hfree : ctx.restrictCritical = false)
    (node node' : Node) {e e' : Evaluation ℚ} (hmarks : node'.withoutMarks = node.withoutMarks)
    (hcounts : ∀ n ∈ node.subterms, n.usesProbability = false)
    (hl : node'.walk s split' low = .ok e') (hf : node.walk s split ctx = .ok e) :
    e'.distribution.Below e.distribution :=
  belowWalk_of_counting hctx hlow hbranch hfree node hcounts node' e e' hmarks hl hf

end Node

end DiceOdds
