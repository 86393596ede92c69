import DiceOdds.Proofs.Counting.Succeeds
import DiceOdds.Proofs.Critical.Refines
import DiceOdds.Proofs.Critical.Threshold

/-!
# The second reading of a check succeeds

To split a check its sides are evaluated once more, without critical faces.  Where the sides are
arithmetic this second reading succeeds as soon as the first one does: it goes through fewer
outcomes, and nothing but an outcome can make arithmetic fail.

## Why thresholds have to be numbers

A threshold has to be a single value.  One that is rolled may have a single value in the full
reading and none at all in a reading that leaves out faces, and then only the second one fails.
-/

namespace DiceOdds

variable {s : Settings ℚ} {ctx low : Context} {split split' : SplitCheck ℚ}

/-! ## 1. Operations -/

/-- Whether an operation succeeds does not depend on the text that an error would show. -/
theorem Operation.succeeds_apply {operation : Operation} {part : Unit → String} {a b c : Outcome}
    (h : operation.value? a b = some c) : Succeeds (operation.apply part a b) := by
  refine ⟨c, ?_⟩
  cases operation <;> simp only [value?] at h <;> simp [apply, h]

theorem combine_plain_of_combine {operation : Operation} {x y d : Distribution ℚ}
    {part : Unit → String} (h : x.combine y (operation.apply part) = .ok d) :
    Evaluation.combine operation (.plain x) (.plain y) part = .ok d := by
  have hplain : Evaluation.combine operation (.plain x) (.plain y) part
      = x.combine y (operation.apply part) >>= fun values => orBlame values.checkWeights part := by
    cases operation <;> rfl
  rw [hplain, h]
  rfl

namespace Node

/-! ## 2. Dice -/

/-- One die with fewer faces, or with a mark that excludes some of them. -/
theorem fewer_die (hfree : ctx.restrictCritical = false) {d d' : Dice}
    (hd : { d' with critical := false } = { d with critical := false }) {modifier : Option Modifier}
    {die : Distribution ℚ} (h : s.die ctx d modifier = .ok die) :
    ∃ die', s.die low d' modifier = .ok die' ∧ die'.Fewer die := by
  have hall : s.admits ctx d = fun _ => true := by
    funext face
    unfold Settings.admits
    cases s.rate with
    | none => rfl
    | some rate => simp [hfree]
  have hsides : d'.sides = d.sides := (Dice.mk.inj hd).2.1
  obtain ⟨die', hdie'⟩ : Succeeds (s.die low d' modifier) := by
    unfold Settings.die at h ⊢
    rw [hall] at h
    rw [hsides]
    rcases modifier with _ | ⟨range, limit⟩ | ⟨kind, success, explode, limit⟩
    · exact succeeds_ok _
    · obtain ⟨all, hall, -⟩ := bind_eq_ok.1 h
      exact succeeds_bind.2 ⟨all, hall, succeeds_pure _⟩
    · exact Distribution.Chain.succeeds_run ⟨die, h⟩
  exact ⟨die', hdie', below_die hfree hd hdie' h, positive_die hdie'⟩

/-- What is found about the single dice of two literals, one with fewer faces than the other. -/
def FewerFound (found' found : Option (Distribution ℚ × ℕ)) : Prop :=
  found' = none ∧ found = none
    ∨ ∃ die' die n, found' = some (die', n) ∧ found = some (die, n) ∧ die'.Fewer die

theorem fewer_die? (hctx : ctx.pinned = none) (hlow : low.pinned = none)
    (hfree : ctx.restrictCritical = false) : ∀ (node node' : Node)
    {found : Option (Distribution ℚ × ℕ)}, node'.withoutMarks = node.withoutMarks →
    node.die? s ctx = .ok found →
      ∃ found', node'.die? s low = .ok found' ∧ FewerFound found' found := by
  intro node
  induction node using stripGroups.induct with
  | case1 inner ih =>
    intro node' found hmarks h
    cases node' <;> simp only [withoutMarks, reduceCtorEq, group.injEq] at hmarks
    next inner' => exact ih inner' hmarks h
  | case2 node hnode =>
    intro node' found hmarks h
    cases node with
    | group inner => exact absurd rfl (hnode inner)
    | dice d id modifier =>
      cases node' <;> simp only [withoutMarks, reduceCtorEq, dice.injEq] at hmarks
      next d' id' modifier' =>
      obtain ⟨hd, rfl, rfl⟩ := hmarks
      obtain ⟨die, rfl, hdie⟩ := die?_eq_ok (p := ⟨d, modifier'⟩) hctx rfl h
      obtain ⟨die', hdie', hfewer⟩ := fewer_die hfree hd hdie
      have hcount : d'.count = d.count := (Dice.mk.inj hd).1
      refine ⟨some (die', d.count.toNat), ?_, .inr ⟨die', die, _, rfl, rfl, hfewer⟩⟩
      rw [die?, hlow, hdie', ← hcount]
      rfl
    | _ =>
      cases node' <;> simp only [withoutMarks, reduceCtorEq] at hmarks
      all_goals
        cases h
        exact ⟨none, rfl, .inl ⟨rfl, rfl⟩⟩

theorem fewer_onlyDie? (hctx : ctx.pinned = none) (hlow : low.pinned = none)
    (hfree : ctx.restrictCritical = false) {items items' : List Node}
    {found : Option (Distribution ℚ × ℕ)} (hmarks : withoutMarksAll items' = withoutMarksAll items)
    (h : onlyDie? s ctx items = .ok found) :
    ∃ found', onlyDie? s low items' = .ok found' ∧ FewerFound found' found := by
  rcases items with _ | ⟨item, _ | ⟨_, _⟩⟩ <;> rcases items' with _ | ⟨item', _ | ⟨_, _⟩⟩ <;>
    simp only [withoutMarksAll, reduceCtorEq, List.cons.injEq, and_true, and_false] at hmarks
  · cases h
    exact ⟨none, rfl, .inl ⟨rfl, rfl⟩⟩
  · exact fewer_die? hctx hlow hfree item item' hmarks h
  · cases h
    exact ⟨none, rfl, .inl ⟨rfl, rfl⟩⟩

theorem fewer_clampEach (hctx : ctx.pinned = none) (hlow : low.pinned = none)
    (hfree : ctx.restrictCritical = false) {name : FunctionName} {target target' : Node}
    {bound : Outcome} {clamped? : Option (Distribution ℚ)}
    (hmarks : target'.withoutMarks = target.withoutMarks)
    (h : s.clampEach ctx name target bound = .ok clamped?) :
    ∃ clamped?', s.clampEach low name target' bound = .ok clamped?'
      ∧ (clamped?' = none ∧ clamped? = none
        ∨ ∃ x' x, clamped?' = some x' ∧ clamped? = some x ∧ x'.Fewer x) := by
  have hpinned : s.clampPinned low name target' bound = .ok none := by
    rw [Settings.clampPinned, pinnedValue?_of_unpinned hlow]
  unfold Settings.clampEach
  rw [hpinned]
  rcases clampEach_eq_ok hctx h with ⟨hname, rfl⟩ | ⟨hname, found, hfound, h⟩
  · exact ⟨none, by rw [hname]; rfl, .inl ⟨rfl, rfl⟩⟩
  obtain ⟨found', hfound', hrel⟩ := fewer_die? hctx hlow hfree target target' hmarks hfound
  rw [if_pos hname, hfound']
  rcases hrel with ⟨rfl, rfl⟩ | ⟨die', die, n, rfl, rfl, hdie⟩
  · obtain ⟨-, rfl⟩ | ⟨_, _, _, hnone, -⟩ := h
    · exact ⟨none, rfl, .inl ⟨rfl, rfl⟩⟩
    · cases hnone
  · obtain ⟨hsome, -⟩ | ⟨_, _, sum, hsome, hsum, rfl⟩ := h
    · cases hsome
    cases hsome
    obtain ⟨sum', hsum', hfewer⟩ := (hdie.map _).sumOfCopies hsum
    refine ⟨some sum', ?_, .inr ⟨sum', sum, rfl, rfl, hfewer⟩⟩
    exact bind_eq_ok.2 ⟨none, rfl, bind_eq_ok.2 ⟨_, rfl, bind_eq_ok.2
      ⟨sum', orBlame_eq_ok.2 hsum', rfl⟩⟩⟩

/-! ## 3. The walk -/

/-- Both walks come to plain values, one of them to fewer than the other. -/
def FewerWalk (x' x : Except EvalError (Evaluation ℚ)) : Prop :=
  ∃ d' d, x' = .ok (.plain d') ∧ x = .ok (.plain d) ∧ d'.Fewer d

/-- A limit by a number, of single dice or of the whole value. -/
theorem walk_function_of_clampEach {name : FunctionName} {target : Node} {value : Float}
    {threshold : Outcome} {clamped? : Option (Distribution ℚ)}
    (hvalue : Outcome.ofWeight? value = some threshold)
    (hclamped : s.clampEach ctx name target threshold = .ok clamped?) :
    (function name [target, number value]).walk s split ctx
      = clamped?.elim (target.walk s split ctx >>= fun t =>
          pure (.plain (t.distribution.clamp name threshold))) fun d => pure (.plain d) := by
  have hnumber : (number value).walk s split ctx = .ok (.plain (.point threshold 1)) := by
    rw [walk, ctx.pinnedValue?_of_definingId? rfl, numberValue, hvalue]
    rfl
  have hthreshold : constantThreshold name (number value) (.plain (.point threshold (1 : ℚ)))
      = .ok threshold := by
    rw [constantThreshold, Evaluation.distribution, Distribution.point?_point]
  rw [walk, ctx.pinnedValue?_of_definingId? rfl]
  dsimp only
  rw [hnumber]
  dsimp only [bind, Except.bind]
  rw [hthreshold]
  dsimp only
  rw [hclamped]
  cases clamped? <;> rfl

/-- Items that are evaluated one by one. -/
theorem fewer_walkAll {items items' : List Node} {values : List (Distribution ℚ)}
    (hmarks : withoutMarksAll items' = withoutMarksAll items)
    (hitem : ∀ item ∈ items, ∀ {item' : Node} {e : Evaluation ℚ},
      item'.withoutMarks = item.withoutMarks → item.walk s split ctx = .ok e →
      FewerWalk (item'.walk s split' low) (.ok e))
    (h : walkAll s split items ctx = .ok values) :
    ∃ values', walkAll s split' items' low = .ok values'
      ∧ List.Forall₂ Distribution.Fewer values' values := by
  induction items generalizing items' values with
  | nil =>
    cases items' <;> simp only [withoutMarksAll, reduceCtorEq] at hmarks
    rw [walkAll] at h
    cases h
    exact ⟨[], rfl, .nil⟩
  | cons item rest ih =>
    cases items' <;> simp only [withoutMarksAll, reduceCtorEq, List.cons.injEq] at hmarks
    obtain ⟨hitem, hrestItems⟩ := List.forall_mem_cons.1 hitem
    rw [walkAll] at h
    simp only [bind_eq_ok, pure_eq_ok] at h
    obtain ⟨first, hfirst, others, hothers, rfl⟩ := h
    obtain ⟨x', x, hfirst', hx, hfewer⟩ := hitem hmarks.1 hfirst
    cases hx
    obtain ⟨others', hothers', hall⟩ := ih hmarks.2 hrestItems hothers
    rw [walkAll]
    exact ⟨x' :: others', bind_eq_ok.2 ⟨_, hfirst', bind_eq_ok.2 ⟨_, hothers', rfl⟩⟩,
      .cons hfewer hall⟩

section Walk

variable (hctx : ctx.pinned = none) (hlow : low.pinned = none)
  (hfree : ctx.restrictCritical = false)

include hctx hlow hfree

theorem fewer_walk_dice {d : Dice} {id : Option ℕ} {modifier : Option Modifier} {node' : Node}
    {e : Evaluation ℚ} (hmarks : node'.withoutMarks = (dice d id modifier).withoutMarks)
    (he : (dice d id modifier).walk s split ctx = .ok e) :
    FewerWalk (node'.walk s split' low) (.ok e) := by
  cases node' <;> simp only [withoutMarks, reduceCtorEq, dice.injEq] at hmarks
  next d' id' modifier' =>
  obtain ⟨hd, rfl, rfl⟩ := hmarks
  obtain ⟨x, hx, rfl⟩ := walk_dice_eq_ok (pinnedValue?_of_unpinned hctx _) he
  obtain ⟨die, hdie, hsum⟩ := roll_eq_ok hctx hx
  obtain ⟨die', hdie', hfewer⟩ := fewer_die hfree hd hdie
  obtain ⟨x', hx', hfewer⟩ := hfewer.sumOfCopies hsum
  have hcount : d'.count = d.count := (Dice.mk.inj hd).1
  refine ⟨x', x, ?_, rfl, hfewer⟩
  rw [walk, pinnedValue?_of_unpinned hlow, Settings.roll, die?, hlow, hdie']
  exact bind_eq_ok.2 ⟨x', bind_eq_ok.2 ⟨_, rfl, orBlame_eq_ok.2 (hcount ▸ hx')⟩, rfl⟩

theorem fewer_walk_keep {kind : KeepKind} {count : UInt32} {items : List Node} {node' : Node}
    {e : Evaluation ℚ} (hmarks : node'.withoutMarks = (keep kind count items).withoutMarks)
    (hitem : ∀ item ∈ items, ∀ {item' : Node} {e : Evaluation ℚ},
      item'.withoutMarks = item.withoutMarks → item.walk s split ctx = .ok e →
      FewerWalk (item'.walk s split' low) (.ok e))
    (he : (keep kind count items).walk s split ctx = .ok e) :
    FewerWalk (node'.walk s split' low) (.ok e) := by
  cases node' <;> simp only [withoutMarks, reduceCtorEq, keep.injEq] at hmarks
  obtain ⟨rfl, rfl, hitems⟩ := hmarks
  obtain ⟨only?, values, x, honly, hvalues, hx, rfl⟩ :=
    walk_keep_eq_ok (pinnedValue?_of_unpinned hctx _) he
  obtain ⟨only?', honly', hrel⟩ := fewer_onlyDie? hctx hlow hfree hitems honly
  rw [walk, pinnedValue?_of_unpinned hlow]
  dsimp only
  rw [honly']
  rcases hrel with ⟨rfl, rfl⟩ | ⟨die', die, n, rfl, rfl, hdie⟩
  · obtain ⟨values', hvalues', hfewer⟩ := fewer_walkAll hitems hitem hvalues
    obtain ⟨x', hx', hle⟩ := Distribution.Fewer.keep hfewer hx
    exact ⟨x', x, bind_eq_ok.2 ⟨_, rfl, bind_eq_ok.2 ⟨values', hvalues',
      bind_eq_ok.2 ⟨x', orBlame_eq_ok.2 hx', rfl⟩⟩⟩, rfl, hle⟩
  · obtain rfl : values = List.replicate n die := hvalues
    obtain ⟨x', hx', hle⟩ := Distribution.Fewer.keep (forall₂_replicate hdie n) hx
    exact ⟨x', x, bind_eq_ok.2 ⟨_, rfl, bind_eq_ok.2 ⟨_, rfl,
      bind_eq_ok.2 ⟨x', orBlame_eq_ok.2 hx', rfl⟩⟩⟩, rfl, hle⟩

theorem fewer_walk_function {name : FunctionName} {target : Node} {bound : Float} {node' : Node}
    {e : Evaluation ℚ}
    (hmarks : node'.withoutMarks = (function name [target, number bound]).withoutMarks)
    (htarget : ∀ {target' : Node} {e : Evaluation ℚ}, target'.withoutMarks = target.withoutMarks →
      target.walk s split ctx = .ok e → FewerWalk (target'.walk s split' low) (.ok e))
    (he : (function name [target, number bound]).walk s split ctx = .ok e) :
    FewerWalk (node'.walk s split' low) (.ok e) := by
  cases node' <;> simp only [withoutMarks, reduceCtorEq, function.injEq] at hmarks
  next name' args' =>
  obtain ⟨rfl, hargs⟩ := hmarks
  rcases args' with _ | ⟨target', _ | ⟨threshold', _ | ⟨_, _⟩⟩⟩ <;>
    simp only [withoutMarksAll, reduceCtorEq, List.cons.injEq, and_true, and_false] at hargs
  obtain ⟨hsame, hthreshold⟩ := hargs
  cases threshold' <;> simp only [withoutMarks, reduceCtorEq, number.injEq] at hthreshold
  subst hthreshold
  obtain ⟨threshold, clamped?, hbound, hclamped, he⟩ := walk_function_eq_ok he
  obtain ⟨clamped?', hclamped', hrel⟩ := fewer_clampEach hctx hlow hfree hsame hclamped
  rw [walk_function_of_clampEach hbound hclamped']
  rcases hrel with ⟨rfl, rfl⟩ | ⟨x', x, rfl, rfl, hfewer⟩
  · obtain ⟨t, ht, rfl⟩ := he
    obtain ⟨x', x, ht', hx, hfewer⟩ := htarget hsame ht
    cases hx
    exact ⟨_, _, bind_eq_ok.2 ⟨_, ht', rfl⟩, rfl, hfewer.map _⟩
  · obtain rfl : e = .plain x := he
    exact ⟨x', x, rfl, rfl, hfewer⟩

/-- **A reading of arithmetic with fewer faces succeeds.** -/
theorem fewer_walk {node node' : Node} {e : Evaluation ℚ} (h : node.Arithmetic)
    (hmarks : node'.withoutMarks = node.withoutMarks) (he : node.walk s split ctx = .ok e) :
    FewerWalk (node'.walk s split' low) (.ok e) := by
  have hpinned := pinnedValue?_of_unpinned hlow
  induction h generalizing node' e with
  | number value =>
    cases node' <;> simp only [withoutMarks, reduceCtorEq, number.injEq] at hmarks
    subst hmarks
    obtain ⟨v, hv, rfl⟩ := walk_number_eq_ok he
    refine ⟨_, _, ?_, rfl, (Distribution.positive_point v).fewer_refl⟩
    rw [walk, hpinned, numberValue, hv]
    rfl
  | dice d id modifier => exact fewer_walk_dice hctx hlow hfree hmarks he
  | reference id critical =>
    cases node' <;> simp only [withoutMarks, reduceCtorEq, reference.injEq] at hmarks
    obtain ⟨rfl, rfl⟩ := hmarks
    obtain ⟨x, hx, rfl⟩ := walk_reference_eq_ok he
    refine ⟨x, x, ?_, rfl, (positive_reference hx).fewer_refl⟩
    unfold Settings.reference at hx
    rw [hctx] at hx
    rw [walk, hpinned, Settings.reference, hlow, hx]
    rfl
  | keep kind count _ ih => exact fewer_walk_keep hctx hlow hfree hmarks ih he
  | @binary operation left right _ _ ihl ihr =>
    cases node' <;> simp only [withoutMarks, reduceCtorEq, binary.injEq] at hmarks
    obtain ⟨rfl, hleft, hright⟩ := hmarks
    obtain ⟨l, r, d, part, hl, hr, hd, rfl⟩ := walk_binary_eq_ok he
    obtain ⟨x', x, hl', hx, hfewerl⟩ := ihl hleft hl
    obtain ⟨y', y, hr', hy, hfewerr⟩ := ihr hright hr
    cases hx
    cases hy
    obtain ⟨d', hd', hle⟩ := hfewerl.combine hfewerr (fun _ _ _ => Operation.apply_eq_ok)
      (fun _ _ _ => Operation.apply_eq_ok) (fun _ _ _ => Operation.succeeds_apply)
      (combine_plain_eq_ok hd)
    refine ⟨d', d, ?_, rfl, hle⟩
    rw [walk, hpinned]
    exact bind_eq_ok.2 ⟨_, hl', bind_eq_ok.2 ⟨_, hr', bind_eq_ok.2
      ⟨d', combine_plain_of_combine hd', rfl⟩⟩⟩
  | function name bound _ ih => exact fewer_walk_function hctx hlow hfree hmarks ih he
  | group h ih =>
    cases node' <;> simp only [withoutMarks, reduceCtorEq, group.injEq] at hmarks
    rw [walk_group] at he ⊢
    exact ih hmarks he

end Walk

end Node

/-! ## 4. The split -/

/-- The split gives each success of the check to one of the two kinds of hits. -/
structure Check.DividedBy (c : Check ℚ) (shares : CriticalSplit ℚ) : Prop where
  refined : c.RefinedBy shares
  normal_nonneg : 0 ≤ shares.normalHit
  critical_nonneg : 0 ≤ shares.criticalHit

theorem Check.dividedBy_ofWeights {c : Check ℚ} {normal critical : ℚ} (hnormal : 0 ≤ normal)
    (hcritical : 0 ≤ critical) (hsum : normal + critical = c.success) (hf : 0 ≤ c.failure) :
    c.DividedBy (.ofWeights normal critical c.failure) := by
  have htotal : 0 ≤ normal + critical + c.failure := add_nonneg (add_nonneg hnormal hcritical) hf
  refine ⟨refinedBy_ofWeights hsum, ?_, ?_⟩
  · rw [CriticalSplit.ofWeights_eq]
    exact div_nonneg hnormal htotal
  · rw [CriticalSplit.ofWeights_eq]
    exact div_nonneg hcritical htotal

/-- Fractions are always finite, so nothing can go wrong in a comparison. -/
theorem Check.succeeds_compare (relation : Relation) (x y : Distribution ℚ) :
    Succeeds (compare relation x y) := by
  unfold compare
  exact ⟨_, if_pos rfl⟩

theorem smaller_eq_min (a b : ℚ) : Weight.smaller a b = min a b := by
  unfold Weight.smaller
  rcases lt_or_ge a b with h | h
  · simp [h, h.le]
  · simp [not_lt.2 h, h]

/-- Whether a check has the closed form for a kept pool does not depend on the rate; critical rolls
are hits then, as far as there are hits. -/
theorem poolSplit?_cases (relation : Relation) (left : Node) :
    (∀ (rate : ℚ) (c : Check ℚ), poolSplit? rate relation left c = none)
      ∨ ∃ d, ∀ (rate : ℚ) (c : Check ℚ), poolSplit? rate relation left c
        = some (.ofWeights (c.success - min (c.total * atLeastOneCritical rate d) c.success)
          (min (c.total * atLeastOneCritical rate d) c.success) c.failure) := by
  unfold poolSplit?
  simp only [smaller_eq_min]
  cases keptPool? left with
  | none => exact .inl fun _ _ => by cases relation <;> rfl
  | some d =>
    cases relation with
    | greater => exact .inr ⟨d, fun _ _ => rfl⟩
    | greaterEqual => exact .inr ⟨d, fun _ _ => rfl⟩
    | _ => exact .inl fun _ _ => rfl

/-- **The split of a check between arithmetic sides succeeds** where the check itself does, and it
divides the successes of the check. -/
theorem exists_splitCheck {relation : Relation} {left right : Node} {l r : Evaluation ℚ}
    {check : Check ℚ} (hctx : ctx.pinned = none) (hfree : ctx.restrictCritical = false)
    (hl : left.Arithmetic) (hr : right.Arithmetic) (hlw : left.walk s split ctx = .ok l)
    (hrw : right.walk s split ctx = .ok r)
    (hcheck : Check.compare relation l.distribution r.distribution = .ok check) :
    ∃ critical, splitCheck s relation left right ctx check = .ok critical
      ∧ ∀ shares, critical = some shares → check.DividedBy shares := by
  obtain ⟨hs, hf⟩ := Distribution.nonneg_compare (Node.positive_walk left hlw).nonneg
    (Node.positive_walk right hrw).nonneg hcheck
  unfold splitCheck
  split
  · next rate left' right' _ hsides =>
    obtain ⟨hmarksl, hmarksr⟩ := withoutMarks_of_decidingSides? hsides
    rcases poolSplit?_cases relation left' with hnone | ⟨d, hsome⟩
    swap
    · rw [hsome]
      refine ⟨_, rfl, fun _ h => ?_⟩
      cases h
      exact Check.dividedBy_ofWeights (sub_nonneg.2 (min_le_right _ _))
        (le_min (mul_nonneg (add_nonneg hs hf) (atLeastOneCritical_nonneg rate d)) hs)
        (sub_add_cancel _ _) hf
    · rw [hnone]
      have hpinned : ctx.restricted.pinned = none := hctx
      obtain ⟨x', x, hlow, hx, hfewerl⟩ :
          Node.FewerWalk (left'.walk s noSplit ctx.restricted) (.ok l) :=
        Node.fewer_walk hctx hpinned hfree hl hmarksl hlw
      obtain ⟨y', y, hrow, hy, hfewerr⟩ :
          Node.FewerWalk (right'.walk s noSplit ctx.restricted) (.ok r) :=
        Node.fewer_walk hctx hpinned hfree hr hmarksr hrw
      cases hx
      cases hy
      obtain ⟨low, hcompare⟩ := Check.succeeds_compare relation x' y'
      obtain ⟨hnormal, hle⟩ : 0 ≤ low.success ∧ low.success ≤ check.success :=
        hfewerl.below.weightOf_compare_le hfewerr.below hcompare hcheck true
      refine ⟨some _, bind_eq_ok.2 ⟨_, bind_eq_ok.2 ⟨_, hlow, bind_eq_ok.2 ⟨_, hrow,
        bind_eq_ok.2 ⟨low, orBlame_eq_ok.2 hcompare, rfl⟩⟩⟩, rfl⟩, fun _ h => ?_⟩
      cases h
      rw [larger_zero (sub_nonneg.2 hle)]
      exact Check.dividedBy_ofWeights hnormal (sub_nonneg.2 hle) (add_sub_cancel _ _) hf
  · exact ⟨none, rfl, fun _ h => by cases h⟩

end DiceOdds
