import DiceOdds.Proofs.Critical.Split

/-!
# Formulas that say what happens on a critical hit

Such a formula has two readings.  Normally a doubled part counts once, of two parts the first one
counts, and what only happens on a critical hit is `0`; on a critical hit the part is doubled, the
second of two parts counts, and what only happens then happens.

## Why each reading has rolls of its own

A part that a reading passes over is not rolled in it.  So the elementary rolls of a reading are
those of the dice that it needs, and the two readings of a formula need not have equally many:
`D2+[d2]` is read from one die normally and from two on a critical hit.
-/

namespace DiceOdds

variable {s : Settings ℚ} {ctx : Context}

namespace Node

/-! ## 1. Dice and values of a reading -/

mutual

/-- The dice that are rolled in a reading, normal or critical, in source order. -/
def readPools (critical : Bool) : Node → List Pool
  | dice d _ modifier => [⟨d, modifier⟩]
  | keep _ _ items => readPoolsAll critical items
  | binary _ left right => left.readPools critical ++ right.readPools critical
  | double inner => inner.readPools critical
  | switch normal crit => if critical then crit.readPools critical else normal.readPools critical
  | only inner => if critical then inner.readPools critical else []
  | function _ args => readPoolsAll critical args
  | group inner => inner.readPools critical
  | _ => []

/-- The dice that are rolled for a list of nodes. -/
def readPoolsAll (critical : Bool) : List Node → List Pool
  | [] => []
  | node :: rest => node.readPools critical ++ readPoolsAll critical rest

end

mutual

/-- The value of a formula in a reading, on one roll of the dice of the reading. -/
def readOn (critical : Bool) : Node → Roll → Option Outcome
  | number value, _ => Outcome.ofWeight? value
  | dice d _ modifier, roll => (⟨d, modifier⟩ : Pool).sum? (roll.headD [])
  | keep kind count items, roll => match onlyPool? items with
    | some p => p.kept? kind count.toNat (roll.headD [])
    | none => (readAllOn critical items roll).bind (kind.sum? count.toNat)
  | binary operation left right, roll =>
    (left.readOn critical (roll.take (left.readPools critical).length)).bind fun a =>
      (right.readOn critical (roll.drop (left.readPools critical).length)).bind fun b =>
        operation.value? a b
  | double inner, roll => (inner.readOn critical roll).bind fun v =>
    if critical then v.times? 2 else some v
  | switch normal crit, roll =>
    if critical then crit.readOn critical roll else normal.readOn critical roll
  | only inner, roll => if critical then inner.readOn critical roll else some 0
  | function name args, roll => match args with
    | [target, number bound] => (Outcome.ofWeight? bound).bind fun threshold =>
      match eachPool? name target with
      | some p => p.clampedSum? name threshold (roll.headD [])
      | none => (target.readOn critical roll).map (name.clamp threshold)
    | _ => none
  | group inner, roll => inner.readOn critical roll
  | _, _ => none

/-- The values of a list of formulas in a reading. -/
def readAllOn (critical : Bool) : List Node → Roll → Option (List Outcome)
  | [], _ => some []
  | node :: rest, roll =>
    (node.readOn critical (roll.take (node.readPools critical).length)).bind fun v =>
      (readAllOn critical rest (roll.drop (node.readPools critical).length)).map (v :: ·)

end

-- the equations are made here, once for everything that unfolds them
attribute [grind =] readPools readPoolsAll readOn readAllOn

/-- Formulas made of numbers, dice, keeps, parentheses, operations, limits by a number and parts
that depend on a critical hit.  There is no comparison and no reference in them. -/
inductive Wrapped : Node → Prop where
  | number (value : Float) : Wrapped (.number value)
  | dice (d : Dice) (id : Option ℕ) (modifier : Option Modifier) : Wrapped (.dice d id modifier)
  | keep (kind : KeepKind) (count : UInt32) {items : List Node}
      (h : ∀ item ∈ items, Wrapped item) : Wrapped (.keep kind count items)
  | binary (operation : Operation) {left right : Node} (hl : Wrapped left) (hr : Wrapped right) :
      Wrapped (.binary operation left right)
  | double {inner : Node} (h : Wrapped inner) : Wrapped (.double inner)
  | switch {normal critical : Node} (hn : Wrapped normal) (hc : Wrapped critical) :
      Wrapped (.switch normal critical)
  | only {inner : Node} (h : Wrapped inner) : Wrapped (.only inner)
  | function (name : FunctionName) {target : Node} (bound : Float) (h : Wrapped target) :
      Wrapped (.function name [target, .number bound])
  | group {inner : Node} (h : Wrapped inner) : Wrapped (.group inner)

/-- Dice in parentheses are rolled in both readings. -/
theorem readPools_of_strippedPool? {node : Node} {p : Pool} (critical : Bool)
    (h : node.strippedPool? = some p) : node.readPools critical = [p] := by
  induction node using stripGroups.induct with
  | case1 inner ih => rw [readPools]; exact ih h
  | case2 node hnode =>
    rw [strippedPool?, stripGroups] at h
    · cases node with
      | dice d id modifier => cases h; rw [readPools]
      | _ => cases h
    · exact hnode

/-! ## 2. Parts of a formula -/

/-- An evaluation that succeeds counts the rolls of its reading. -/
def ReadSound (s : Settings ℚ) (split : SplitCheck ℚ) (ctx : Context) (node : Node) : Prop :=
  ∀ e, node.walk s split ctx = .ok e → ∃ d, e = .plain d
    ∧ d.Counts ((s.admittedRolls ctx (node.readPools ctx.criticalBranch)).map
        (node.readOn ctx.criticalBranch))

variable {split : SplitCheck ℚ}

/-- A node that is read as one of its parts. -/
theorem counts_of_part {node part : Node} {d : Distribution ℚ}
    (hpools : node.readPools ctx.criticalBranch = part.readPools ctx.criticalBranch)
    (hvalue : ∀ roll, node.readOn ctx.criticalBranch roll = part.readOn ctx.criticalBranch roll)
    (hd : d.Counts ((s.admittedRolls ctx (part.readPools ctx.criticalBranch)).map
      (part.readOn ctx.criticalBranch))) :
    d.Counts ((s.admittedRolls ctx (node.readPools ctx.criticalBranch)).map
      (node.readOn ctx.criticalBranch)) := by
  rw [hpools, show node.readOn ctx.criticalBranch = part.readOn ctx.criticalBranch
    from funext hvalue]
  exact hd

/-- A node that is the same in both readings, and counts its rolls in any. -/
theorem readSound_of_sound {node : Node}
    (hpools : node.readPools ctx.criticalBranch = node.pools)
    (hvalue : node.readOn ctx.criticalBranch = node.valueOn fun _ => none)
    (h : (Reading.rolled s split ctx).Sound node) : ReadSound s split ctx node := by
  intro e he
  obtain ⟨d, rfl, hd⟩ := h e he
  refine ⟨d, rfl, ?_⟩
  rw [hpools, hvalue]
  exact hd.counts

theorem readSound_number (value : Float) : ReadSound s split ctx (.number value) :=
  readSound_of_sound rfl (by funext roll; rw [readOn, valueOn]) (Reading.sound_number value)

theorem readSound_dice (hctx : ctx.pinned = none) (d : Dice) (id : Option ℕ)
    (modifier : Option Modifier) : ReadSound s split ctx (.dice d id modifier) :=
  readSound_of_sound (by rw [readPools, pools_dice]) (by funext roll; rw [readOn, valueOn])
    (Reading.sound_rolled_dice hctx d id modifier)

theorem readSound_group {inner : Node} (h : ReadSound s split ctx inner) :
    ReadSound s split ctx (.group inner) := by
  intro e he
  rw [walk_group] at he
  obtain ⟨d, rfl, hd⟩ := h e he
  exact ⟨d, rfl, counts_of_part (by rw [readPools]) (fun roll => by rw [readOn]) hd⟩

theorem readSound_binary (operation : Operation) {left right : Node}
    (hl : ReadSound s split ctx left) (hr : ReadSound s split ctx right) :
    ReadSound s split ctx (.binary operation left right) := by
  intro e he
  obtain ⟨el, er, d, part, hel, her, hd, rfl⟩ := walk_binary_eq_ok he
  obtain ⟨x, rfl, hx⟩ := hl el hel
  obtain ⟨y, rfl, hy⟩ := hr er her
  refine ⟨d, rfl, fun g => ?_⟩
  have hsum := sum_operation hx.nonneg hy.nonneg hx.sum_eq hy.sum_eq (combine_plain_eq_ok hd) g
  rw [one_mul, one_mul] at hsum
  rw [← hsum, List.map_map, List.map_map, readPools, sum_admittedRolls_append]
  refine congrArg List.sum (List.map_congr_left fun u hu => ?_)
  rw [Function.comp_apply, List.map_map]
  refine congrArg List.sum (List.map_congr_left fun v _ => ?_)
  rw [Function.comp_apply, Function.comp_apply, readOn, ← length_of_mem_admittedRolls hu,
    List.take_left, List.drop_left]

/-- The values of a list of nodes, from one roll for each of them. -/
theorem sum_readAllOn {items : List Node} (h : ∀ item ∈ items, ReadSound s split ctx item)
    {ds : List (Distribution ℚ)} (hds : walkAll s split items ctx = .ok ds) :
    (∀ d ∈ ds, d.Nonneg) ∧ ∀ g : Option (List Outcome) → ℚ,
      ((s.admittedRolls ctx (readPoolsAll ctx.criticalBranch items)).map fun roll =>
        g (readAllOn ctx.criticalBranch items roll)).sum
        = Distribution.sumOverAll ds fun vs => g (some vs) := by
  induction items generalizing ds with
  | nil =>
    rw [walkAll] at hds
    cases hds
    refine ⟨by simp, fun g => ?_⟩
    simp [readPoolsAll, readAllOn, Settings.admittedRolls, Distribution.sumOverAll]
  | cons node rest ih =>
    rw [walkAll] at hds
    simp only [bind_eq_ok, pure_eq_ok] at hds
    obtain ⟨first, hfirst, others, hothers, rfl⟩ := hds
    obtain ⟨d, rfl, hd⟩ := h node (List.mem_cons_self ..) first hfirst
    obtain ⟨hn, hrest⟩ := ih (fun item hi => h item (List.mem_cons_of_mem _ hi)) hothers
    refine ⟨?_, fun g => ?_⟩
    · intro d' hd'
      rcases List.mem_cons.1 hd' with rfl | hd'
      · exact hd.nonneg
      · exact hn d' hd'
    have hothers : ∀ g : Option (List Outcome) → ℚ,
        (((s.admittedRolls ctx (readPoolsAll ctx.criticalBranch rest)).map
          (readAllOn ctx.criticalBranch rest)).map g).sum
          = 1 * Distribution.sumOverAll others fun vs => g (some vs) := by
      intro g
      rw [List.map_map, one_mul]
      exact hrest g
    have hsum := sum_values hd.sum_eq hothers g
    rw [one_mul, one_mul] at hsum
    rw [Evaluation.distribution, ← hsum, List.map_map, readPoolsAll, sum_admittedRolls_append]
    refine congrArg List.sum (List.map_congr_left fun u hu => ?_)
    rw [Function.comp_apply, List.map_map]
    refine congrArg List.sum (List.map_congr_left fun v _ => ?_)
    rw [Function.comp_apply, readAllOn, ← length_of_mem_admittedRolls hu, List.take_left,
      List.drop_left]

theorem readSound_keep (hctx : ctx.pinned = none) (kind : KeepKind) (count : UInt32)
    {items : List Node} (h : ∀ item ∈ items, ReadSound s split ctx item) :
    ReadSound s split ctx (.keep kind count items) := by
  cases honly : onlyPool? items with
  | some p =>
    refine readSound_of_sound ?_ ?_ (Reading.sound_rolled_keep hctx kind count honly)
    · match items, honly with
      | [item], honly =>
        rw [readPools, readPoolsAll, readPools_of_strippedPool? _ honly, pools_keep,
          poolsAll_of_onlyPool? (show onlyPool? [item] = some p from honly)]
        rfl
    · funext roll
      simp only [readOn, valueOn, honly]
  | none =>
    intro e he
    obtain ⟨only?, values, d, hdie, hvalues, hd, rfl⟩ :=
      walk_keep_eq_ok (pinnedValue?_of_unpinned hctx _) he
    rw [onlyDie?_of_onlyPool?_eq_none honly] at hdie
    cases hdie
    obtain ⟨hn, hsum⟩ := sum_readAllOn h hvalues
    refine ⟨d, rfl, fun g => ?_⟩
    have hkeep := Distribution.sumOver_keep hn hd fun m => g (Outcome.ofHundredths? m)
    simp only [Outcome.ofHundredths?_hundredths] at hkeep
    rw [hkeep, List.map_map, readPools]
    simp only [Function.comp_def, readOn, honly]
    exact (hsum fun ovs => g (ovs.bind (kind.sum? count.toNat))).symm

theorem readSound_function (hctx : ctx.pinned = none) (name : FunctionName) {target : Node}
    (bound : Float) (h : ReadSound s split ctx target) :
    ReadSound s split ctx (.function name [target, .number bound]) := by
  have hpools : (function name [target, number bound]).readPools ctx.criticalBranch
      = target.readPools ctx.criticalBranch := by
    simp [readPools, readPoolsAll]
  cases heach : eachPool? name target with
  | some p =>
    have htarget := (eachPool?_eq_some.1 heach).2
    refine readSound_of_sound ?_ ?_ (Reading.sound_rolled_function hctx name bound heach)
    · rw [hpools, readPools_of_strippedPool? _ htarget]
      simp [pools_of_strippedPool? htarget]
    · funext roll
      simp only [readOn, valueOn, heach]
  | none =>
    intro e he
    obtain ⟨threshold, clamped?, hbound, hclamped, he⟩ := walk_function_eq_ok he
    obtain rfl := clampEach_of_eachPool?_eq_none heach hclamped
    obtain ⟨t, ht, rfl⟩ := he
    obtain ⟨d, rfl, hd⟩ := h t ht
    refine ⟨_, rfl, ?_⟩
    have hclamp := hd.map (name.clamp threshold)
    rw [List.map_map] at hclamp
    rw [hpools]
    refine (congrArg _ (List.map_congr_left fun roll _ => ?_)).mp hclamp
    simp only [Function.comp_apply, readOn, hbound, heach, Option.bind_some]

/-! ## 3. Parts that depend on a critical hit -/

theorem readSound_double {inner : Node} (h : ReadSound s split ctx inner) :
    ReadSound s split ctx (.double inner) := by
  intro e he
  obtain ⟨i, d, hi, rfl, hd⟩ := walk_double_eq_ok he
  obtain ⟨x, rfl, hx⟩ := h i hi
  refine ⟨d, rfl, fun g => ?_⟩
  rw [readPools, List.map_map]
  split at hd
  · next hcritical =>
    obtain ⟨part, hd⟩ := hd
    rw [Distribution.sumOver_tryMap (f := fun v => g (v.times? 2))
      (fun v c hc => by rw [times_eq_ok hc]) hx.nonneg hd]
    refine (hx fun o => g (o.bind fun v => v.times? 2)).trans ?_
    rw [List.map_map]
    simp only [Function.comp_def, readOn, hcritical, if_true]
  · next hcritical =>
    obtain rfl : d = x := hd
    rw [hx g, List.map_map]
    simp only [Function.comp_def, readOn, hcritical, Bool.false_eq_true, if_false,
      Option.bind_fun_some]

theorem readSound_switch {normal critical : Node} (hn : ReadSound s split ctx normal)
    (hc : ReadSound s split ctx critical) : ReadSound s split ctx (.switch normal critical) := by
  intro e he
  obtain ⟨i, hi, rfl⟩ := walk_switch_eq_ok he
  by_cases hcritical : ctx.criticalBranch = true
  · rw [if_pos hcritical] at hi
    obtain ⟨d, rfl, hd⟩ := hc i hi
    exact ⟨d, rfl, counts_of_part (by rw [readPools, if_pos hcritical])
      (fun roll => by rw [readOn, if_pos hcritical]) hd⟩
  · rw [if_neg hcritical] at hi
    obtain ⟨d, rfl, hd⟩ := hn i hi
    exact ⟨d, rfl, counts_of_part (by rw [readPools, if_neg hcritical])
      (fun roll => by rw [readOn, if_neg hcritical]) hd⟩

theorem readSound_only {inner : Node} (h : ReadSound s split ctx inner) :
    ReadSound s split ctx (.only inner) := by
  intro e he
  have he := walk_only_eq_ok he
  split at he
  · next hcritical =>
    obtain ⟨i, hi, rfl⟩ := he
    obtain ⟨d, rfl, hd⟩ := h i hi
    exact ⟨d, rfl, counts_of_part (by rw [readPools, if_pos hcritical])
      (fun roll => by rw [readOn, if_pos hcritical]) hd⟩
  · next hcritical =>
    -- nothing is rolled, and the value is `0`
    subst he
    refine ⟨_, rfl, fun g => ?_⟩
    rw [Bool.eq_false_iff.2 hcritical, readPools, if_neg Bool.false_ne_true,
      Distribution.sumOver_point]
    simp [Settings.admittedRolls, readOn]

/-! ## 4. Whole formulas -/

/-- **Each reading counts the rolls of its dice** with admitted faces. -/
theorem Wrapped.readSound {node : Node} (h : node.Wrapped) (hctx : ctx.pinned = none) :
    ReadSound s split ctx node := by
  induction h with
  | number value => exact readSound_number value
  | dice d id modifier => exact readSound_dice hctx d id modifier
  | keep kind count _ ih => exact readSound_keep hctx kind count ih
  | binary operation _ _ ihl ihr => exact readSound_binary operation ihl ihr
  | double _ ih => exact readSound_double ih
  | switch _ _ ihn ihc => exact readSound_switch ihn ihc
  | only _ ih => exact readSound_only ih
  | function name bound _ ih => exact readSound_function hctx name bound ih
  | group _ ih => exact readSound_group ih

end Node

/-! ## 5. The dice of a reading -/

/-- The marked dice of a list of literals. -/
def markedPools (pools : List Pool) : List Pool := pools.filter (·.dice.critical)

theorem markedPools_cons (p : Pool) (ps : List Pool) :
    markedPools (p :: ps) = if p.dice.critical then p :: markedPools ps else markedPools ps :=
  List.filter_cons

theorem markedPools_append (ps qs : List Pool) :
    markedPools (ps ++ qs) = markedPools ps ++ markedPools qs :=
  List.filter_append _ _

theorem any_critical_eq (pools : List Pool) :
    pools.any (·.dice.critical) = !(markedPools pools).isEmpty := by
  induction pools with
  | nil => rfl
  | cons p ps ih =>
    rw [List.any_cons, markedPools_cons, ih]
    cases p.dice.critical <;> rfl

namespace Node

variable {critical : Bool}

theorem readPoolsAll_sublist {nodes : List Node}
    (h : ∀ node ∈ nodes, (node.readPools critical).Sublist node.pools) :
    (readPoolsAll critical nodes).Sublist (poolsAll nodes) := by
  induction nodes with
  | nil => rw [readPoolsAll]; exact List.nil_sublist _
  | cons node rest ih =>
    rw [readPoolsAll, poolsAll_cons]
    exact (h node (List.mem_cons_self ..)).append
      (ih fun item hi => h item (List.mem_cons_of_mem _ hi))

/-- A reading rolls some of the dice of the formula. -/
theorem Wrapped.readPools_sublist {node : Node} (h : node.Wrapped) :
    (node.readPools critical).Sublist node.pools := by
  induction h with
  | number value => exact List.Sublist.refl _
  | dice d id modifier => rw [readPools]; exact List.Sublist.refl _
  | keep kind count _ ih => rw [readPools, pools_keep]; exact readPoolsAll_sublist ih
  | binary operation _ _ ihl ihr => rw [readPools, pools_binary]; exact ihl.append ihr
  | double _ ih => rw [readPools]; exact ih
  | switch _ _ ihn ihc =>
    rw [readPools, pools_switch]
    split
    · exact ihc.trans (List.sublist_append_right ..)
    · exact ihn.trans (List.sublist_append_left ..)
  | only _ ih =>
    rw [readPools]
    split
    · exact ih
    · exact List.nil_sublist _
  | function name bound _ ih => simpa [readPools, readPoolsAll] using ih
  | group _ ih => rw [readPools]; exact ih

/-- Nothing that depends on a critical hit decides about it. -/
def MarksOutside (node : Node) : Prop :=
  ∀ n ∈ node.subterms, n.isCriticalWrapper = true → n.hasCriticalDice = false

instance (node : Node) : Decidable node.MarksOutside :=
  inferInstanceAs (Decidable (∀ n ∈ node.subterms, n.isCriticalWrapper = true →
    n.hasCriticalDice = false))

theorem MarksOutside.mono {node part : Node} (h : node.MarksOutside)
    (hsub : part.subterms ⊆ node.subterms) : part.MarksOutside :=
  fun n hn => h n (hsub hn)

theorem markedPools_readPoolsAll {nodes : List Node}
    (h : ∀ node ∈ nodes, markedPools (node.readPools critical) = markedPools node.pools) :
    markedPools (readPoolsAll critical nodes) = markedPools (poolsAll nodes) := by
  induction nodes with
  | nil => rw [readPoolsAll, poolsAll_nil]
  | cons node rest ih =>
    rw [readPoolsAll, poolsAll_cons, markedPools_append, markedPools_append]
    exact congrArg₂ (· ++ ·) (h node (List.mem_cons_self ..))
      (ih fun item hi => h item (List.mem_cons_of_mem _ hi))

/-- What has no marked dice has none in any reading. -/
theorem Wrapped.markedPools_of_unmarked {node : Node} (h : node.Wrapped) (critical : Bool)
    (hnone : node.hasCriticalDice = false) :
    markedPools (node.readPools critical) = [] ∧ markedPools node.pools = [] := by
  have hpools : markedPools node.pools = [] := by
    rw [hasCriticalDice_eq, List.any_eq_false] at hnone
    exact List.filter_eq_nil_iff.2 hnone
  have hsub : (markedPools (node.readPools critical)).Sublist (markedPools node.pools) :=
    h.readPools_sublist.filter _
  rw [hpools] at hsub
  exact ⟨List.sublist_nil.1 hsub, hpools⟩

/-- **The dice that decide are rolled in both readings**, if they are marked outside of what
depends on a critical hit. -/
theorem Wrapped.markedPools_readPools {node : Node} (h : node.Wrapped) (hout : node.MarksOutside) :
    markedPools (node.readPools critical) = markedPools node.pools := by
  -- a wrapper has no marked dice, whatever is rolled of it
  have hwrapper : ∀ {node : Node}, node.Wrapped → node.MarksOutside →
      node.isCriticalWrapper = true →
      markedPools (node.readPools critical) = markedPools node.pools := by
    intro node h hout hwrap
    obtain ⟨hread, hall⟩ := h.markedPools_of_unmarked critical
      (hout node (mem_subterms_self node) hwrap)
    rw [hread, hall]
  induction h with
  | number value => rfl
  | dice d id modifier => rw [readPools, pools_dice]
  | keep kind count _ ih =>
    rw [readPools, pools_keep]
    refine markedPools_readPoolsAll fun item hi => ih item hi (hout.mono fun n hn => ?_)
    rw [subterms]
    exact List.mem_cons_of_mem _ (mem_subtermsAll.2 ⟨item, hi, hn⟩)
  | @binary operation left right _ _ ihl ihr =>
    rw [readPools, pools_binary, markedPools_append, markedPools_append]
    rw [MarksOutside, subterms] at hout
    exact congrArg₂ (· ++ ·)
      (ihl fun n hn => hout n (List.mem_cons_of_mem _ (List.mem_append_left _ hn)))
      (ihr fun n hn => hout n (List.mem_cons_of_mem _ (List.mem_append_right _ hn)))
  | double h _ => exact hwrapper (.double h) hout rfl
  | switch hn hc _ _ => exact hwrapper (.switch hn hc) hout rfl
  | only h _ => exact hwrapper (.only h) hout rfl
  | @function name target bound _ ih =>
    have htarget := ih (hout.mono fun n hn => by simp [subterms, subtermsAll, hn])
    simpa [readPools, readPoolsAll] using htarget
  | @group inner _ ih =>
    rw [readPools, pools_group]
    exact ih (hout.mono fun n hn => by simp [subterms, hn])

end Node

end DiceOdds
