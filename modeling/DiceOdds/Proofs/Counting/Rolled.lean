import DiceOdds.Proofs.Counting.Walk
import DiceOdds.Evaluation.Split

/-!
# Rolling all dice

Where no value is fixed, every literal is rolled, and an evaluation counts the elementary rolls of
all dice: each value weighs as much as there are rolls that lead to it.  Where critical dice are
limited to some faces, the rolls are those in which they show such a face.

All leaves have the same shape here.  A single die counts its lists of faces, and a literal takes
one list for each of its dice, whatever then becomes of their values.
-/

namespace DiceOdds

variable {s : Settings ℚ} {ctx : Context}

/-! ## 1. One literal -/

/-- Whether all dice show a face that the reading admits. -/
def Settings.admitsRoll (s : Settings ℚ) (ctx : Context) (p : Pool) (roll : PoolRoll) : Bool :=
  roll.all fun die => s.admits ctx p.dice (p.decidingFace die)

/-- One die of a literal counts its rolls with an admitted face. -/
theorem counts_die {p : Pool} {die : Distribution ℚ} (h : s.die ctx p.dice p.modifier = .ok die) :
    die.Counts ((p.dieRolls.filter fun roll => s.admits ctx p.dice (p.decidingFace roll)).map
      p.dieValue?) := by
  obtain ⟨dice, modifier⟩ := p
  rcases modifier with _ | ⟨range, limit⟩ | ⟨kind, success, explode, limit⟩
  · cases h
    exact Distribution.counts_ofFaces dice _
  · exact Distribution.counts_rerolled h
  · exact Distribution.counts_exploding h

/-- A choice of an admitted roll for each die is an admitted roll of the literal. -/
theorem sum_admitted (p : Pool) (F : PoolRoll → ℚ) :
    (((List.replicate p.dice.count.toNat (p.dieRolls.filter fun roll =>
        s.admits ctx p.dice (p.decidingFace roll))).sections).map F).sum
      = ((p.rolls.filter (s.admitsRoll ctx p)).map F).sum := by
  rw [← List.map_replicate, sum_sections_filter, sum_filter]
  rfl

/-- The sum of the dice counts the admitted rolls of the literal. -/
theorem counts_sum {p : Pool} {die sum : Distribution ℚ} {value : DieRoll → Option Outcome}
    (hdie : die.Counts ((p.dieRolls.filter fun roll =>
      s.admits ctx p.dice (p.decidingFace roll)).map value))
    (h : die.sumOfCopies p.dice.count.toNat = .ok sum) :
    sum.Counts ((p.rolls.filter (s.admitsRoll ctx p)).map fun roll =>
      (roll.mapM value).bind Outcome.sum?) := by
  intro g
  rw [hdie.sumOfCopies h g, List.map_map, List.map_map, sum_admitted]

/-- Keeping some of the dice counts the admitted rolls of the literal. -/
theorem counts_kept {p : Pool} {die kept : Distribution ℚ} {kind : KeepKind} {count : ℕ}
    (hdie : s.die ctx p.dice p.modifier = .ok die)
    (h : Distribution.keep (List.replicate p.dice.count.toNat die) count kind = .ok kept) :
    kept.Counts ((p.rolls.filter (s.admitsRoll ctx p)).map (p.kept? kind count)) := by
  intro g
  have hitems := forall₂_replicate (R := fun (d : Distribution ℚ) (l : List DieRoll) =>
    d.Counts (l.map p.dieValue?)) (counts_die hdie) p.dice.count.toNat
  have hkeep := Distribution.counts_keep hitems h g
  rw [List.map_map, sum_admitted] at hkeep
  rw [hkeep, List.map_map]
  rfl

/-- Limiting each of the dice counts the admitted rolls of the literal. -/
theorem counts_clamped {p : Pool} {die sum : Distribution ℚ} {name : FunctionName}
    {threshold : Outcome} (hdie : s.die ctx p.dice p.modifier = .ok die)
    (h : (die.clamp name threshold).sumOfCopies p.dice.count.toNat = .ok sum) :
    sum.Counts ((p.rolls.filter (s.admitsRoll ctx p)).map (p.clampedSum? name threshold)) := by
  have hclamp := (counts_die hdie).map (name.clamp threshold)
  rw [List.map_map] at hclamp
  have hsum := counts_sum hclamp h
  refine (congrArg sum.Counts (List.map_congr_left fun roll _ => ?_)).mp hsum
  rw [Function.comp_def, mapM_map, Option.bind_map]
  rfl

namespace Node

theorem pinnedValue?_of_unpinned (h : ctx.pinned = none) (node : Node) :
    ctx.pinnedValue? node = none := by
  rw [Context.pinnedValue?, h]

/-- The die of a literal in parentheses. -/
theorem die?_eq_ok {node : Node} {p : Pool} {found : Option (Distribution ℚ × ℕ)}
    (hctx : ctx.pinned = none) (hp : node.strippedPool? = some p)
    (h : node.die? s ctx = .ok found) :
    ∃ die, found = some (die, p.dice.count.toNat) ∧ s.die ctx p.dice p.modifier = .ok die := by
  induction node using stripGroups.induct with
  | case1 inner ih => exact ih hp h
  | case2 node hnode =>
    rw [strippedPool?, stripGroups] at hp
    · cases node with
      | dice d id modifier =>
        cases hp
        rw [die?, hctx] at h
        obtain ⟨die, hdie, h⟩ := bind_eq_ok.1 h
        exact ⟨die, (pure_eq_ok.1 h).symm, orBlame_eq_ok.1 hdie⟩
      | _ => cases hp
    · exact hnode

/-- Where no value is fixed, a literal is the sum of its dice. -/
theorem roll_eq_ok {d : Dice} {id : Option ℕ} {modifier : Option Modifier} {x : Distribution ℚ}
    (hctx : ctx.pinned = none) (h : s.roll ctx (dice d id modifier) = .ok x) :
    ∃ die, s.die ctx d modifier = .ok die ∧ die.sumOfCopies d.count.toNat = .ok x := by
  obtain ⟨found, hfound, h⟩ := bind_eq_ok.1 h
  obtain ⟨die, rfl, hdie⟩ := die?_eq_ok (p := ⟨d, modifier⟩) hctx rfl hfound
  exact ⟨die, hdie, orBlame_eq_ok.1 h⟩

/-- Where no value is fixed, a function on single dice limits each of them. -/
theorem clampEach_eq_ok {name : FunctionName} {target : Node} {bound : Outcome}
    {clamped? : Option (Distribution ℚ)} (hctx : ctx.pinned = none)
    (h : s.clampEach ctx name target bound = .ok clamped?) :
    name.perDie = false ∧ clamped? = none
      ∨ name.perDie = true ∧ ∃ found, target.die? s ctx = .ok found
        ∧ (found = none ∧ clamped? = none
          ∨ ∃ die n sum, found = some (die, n)
            ∧ (die.clamp name bound).sumOfCopies n = .ok sum ∧ clamped? = some sum) := by
  have hpinned : s.clampPinned ctx name target bound = .ok none := by
    rw [Settings.clampPinned, pinnedValue?_of_unpinned hctx]
  unfold Settings.clampEach at h
  split at h
  · next hname =>
    rw [hpinned] at h
    refine .inr ⟨hname, ?_⟩
    obtain ⟨pinned, hnone, h⟩ := bind_eq_ok.1 h
    obtain rfl : none = pinned := Except.ok.inj hnone
    obtain ⟨found, hfound, h⟩ := bind_eq_ok.1 h
    refine ⟨found, hfound, ?_⟩
    cases found with
    | none => exact .inl ⟨rfl, (pure_eq_ok.1 h).symm⟩
    | some pair =>
      obtain ⟨die, n⟩ := pair
      obtain ⟨sum, hsum, h⟩ := bind_eq_ok.1 h
      exact .inr ⟨die, n, sum, rfl, orBlame_eq_ok.1 hsum, (pure_eq_ok.1 h).symm⟩
  · next hname =>
    cases h
    exact .inl ⟨Bool.eq_false_iff.2 hname, rfl⟩

end Node

/-! ## 2. Leaves -/

/-- The reading in which all dice are rolled; weights are numbers of rolls. -/
def Reading.rolled (s : Settings ℚ) (split : SplitCheck ℚ) (ctx : Context) : Reading where
  settings := s
  split
  ctx
  given _ := none
  admitted group := group.pool.rolls.filter (s.admitsRoll ctx group.pool)
  units := ⊥

namespace Reading

variable {split : SplitCheck ℚ}

/-- A node about the dice of one literal, if it counts their admitted rolls. -/
theorem counted_of_pool {node : Node} {p : Pool} {d : Distribution ℚ}
    {value : PoolRoll → Option Outcome} (hpools : node.pools = [p])
    (hvalue : ∀ cell, node.valueOn (fun _ => none) [cell] = value cell)
    (h : d.Counts ((p.rolls.filter (s.admitsRoll ctx p)).map value)) :
    (rolled s split ctx).Counted node d := by
  refine ⟨h.nonneg, 1, Submonoid.one_mem _, fun g => ?_⟩
  have hgroups := node.groups_pools
  rw [hpools] at hgroups
  obtain ⟨group, hgroup, rfl⟩ := List.map_eq_singleton_iff.1 hgroups
  rw [one_mul, h g, rolls, hgroup, List.map_singleton, sum_sections_cons, List.map_map]
  refine congrArg List.sum (List.map_congr_left fun cell _ => ?_)
  have hcell : node.valueOn (rolled s split ctx).given [cell] = value cell := hvalue cell
  simp [hcell]

theorem sound_rolled_dice (hctx : ctx.pinned = none) (d : Dice) (id : Option ℕ)
    (modifier : Option Modifier) : (rolled s split ctx).Sound (.dice d id modifier) := by
  intro e he
  obtain ⟨sum, hroll, rfl⟩ := Node.walk_dice_eq_ok (Node.pinnedValue?_of_unpinned hctx _) he
  obtain ⟨die, hdie, hsum⟩ := Node.roll_eq_ok hctx hroll
  exact ⟨sum, rfl, counted_of_pool (p := ⟨d, modifier⟩) (Node.pools_dice d id modifier)
    (fun cell => by simp only [Node.valueOn, List.headD_cons, Pool.sum?, Pool.values?])
    (counts_sum (counts_die hdie) hsum)⟩

theorem sound_rolled_keep (hctx : ctx.pinned = none) (kind : KeepKind) (count : UInt32)
    {items : List Node} {p : Pool} (h : Node.onlyPool? items = some p) :
    (rolled s split ctx).Sound (.keep kind count items) := by
  intro e he
  obtain ⟨only?, values, kept, honly, hvalues, hkept, rfl⟩ :=
    Node.walk_keep_eq_ok (Node.pinnedValue?_of_unpinned hctx _) he
  refine ⟨kept, rfl, ?_⟩
  have hdie : ∃ die, only? = some (die, p.dice.count.toNat)
      ∧ s.die ctx p.dice p.modifier = .ok die := by
    match items, h with
    | [item], h => exact Node.die?_eq_ok hctx h honly
  obtain ⟨die, rfl, hdie⟩ := hdie
  obtain rfl : values = List.replicate p.dice.count.toNat die := hvalues
  refine counted_of_pool ?_ (fun cell => ?_) (counts_kept hdie hkept)
  · rw [Node.pools_keep, Node.poolsAll_of_onlyPool? h]
  · simp only [Node.valueOn, h, List.headD_cons]

theorem sound_rolled_function (hctx : ctx.pinned = none) (name : FunctionName) {target : Node}
    (bound : Float) {p : Pool} (h : Node.eachPool? name target = some p) :
    (rolled s split ctx).Sound (.function name [target, .number bound]) := by
  intro e he
  obtain ⟨threshold, clamped?, hbound, hclamped, he⟩ := Node.walk_function_eq_ok he
  obtain ⟨hname, htarget⟩ := Node.eachPool?_eq_some.1 h
  rcases Node.clampEach_eq_ok hctx hclamped with ⟨hname', -⟩ | ⟨-, found, hfound, hfound'⟩
  · rw [hname] at hname'
    cases hname'
  obtain ⟨die, rfl, hdie⟩ := Node.die?_eq_ok hctx htarget hfound
  obtain ⟨hnone, -⟩ | ⟨_, _, sum, hsome, hsum, rfl⟩ := hfound'
  · cases hnone
  obtain ⟨rfl, rfl⟩ := Prod.mk.inj (Option.some.inj hsome)
  obtain rfl : e = .plain sum := he
  refine ⟨sum, rfl, counted_of_pool ?_ (fun cell => ?_)
    (counts_clamped hdie hsum)⟩
  · rw [Node.pools_function, Node.poolsAll_cons, Node.pools_of_strippedPool? htarget]
    rfl
  · simp only [Node.valueOn, hbound, h, Option.bind_some, List.headD_cons]

/-! ## 3. Whole formulas -/

/-- **An arithmetic formula without references counts its rolls** with admitted faces. -/
theorem sound_rolled (hctx : ctx.pinned = none) {node : Node} (h : node.Arithmetic)
    (href : node.hasReference = false) : (rolled s split ctx).Sound node := by
  have hnone : ∀ id critical, Node.reference id critical ∉ node.subterms := by
    intro id critical hmem
    rw [Node.hasReference, List.any_eq_false] at href
    exact href _ hmem rfl
  refine sound_of_leaves (fun n => n.Leaf ∧ n ∈ node.subterms)
    (h.built fun n hn _ hleaf => ⟨hleaf, hn⟩) ?_
  rintro n ⟨hleaf, hn⟩
  cases hleaf with
  | dice d id modifier => exact sound_rolled_dice hctx d id modifier
  | reference id critical => exact absurd hn (hnone id critical)
  | keep kind count h => exact sound_rolled_keep hctx kind count h
  | function name bound h => exact sound_rolled_function hctx name bound h

end Reading

/-- The rolls of some literals in which all dice show a face that the reading admits. -/
def Settings.admittedRolls (s : Settings ℚ) (ctx : Context) (pools : List Pool) : List Roll :=
  (pools.map fun p => p.rolls.filter (s.admitsRoll ctx p)).sections

theorem Reading.Counted.counts {split : SplitCheck ℚ} {node : Node} {d : Distribution ℚ}
    (h : (rolled s split ctx).Counted node d) :
    d.Counts ((s.admittedRolls ctx node.pools).map (node.valueOn fun _ => none)) := by
  obtain ⟨-, c, hc, hsum⟩ := h
  obtain rfl := Submonoid.mem_bot.1 hc
  intro g
  rw [← one_mul (d.sumOver _), ← hsum g, List.map_map, Settings.admittedRolls,
    ← node.groups_pools, List.map_map]
  rfl

/-- What the walk over an arithmetic formula counts. -/
theorem counts_walk {split : SplitCheck ℚ} {node : Node} {e : Evaluation ℚ}
    (hctx : ctx.pinned = none) (h : node.Arithmetic) (href : node.hasReference = false)
    (he : node.walk s split ctx = .ok e) :
    ∃ d, e = .plain d ∧ d.Counts ((s.admittedRolls ctx node.pools).map
      (node.valueOn fun _ => none)) := by
  obtain ⟨d, rfl, hd⟩ := Reading.sound_rolled hctx h href e he
  exact ⟨d, rfl, hd.counts⟩

theorem Node.values_eq_ok {node : Node} {ctx : Context} {d : Distribution ℚ}
    (h : node.values s ctx = .ok d) :
    ∃ e, node.evaluate s ctx = .ok e ∧ e.distribution = d := by
  obtain ⟨e, he, h⟩ := bind_eq_ok.1 h
  exact ⟨e, he, pure_eq_ok.1 h⟩

/-! ## 4. Elementary rolls -/

theorem Settings.admits_of_unrestricted (hctx : ctx.restrictCritical = false) (d : Dice)
    (face : ℕ) : s.admits ctx d face = true := by
  unfold admits
  cases s.rate with
  | none => rfl
  | some rate => simp [hctx]

theorem Settings.admitsRoll_of_unrestricted (hctx : ctx.restrictCritical = false) (p : Pool)
    (roll : PoolRoll) : s.admitsRoll ctx p roll = true := by
  rw [admitsRoll, List.all_eq_true]
  exact fun die _ => admits_of_unrestricted hctx p.dice _

/-- Where no face is excluded, the rolls are all elementary rolls. -/
theorem Settings.admittedRolls_of_unrestricted (hctx : ctx.restrictCritical = false)
    (pools : List Pool) : s.admittedRolls ctx pools = allRolls pools := by
  rw [admittedRolls, allRolls]
  refine congrArg List.sections (List.map_congr_left fun p _ => ?_)
  exact List.filter_eq_self.2 fun roll _ => admitsRoll_of_unrestricted hctx p roll

/-- **The weight of a value is the number of elementary rolls with that value.** -/
theorem weightOf_evaluate {node : Node} {e : Evaluation ℚ} (h : node.Arithmetic)
    (href : node.hasReference = false) (he : node.evaluate s {} = .ok e) (v : Outcome) :
    e.distribution.weightOf v
      = (allRolls node.pools).countP fun roll => node.valueOn (fun _ => none) roll = some v := by
  obtain ⟨d, rfl, hd⟩ := counts_walk rfl h href he
  rw [Evaluation.distribution, hd.weightOf_map, Settings.admittedRolls_of_unrestricted rfl]

/-- `kh(2d2)+min(1d3r1,2)+min_each(2d3,2)`: the greater of two dice, a die that rolls a `1` again
and counts at most `2`, and two dice that count at most `2` each. -/
def keptAndLimited : Node :=
  .binary .add
    (.binary .add (.keep .highest 1 [.dice ⟨2, 2, false⟩ none none])
      (.function .min [.dice ⟨1, 3, false⟩ none (some (.reroll ⟨1, 1⟩ 1)), .number 2.0]))
    (.function .minEach [.dice ⟨2, 3, false⟩ none none, .number 2.0])

set_option maxRecDepth 4000 in
theorem weightOf_evaluate_keptAndLimited :
    ∃ e : Evaluation ℚ, keptAndLimited.evaluate {} {} = .ok e
      ∧ e.distribution.weightOf (Outcome.ofInt 7) = 140 := by
  have hok : (keptAndLimited.evaluate ({} : Settings ℚ) {}).isOk = true := by decide +kernel
  have hkept : (Node.keep .highest 1 [.dice ⟨2, 2, false⟩ none none]).Arithmetic :=
    .keep .highest 1 fun item hitem => by
      obtain rfl := List.mem_singleton.1 hitem
      exact .dice _ _ _
  have harith : keptAndLimited.Arithmetic :=
    .binary .add (.binary .add hkept (.function .min 2.0 (.dice _ _ _)))
      (.function .minEach 2.0 (.dice _ _ _))
  cases he : keptAndLimited.evaluate ({} : Settings ℚ) {} with
  | error _ => rw [he] at hok; cases hok
  | ok e =>
    have hcount : (allRolls keptAndLimited.pools).countP (fun roll =>
        keptAndLimited.valueOn (fun _ => none) roll = some (Outcome.ofInt 7)) = 140 := by
      decide +kernel
    refine ⟨e, rfl, ?_⟩
    rw [weightOf_evaluate harith rfl he, hcount]
    rfl

end DiceOdds
