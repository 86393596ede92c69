import DiceOdds.Proofs.Dangling.Filled
import DiceOdds.Proofs.Dangling.Reads
import DiceOdds.Proofs.Safety.Answer
import DiceOdds.Report

/-!
# Dangling references are fatal where they are looked at

A reference that names no dice of the formula makes a calculation fail if the calculation looks at
it.  `Node.AsksFor` says where that is.

## What is not looked at

In a formula with dice the values of all dice are fixed in turn, and each combination is evaluated
in one reading: of a conditional only the branch that the combination takes, and of `[e]` and
`|a|b|` only the part that belongs to the reading.  A reference in a branch that no combination
takes, or in a part whose reading does not occur, is never resolved.  Everything else is looked at,
because there is a combination: dice have values, in doubles as well as in fractions (`Filled`).
-/

namespace DiceOdds

variable {W : Type} [Weight W]

/-! ## 1. Combinations -/

/-- All ways to fix values for the groups, in addition to values that are fixed already. -/
def allPins : List (DiceGroup W) → Pins → List Pins
  | [], pins => [pins]
  | group :: rest, pins =>
    group.2.toList.flatMap fun p => allPins rest ((group.1, p.1) :: pins)

omit [Weight W] in
theorem exists_mem_allPins {groups : List (DiceGroup W)} (h : ∀ g ∈ groups, g.2.toList ≠ [])
    (pins : Pins) : ∃ p, p ∈ allPins groups pins := by
  induction groups generalizing pins with
  | nil => exact ⟨pins, List.mem_singleton_self pins⟩
  | cons group rest ih =>
    obtain ⟨hgroup, hrest⟩ := List.forall_mem_cons.1 h
    obtain ⟨v, hv⟩ := List.exists_mem_of_ne_nil _ hgroup
    obtain ⟨p, hp⟩ := ih hrest ((group.1, v.1) :: pins)
    exact ⟨p, List.mem_flatMap.2 ⟨v, hv, hp⟩⟩

/-- A loop that succeeds has gone through each of its elements. -/
theorem exists_step_of_foldlM {α σ ε : Type} {step : σ → α → Except ε σ} {l : List α} {s s' : σ}
    (h : l.foldlM step s = .ok s') {a : α} (ha : a ∈ l) : ∃ t t', step t a = .ok t' :=
  foldlM_reaches step (fun _ => True) (fun _ => ∃ t t', step t a = .ok t') h trivial
    (fun _ _ _ _ _ _ => trivial) ha (fun t t' _ hstep => ⟨t, t', hstep⟩) fun _ _ _ _ h _ => h

/-- Going through combinations visits each of them. -/
theorem exists_visit {σ : Type} {visit : σ → Pins → W → Except EvalError σ}
    {groups : List (DiceGroup W)} {pins : Pins} {weight : W} {state out : σ}
    (h : forCombinations visit groups pins weight state = .ok out) {p : Pins}
    (hp : p ∈ allPins groups pins) : ∃ state weight state', visit state p weight = .ok state' := by
  induction groups generalizing pins weight state out with
  | nil =>
    obtain rfl := List.mem_singleton.1 hp
    exact ⟨state, weight, out, h⟩
  | cons group rest ih =>
    obtain ⟨v, hv, hp⟩ := List.mem_flatMap.1 hp
    obtain ⟨t, t', hstep⟩ := exists_step_of_foldlM h hv
    exact ih hstep hp

/-- **Every group of dice has values.** -/
theorem filled_diceGroups [CountingWeight W] {s : Settings W} {root : Node}
    (hsides : ∀ n ∈ root.subterms, ∀ d, n.literal? = some d → d.sides ≠ 0)
    (hregistry : ∀ d ∈ s.registry, d.sides ≠ 0) {groups : List (DiceGroup W)}
    (h : diceGroups s root = .ok groups) : ∀ g ∈ groups, g.2.Filled := by
  refine forall_mem_diceGroups h (fun _ node values hnode hvalues => ?_) fun d hd pool hpool => ?_
  · refine Node.filled_values (Node.definingId?_of_definition? hnode) (fun n hn => ?_) hvalues
    exact hsides n (Node.subterms_subset_of_mem (Node.definition?_mem hnode) hn)
  · exact Distribution.filled_dicePool (fun hzero => hregistry d hd (UInt32.toNat_inj.1 hzero)) hpool

/-! ## 2. What a formula asks for -/

namespace Node

variable {s : Settings W} {root : Node} {groups : List (DiceGroup W)} {id : UInt32}

/-- The formula is evaluated as a whole: there are no dice, or it is no conditional. -/
def IsWhole (s : Settings W) (root : Node) : Prop :=
  s.registry = [] ∨ ∀ condition ifTrue ifFalse,
    root.stripGroups ≠ .conditional condition ifTrue ifFalse

/-- The calculation of a formula looks at a reference to this id. -/
inductive AsksFor (s : Settings W) (root : Node) (id : UInt32) : Prop where
  /-- It stands outside of everything that depends on a critical hit. -/
  | always {mark mark' : Bool} (hwhole : root.IsWhole s)
      (hnormal : root.Reads false (reference id mark))
      (hcritical : root.Reads true (reference id mark')) : AsksFor s root id
  /-- It stands in the normal reading, and no dice decide between the readings. -/
  | normal {mark : Bool} (hwhole : root.IsWhole s)
      (hreading : wantsMixture s root = false ∨ s.registry = [] ∨ root.criticalIds = [])
      (h : root.Reads false (reference id mark)) : AsksFor s root id
  /-- It stands in the critical reading, and no dice decide between the readings. -/
  | critical {mark : Bool} (hmix : wantsMixture s root = true)
      (hreading : s.registry = [] ∨ root.criticalIds = [])
      (h : root.Reads true (reference id mark)) : AsksFor s root id
  /-- It stands in the reading that the values of some combination decide for. -/
  | decided {mark : Bool} {groups : List (DiceGroup W)} {pins : Pins} (hdice : s.registry ≠ [])
      (hmix : wantsMixture s root = true) (hgroups : diceGroups s root = .ok groups)
      (hpins : pins ∈ allPins groups [])
      (h : root.Reads (isCriticalCombination s root.criticalIds pins) (reference id mark)) :
      AsksFor s root id
  /-- It stands in the condition of the formula. -/
  | condition {mark : Bool} {condition ifTrue ifFalse : Node} (hdice : s.registry ≠ [])
      (hroot : root.stripGroups = .conditional condition ifTrue ifFalse)
      (h : condition.Reads false (reference id mark)) : AsksFor s root id
  /-- It stands in the first branch, and the condition holds for some combination. -/
  | hit {mark : Bool} {condition ifTrue ifFalse left right : Node} {relation : Relation}
      {groups : List (DiceGroup W)} {pins : Pins} (hdice : s.registry ≠ [])
      (hroot : root.stripGroups = .conditional condition ifTrue ifFalse)
      (hcondition : condition.comparison? = some (relation, left, right))
      (hgroups : diceGroups s root = .ok groups) (hpins : pins ∈ allPins groups [])
      (hholds : holdsPinned s relation left right pins = .ok true)
      (h : ifTrue.Reads (isCriticalCombination s (decidingIds s condition) pins)
        (reference id mark)) : AsksFor s root id
  /-- It stands in the second branch, and the condition fails for some combination. -/
  | miss {mark : Bool} {condition ifTrue ifFalse left right : Node} {relation : Relation}
      {groups : List (DiceGroup W)} {pins : Pins} (hdice : s.registry ≠ [])
      (hroot : root.stripGroups = .conditional condition ifTrue ifFalse)
      (hcondition : condition.comparison? = some (relation, left, right))
      (hgroups : diceGroups s root = .ok groups) (hpins : pins ∈ allPins groups [])
      (hholds : holdsPinned s relation left right pins = .ok false)
      (h : ifFalse.Reads false (reference id mark)) : AsksFor s root id

/-! ## 3. Looking through parentheses -/

theorem Reads.of_stripGroups {critical : Bool} {node n : Node} (h : node.stripGroups.Reads critical n) :
    node.Reads critical n := by
  induction node using stripGroups.induct with
  | case1 inner ih => exact .part (List.mem_singleton_self inner) (ih h)
  | case2 node hnode =>
    cases node with
    | group inner => exact absurd rfl (hnode inner)
    | _ => exact h

/-- A comparison looks at what its two sides look at. -/
theorem Reads.of_comparison? {critical mark : Bool} {node left right : Node} {relation : Relation}
    (hnode : node.comparison? = some (relation, left, right))
    (h : node.Reads critical (reference id mark)) :
    left.Reads critical (reference id mark) ∨ right.Reads critical (reference id mark) := by
  induction node using stripGroups.induct with
  | case1 inner ih =>
    cases h with
    | part hpart h =>
      obtain rfl := List.mem_singleton.1 hpart
      exact ih hnode h
  | case2 node hplain =>
    cases node with
    | group inner => exact absurd rfl (hplain inner)
    | comparison r a b =>
      cases hnode
      cases h with
      | part hpart h =>
        simp only [partsRead, parts, List.mem_cons, List.not_mem_nil, or_false] at hpart
        rcases hpart with rfl | rfl
        · exact .inl h
        · exact .inr h
    | _ => cases hnode

omit [Weight W] in
theorem wantsMixture_of_conditional {condition ifTrue ifFalse : Node}
    (h : root.stripGroups = .conditional condition ifTrue ifFalse) :
    wantsMixture s root = false := by
  rw [wantsMixture, h, Bool.and_false]

omit [Weight W] in
theorem wantsMixture_of_comparison {relation : Relation} {left right : Node}
    (h : root.stripGroups = .comparison relation left right) : wantsMixture s root = false := by
  rw [wantsMixture, h, Bool.and_false]

/-- A comparison with fixed values has looked at both of its sides. -/
theorem registered_of_holdsPinned {relation : Relation} {left right : Node} {pins : Pins}
    {holds mark : Bool} (hholds : holdsPinned s relation left right pins = .ok holds)
    (h : left.Reads false (reference id mark) ∨ right.Reads false (reference id mark)) :
    (s.registry.get? id.toNat).isSome = true := by
  obtain ⟨check, hcheck, -⟩ := bind_eq_ok.1 hholds
  obtain ⟨l, hl, hcheck⟩ := bind_eq_ok.1 hcheck
  obtain ⟨r, hr, -⟩ := bind_eq_ok.1 hcheck
  rcases h with h | h
  · exact h.registered_of_values rfl hl
  · exact h.registered_of_values rfl hr

/-! ## 4. Formulas with dice -/

variable {e : Evaluation W}

/-- A formula evaluated as it stands, once for each combination. -/
theorem exists_values_of_reusePlain {pins : Pins} (hpins : pins ∈ allPins groups [])
    (h : reusePlain s groups root = .ok e) :
    ∃ d, root.values s { pinned := some pins } = .ok d := by
  obtain ⟨sum, hsum, -⟩ := bind_eq_ok.1 h
  obtain ⟨state, weight, state', hvisit⟩ := exists_visit hsum hpins
  obtain ⟨d, hd, -⟩ := bind_eq_ok.1 hvisit
  exact ⟨d, hd⟩

theorem exists_holds_of_reuseCheck {relation : Relation} {left right : Node} {pins : Pins}
    (hpins : pins ∈ allPins groups []) (h : reuseCheck s groups root relation left right = .ok e) :
    ∃ holds, holdsPinned s relation left right pins = .ok holds := by
  obtain ⟨tally, htally, -⟩ := bind_eq_ok.1 h
  obtain ⟨state, weight, state', hvisit⟩ := exists_visit htally hpins
  obtain ⟨holds, hholds, -⟩ := bind_eq_ok.1 hvisit
  exact ⟨holds, hholds⟩

/-- A conditional looks at its condition, and at the branch that the combination takes. -/
theorem exists_branch_of_reuseConditional {condition ifTrue ifFalse left right : Node}
    {relation : Relation} {pins : Pins} (hpins : pins ∈ allPins groups [])
    (h : reuseConditional s groups condition ifTrue ifFalse relation left right = .ok e) :
    ∃ holds branch, holdsPinned s relation left right pins = .ok holds
      ∧ (if holds then ifTrue.evaluate s (Context.critical { pinned := some pins }
            (isCriticalCombination s (decidingIds s condition) pins))
          else ifFalse.evaluate s { pinned := some pins }) = .ok branch := by
  obtain ⟨tally, htally, -⟩ := bind_eq_ok.1 h
  obtain ⟨state, weight, state', hvisit⟩ := exists_visit htally hpins
  obtain ⟨holds, hholds, hvisit⟩ := bind_eq_ok.1 hvisit
  cases holds with
  | true =>
    obtain ⟨branch, hbranch, -⟩ := bind_eq_ok.1 hvisit
    exact ⟨true, branch, hholds, hbranch⟩
  | false =>
    obtain ⟨branch, hbranch, -⟩ := bind_eq_ok.1 hvisit
    exact ⟨false, branch, hholds, hbranch⟩

theorem exists_values_of_reuseSplit {ids : List ℕ} {pins : Pins} (hpins : pins ∈ allPins groups [])
    (h : reuseSplit s groups root ids = .ok e) :
    ∃ d, root.values s (Context.critical { pinned := some pins }
      (isCriticalCombination s ids pins)) = .ok d := by
  obtain ⟨sums, hsums, -⟩ := bind_eq_ok.1 h
  obtain ⟨state, weight, state', hvisit⟩ := exists_visit hsums hpins
  obtain ⟨d, hd, -⟩ := bind_eq_ok.1 hvisit
  exact ⟨d, hd⟩

theorem exists_values_of_reuseReadings {pins : Pins} {sums : Distribution W × Distribution W}
    (hpins : pins ∈ allPins groups []) (h : reuseReadings s groups root = .ok sums)
    (critical : Bool) :
    ∃ d, root.values s (Context.critical { pinned := some pins } critical) = .ok d := by
  obtain ⟨state, weight, state', hvisit⟩ := exists_visit h hpins
  obtain ⟨normal, hnormal, hvisit⟩ := bind_eq_ok.1 hvisit
  obtain ⟨hit, hhit, -⟩ := bind_eq_ok.1 hvisit
  cases critical with
  | false => exact ⟨normal, hnormal⟩
  | true => exact ⟨hit, hhit⟩

/-- A conditional asks for what stands in its condition and in the branches that are taken. -/
theorem AsksFor.registered_of_reuseConditional {condition ifTrue ifFalse left right : Node}
    {relation : Relation} (h : root.AsksFor s id) (hdice : s.registry ≠ [])
    (hgroups : diceGroups s root = .ok groups) (hsome : ∃ pins, pins ∈ allPins groups [])
    (hroot : root.stripGroups = .conditional condition ifTrue ifFalse)
    (hcondition : condition.comparison? = some (relation, left, right))
    (he : reuseConditional s groups condition ifTrue ifFalse relation left right = .ok e) :
    (s.registry.get? id.toNat).isSome = true := by
  have hmix : wantsMixture s root = false := wantsMixture_of_conditional hroot
  cases h with
  | always hwhole | normal hwhole => exact absurd hroot (hwhole.resolve_left hdice _ _ _)
  | critical hmix' | decided _ hmix' => rw [hmix] at hmix'; cases hmix'
  | condition _ hroot' h =>
    cases hroot.symm.trans hroot'
    obtain ⟨pins, hpins⟩ := hsome
    obtain ⟨holds, _, hholds, -⟩ := exists_branch_of_reuseConditional hpins he
    exact registered_of_holdsPinned hholds (h.of_comparison? hcondition)
  | hit _ hroot' hcondition' hgroups' hpins hholds h
  | miss _ hroot' hcondition' hgroups' hpins hholds h =>
    cases hroot.symm.trans hroot'
    cases hcondition.symm.trans hcondition'
    cases hgroups.symm.trans hgroups'
    obtain ⟨holds, branch, hholds', hbranch⟩ := exists_branch_of_reuseConditional hpins he
    cases hholds.symm.trans hholds'
    exact h.registered rfl hbranch

/-- Without a comparison as its condition a conditional is no formula of the grammar; it is
evaluated as it stands, and asks for its condition. -/
theorem AsksFor.registered_of_unguarded {condition ifTrue ifFalse : Node} (h : root.AsksFor s id)
    (hdice : s.registry ≠ []) (hsome : ∃ pins, pins ∈ allPins groups [])
    (hroot : root.stripGroups = .conditional condition ifTrue ifFalse)
    (hcondition : condition.comparison? = none) (he : reusePlain s groups root = .ok e) :
    (s.registry.get? id.toNat).isSome = true := by
  have hmix : wantsMixture s root = false := wantsMixture_of_conditional hroot
  obtain ⟨pins, hpins⟩ := hsome
  obtain ⟨d, hd⟩ := exists_values_of_reusePlain hpins he
  cases h with
  | always hwhole | normal hwhole => exact absurd hroot (hwhole.resolve_left hdice _ _ _)
  | critical hmix' | decided _ hmix' => rw [hmix] at hmix'; cases hmix'
  | condition _ hroot' h =>
    cases hroot.symm.trans hroot'
    have hreads := @Reads.part _ (.conditional condition ifTrue ifFalse) _ _ (.head _) h
    rw [← hroot] at hreads
    exact hreads.of_stripGroups.registered_of_values rfl hd
  | hit _ hroot' hcondition' | miss _ hroot' hcondition' =>
    cases hroot.symm.trans hroot'
    rw [hcondition] at hcondition'
    cases hcondition'

theorem AsksFor.registered_of_reuseCheck {relation : Relation} {left right : Node}
    (h : root.AsksFor s id) (hsome : ∃ pins, pins ∈ allPins groups [])
    (hroot : root.stripGroups = .comparison relation left right)
    (he : reuseCheck s groups root relation left right = .ok e) :
    (s.registry.get? id.toNat).isSome = true := by
  have hmix : wantsMixture s root = false := wantsMixture_of_comparison hroot
  have hcomparison : root.comparison? = some (relation, left, right) := by
    rw [comparison?, hroot]
  obtain ⟨pins, hpins⟩ := hsome
  obtain ⟨holds, hholds⟩ := exists_holds_of_reuseCheck hpins he
  cases h with
  | always _ h | normal _ _ h =>
    exact registered_of_holdsPinned hholds (h.of_comparison? hcomparison)
  | critical hmix' | decided _ hmix' => rw [hmix] at hmix'; cases hmix'
  | condition _ hroot' | hit _ hroot' | miss _ hroot' => cases hroot.symm.trans hroot'

section Whole

variable (hconditional : ∀ condition ifTrue ifFalse,
  root.stripGroups ≠ .conditional condition ifTrue ifFalse)

include hconditional

/-- Without critical hits a formula asks for its normal reading. -/
theorem AsksFor.registered_of_reusePlain (h : root.AsksFor s id)
    (hmix : wantsMixture s root = false) (hsome : ∃ pins, pins ∈ allPins groups [])
    (he : reusePlain s groups root = .ok e) : (s.registry.get? id.toNat).isSome = true := by
  obtain ⟨pins, hpins⟩ := hsome
  obtain ⟨d, hd⟩ := exists_values_of_reusePlain hpins he
  cases h with
  | always _ h | normal _ _ h => exact h.registered_of_values rfl hd
  | critical hmix' | decided _ hmix' => rw [hmix] at hmix'; cases hmix'
  | condition _ hroot | hit _ hroot | miss _ hroot => exact absurd hroot (hconditional _ _ _)

/-- Where no dice decide, both readings are evaluated for every combination. -/
theorem AsksFor.registered_of_reuseReadings {sums : Distribution W × Distribution W}
    (h : root.AsksFor s id) (hsome : ∃ pins, pins ∈ allPins groups [])
    (he : reuseReadings s groups root = .ok sums) : (s.registry.get? id.toNat).isSome = true := by
  obtain ⟨pins, hpins⟩ := hsome
  have hvalues : ∀ {critical mark}, root.Reads critical (reference id mark) →
      (s.registry.get? id.toNat).isSome = true := by
    intro critical mark hreads
    obtain ⟨d, hd⟩ := exists_values_of_reuseReadings hpins he critical
    exact hreads.registered_of_values rfl hd
  cases h with
  | always _ h | normal _ _ h | critical _ _ h | decided _ _ _ _ h => exact hvalues h
  | condition _ hroot | hit _ hroot | miss _ hroot => exact absurd hroot (hconditional _ _ _)

/-- Where dice decide, every combination is evaluated in the reading that it decides for. -/
theorem AsksFor.registered_of_reuseSplit (h : root.AsksFor s id) (hdice : s.registry ≠ [])
    (hmix : wantsMixture s root = true) (hids : root.criticalIds ≠ [])
    (hgroups : diceGroups s root = .ok groups) (hsome : ∃ pins, pins ∈ allPins groups [])
    (he : reuseSplit s groups root root.criticalIds = .ok e) :
    (s.registry.get? id.toNat).isSome = true := by
  cases h with
  | always _ hnormal hcritical =>
    obtain ⟨pins, hpins⟩ := hsome
    obtain ⟨d, hd⟩ := exists_values_of_reuseSplit hpins he
    cases hb : isCriticalCombination s root.criticalIds pins with
    | false => exact hnormal.registered_of_values hb hd
    | true => exact hcritical.registered_of_values hb hd
  | normal _ hreading =>
    rcases hreading with hreading | hreading | hreading
    · rw [hmix] at hreading; cases hreading
    · exact absurd hreading hdice
    · exact absurd hreading hids
  | critical _ hreading => exact hreading.elim (absurd · hdice) (absurd · hids)
  | decided _ _ hgroups' hpins h =>
    cases hgroups.symm.trans hgroups'
    obtain ⟨d, hd⟩ := exists_values_of_reuseSplit hpins he
    exact h.registered_of_values rfl hd
  | condition _ hroot | hit _ hroot | miss _ hroot => exact absurd hroot (hconditional _ _ _)

end Whole

/-- **With dice, a formula that has a value has resolved every reference it asks for.** -/
theorem AsksFor.registered_of_reuse (h : root.AsksFor s id) (hdice : s.registry ≠ [])
    (hgroups : diceGroups s root = .ok groups) (hsome : ∃ pins, pins ∈ allPins groups [])
    (he : reuseByGroups s groups root = .ok e) : (s.registry.get? id.toNat).isSome = true := by
  cases reuseRoute_of_ok he with
  | conditional hroot hcondition he =>
    exact h.registered_of_reuseConditional hdice hgroups hsome hroot hcondition he
  | unguarded hroot hcondition he => exact h.registered_of_unguarded hdice hsome hroot hcondition he
  | check hroot he => exact h.registered_of_reuseCheck hsome hroot he
  | plain hconditional _ hmix he => exact h.registered_of_reusePlain hconditional hmix hsome he
  | byRate hconditional _ _ _ hreadings =>
    exact h.registered_of_reuseReadings hconditional hsome hreadings
  | decided hconditional _ hmix hids he =>
    exact h.registered_of_reuseSplit hconditional hdice hmix (by simpa using hids) hgroups hsome he

/-! ## 5. All formulas -/

/-- Without dice a formula is evaluated as it stands, in the critical reading as well if it says
what happens on a critical hit. -/
theorem AsksFor.registered_of_no_dice (h : root.AsksFor s id) (hdice : s.registry = [])
    (he : root.evaluateFormula s = .ok e) : (s.registry.get? id.toNat).isSome = true := by
  have hreading : ∃ critical mark, root.Reads critical (reference id mark)
      ∧ (critical = true → wantsMixture s root = true) := by
    cases h with
    | always _ h | normal _ _ h => exact ⟨false, _, h, fun h => nomatch h⟩
    | critical hmix _ h => exact ⟨true, _, h, fun _ => hmix⟩
    | decided hdice' | condition hdice' | hit hdice' | miss hdice' => exact absurd hdice hdice'
  obtain ⟨critical, mark, hreads, hcritical⟩ := hreading
  cases route_of_ok he with
  | reuse hregistry => rw [hdice] at hregistry; cases hregistry
  | mixture _ _ he =>
    cases mixtureRoute_of_ok he with
    | decided _ hnormal hhit | byRate _ hnormal hhit =>
      cases critical with
      | false => exact hreads.registered_of_values rfl hnormal
      | true => exact hreads.registered_of_values rfl hhit
  | plain _ hmix he =>
    cases critical with
    | false => exact hreads.registered rfl he
    | true => cases hmix.symm.trans (hcritical rfl)

/-- **A formula that has a value has resolved every reference it asks for.** -/
theorem AsksFor.registered [CountingWeight W] (h : root.AsksFor s id)
    (hsides : ∀ n ∈ root.subterms, ∀ d, n.literal? = some d → d.sides ≠ 0)
    (hregistry : ∀ d ∈ s.registry, d.sides ≠ 0) (he : root.evaluateFormula s = .ok e) :
    (s.registry.get? id.toNat).isSome = true := by
  cases route_of_ok he with
  | reuse hdice hgroups he =>
    have hsome := exists_mem_allPins
      (fun g hg => (filled_diceGroups hsides hregistry hgroups g hg).ne_nil) []
    exact h.registered_of_reuse (by simpa using hdice) hgroups hsome he
  | mixture hempty | plain hempty =>
    exact h.registered_of_no_dice (List.isEmpty_iff.1 hempty) he

end Node

/-! ## 6. Calculations -/

theorem exists_evaluateFormula_of_calculate {text : String} {options : Options W}
    {report : Report W} (h : calculate text options = .ok report) :
    ∃ f e, Formula.ofText text = .ok f
      ∧ f.root.evaluateFormula (options.settings f.registry) = .ok e := by
  unfold calculate at h
  split at h
  · cases h
  · obtain ⟨f, htext, h⟩ := bind_eq_ok.1 h
    split at h
    · next e he =>
      obtain ⟨e', he', -⟩ := bind_eq_ok.1 he
      exact ⟨f, e', htext, he'⟩
    · cases h

namespace Formula

variable {text : String} {f : Formula}

/-- The registry of a formula lists dice of its literals. -/
theorem exists_pool_of_mem_registry {root : Node} {d : Dice} (h : d ∈ (ofNode root).registry) :
    ∃ p ∈ root.pools, p.dice = d := by
  unfold ofNode at h
  split at h
  · obtain ⟨n, hn, hd⟩ := List.mem_filterMap.1 h
    cases n with
    | dice d' i modifier =>
      cases hd
      exact ⟨⟨d, modifier⟩, List.mem_filterMap.2 ⟨_, hn, rfl⟩, rfl⟩
    | _ => cases hd
  · cases h

theorem sides_ne_zero_of_mem_registry (h : ofText text = .ok f) {d : Dice} (hd : d ∈ f.registry) :
    d.sides ≠ 0 := by
  obtain ⟨root, rfl, hsides⟩ := ofText_eq_ok h
  obtain ⟨p, hp, rfl⟩ := exists_pool_of_mem_registry hd
  exact hsides p hp

theorem length_registry_le (h : ofText text = .ok f) :
    f.registry.length ≤ f.root.literals.length := by
  obtain ⟨root, rfl, -⟩ := ofText_eq_ok h
  unfold ofNode
  split
  · rw [length_registry_withIds, ← length_literals]
  · exact Nat.zero_le _

/-- There are no dice with this id: it is `0`, or greater than the number of literals. -/
def Dangles (f : Formula) (id : UInt32) : Prop :=
  id.toNat = 0 ∨ f.root.literals.length < id.toNat

theorem Dangles.not_registered (h : ofText text = .ok f) {id : UInt32} (hid : f.Dangles id) :
    (f.registry.get? id.toNat).isSome = false := by
  by_contra hsome
  obtain ⟨d, hd⟩ := Option.isSome_iff_exists.1 (Bool.eq_true_of_not_eq_false hsome)
  obtain ⟨k, hk, hget⟩ := Registry.get?_eq_some.1 hd
  obtain ⟨hlt, -⟩ := List.getElem?_eq_some_iff.1 hget
  have hle := length_registry_le h
  rcases hid with hid | hid <;> omega

end Formula

/-- **A dangling reference is fatal wherever the calculation looks at it.** -/
theorem error_calculate_of_dangling [CountingWeight W] {text : String} {options : Options W}
    {f : Formula} (htext : Formula.ofText text = .ok f) {id : UInt32} (hid : f.Dangles id)
    (hasks : f.root.AsksFor (options.settings f.registry) id) :
    ∃ e, calculate text options = .error e := by
  cases hcalculate : calculate text options with
  | error e => exact ⟨e, rfl⟩
  | ok report =>
    obtain ⟨f', e, htext', he⟩ := exists_evaluateFormula_of_calculate hcalculate
    obtain rfl : f' = f := Except.ok.inj (htext'.symm.trans htext)
    have hregistered := hasks.registered
      (fun n hn d hd => Formula.sides_ne_zero_of_ofText htext hn hd)
      (fun d hd => Formula.sides_ne_zero_of_mem_registry htext hd) he
    have hnone := hid.not_registered htext
    rw [Options.settings] at hregistered
    rw [hregistered] at hnone
    cases hnone

/-! ## 7. A branch that is taken, and one that is not -/

/-- `d6>bound?d_1:d_2`. -/
def danglingBranch (bound : Float) : Formula where
  root := .conditional (.comparison .greater (.dice ⟨1, 6, false⟩ (some 1) none) (.number bound))
    (.reference 1 false) (.reference 2 false)
  registry := [⟨1, 6, false⟩]

set_option maxRecDepth 4000 in
theorem ofText_danglingBranch_one : Formula.ofText "d6>1?d_1:d_2" = .ok (danglingBranch 1.0) := by
  have htokens : tokenize "d6>1?d_1:d_2" = .ok [⟨.dice ⟨1, 6, false⟩, 0⟩, ⟨.relation .greater, 2⟩,
      ⟨.number 1.0, 3⟩, ⟨.symbol .question, 4⟩, ⟨.reference 1 false, 5⟩, ⟨.symbol .colon, 8⟩,
      ⟨.reference 2 false, 9⟩] := by decide +kernel
  rw [Formula.ofText, htokens]
  rfl

set_option maxRecDepth 4000 in
theorem ofText_danglingBranch_zero : Formula.ofText "d6>0?d_1:d_2" = .ok (danglingBranch 0.0) := by
  have htokens : tokenize "d6>0?d_1:d_2" = .ok [⟨.dice ⟨1, 6, false⟩, 0⟩, ⟨.relation .greater, 2⟩,
      ⟨.number 0.0, 3⟩, ⟨.symbol .question, 4⟩, ⟨.reference 1 false, 5⟩, ⟨.symbol .colon, 8⟩,
      ⟨.reference 2 false, 9⟩] := by decide +kernel
  rw [Formula.ofText, htokens]
  rfl

theorem dangles_danglingBranch (bound : Float) : (danglingBranch bound).Dangles 2 :=
  .inr (by change 1 < 2; decide)

/-- On a roll of `1` the condition fails, and the second branch is taken. -/
theorem error_calculate_of_dangling_takenBranch :
    ∃ e, calculate "d6>1?d_1:d_2" (.standard : Options Float) = .error e := by
  have hpins : ((diceGroups ((.standard : Options Float).settings (danglingBranch 1.0).registry)
      (danglingBranch 1.0).root).toOption.map fun groups => (allPins groups []).head?)
        = some (some [(1, 1)]) := by decide +kernel
  have hholds : (holdsPinned ((.standard : Options Float).settings (danglingBranch 1.0).registry)
      .greater (.dice ⟨1, 6, false⟩ (some 1) none) (.number 1.0) [(1, 1)]).toOption
        = some false := by decide +kernel
  cases hgroups : diceGroups ((.standard : Options Float).settings (danglingBranch 1.0).registry)
      (danglingBranch 1.0).root with
  | error e => rw [hgroups] at hpins; cases hpins
  | ok groups =>
    rw [hgroups] at hpins
    have hmem := List.mem_of_head? (Option.some.inj hpins)
    cases hresult : holdsPinned ((.standard : Options Float).settings
        (danglingBranch 1.0).registry) .greater (.dice ⟨1, 6, false⟩ (some 1) none) (.number 1.0)
        [(1, 1)] with
    | error e => rw [hresult] at hholds; cases hholds
    | ok holds =>
      rw [hresult] at hholds
      cases hholds
      exact error_calculate_of_dangling ofText_danglingBranch_one (dangles_danglingBranch 1.0)
        (.miss (List.cons_ne_nil _ _) rfl rfl hgroups hmem hresult (.self _))

/-- Whether every id that the formula names is one of its dice. -/
def Formula.isResolved (f : Formula) : Bool :=
  f.root.subterms.all fun n => n.namedId?.all fun id => (f.registry.get? id).isSome

/-- Where the condition holds for every roll, the second branch is never looked at, and the
calculation succeeds.  The same goes for the part of `[e]` or `|a|b|` that belongs to a reading
which does not occur. -/
theorem calculate_danglingBranch_untaken :
    (Formula.ofText "d6>0?d_1:d_2" = .ok (danglingBranch 0.0)
        ∧ Node.reference 2 false ∈ (danglingBranch 0.0).root.subterms
        ∧ (danglingBranch 0.0).Dangles 2
        ∧ (calculate "d6>0?d_1:d_2" (.standard : Options Float)).isOk = true)
      ∧ (∀ text ∈ ["d6+[d_2]", "d6+|d_1|d_2|"],
          ((Formula.ofText text).toOption.map Formula.isResolved) = some false
            ∧ (calculate text (.standard : Options Float)).isOk = true)
      ∧ ((Formula.ofText "D6+|d_2|d_1|").toOption.map Formula.isResolved) = some false
      ∧ (calculate "D6+|d_2|d_1|"
          ({ criticalEnabled := true, criticalRate := 100.0 } : Options Float)).isOk = true := by
  refine ⟨⟨ofText_danglingBranch_zero, ?_, dangles_danglingBranch 0.0, by decide +kernel⟩,
    by decide +kernel, by decide +kernel, by decide +kernel⟩
  simp [danglingBranch, Node.subterms]

end DiceOdds
