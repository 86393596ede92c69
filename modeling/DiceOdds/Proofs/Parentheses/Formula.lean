import DiceOdds.Proofs.Branches.Tally
import DiceOdds.Proofs.Parentheses.Walk
import DiceOdds.Evaluation.OfFormula

/-!
# Formulas in parentheses

A formula with parts in more parentheses has the same result, but for texts: with and without
critical hits, for either way of mixing, and with references as long as no dice are hidden from a
keep or a limit on each die.

## Why tables are compared by path

Conditions in branches are counted in a table whose keys hold their texts, so with other texts the
entries stand under other keys.  But a path has one text in each tree.  Read by path both tables
say the same, and in the same order, since keys are ordered by their paths first.
-/

namespace DiceOdds

variable {W : Type} [Weight W]

/-! ## 1. Combinations -/

/-- Loops over the same combinations whose steps keep their states related. -/
theorem Agrees.forCombinations {σ σ' : Type} {R : σ → σ' → Prop}
    {visit : σ → Pins → W → Except EvalError σ} {visit' : σ' → Pins → W → Except EvalError σ'}
    (h : ∀ state state' pins weight, R state state' →
      Agrees R (visit state pins weight) (visit' state' pins weight))
    (groups : List (DiceGroup W)) (pins : Pins) (weight : W) {state : σ} {state' : σ'}
    (hstate : R state state') :
    Agrees R (DiceOdds.forCombinations visit groups pins weight state)
      (DiceOdds.forCombinations visit' groups pins weight state') := by
  induction groups generalizing pins weight state state' with
  | nil => exact h _ _ _ _ hstate
  | cons group rest ih => exact Agrees.foldlM _ _ _ hstate fun _ _ p _ hstate => ih _ _ hstate

/-! ## 2. Tables of conditions -/

/-- What has been counted, by path. -/
def byPath (t : NestedTally W) : List (List BranchStep × NestedEntry W) :=
  t.toList.map fun p => (p.1.path, p.2)

theorem map_untitled_nestedConditions (t : NestedTally W) (total : W) :
    (nestedConditions t total).map NestedCondition.untitled
      = (byPath t).map fun p => p.2.condition total ⟨p.1, ""⟩ := by
  rw [nestedConditions, byPath, List.map_map, List.map_map]
  rfl

section ByPath

variable {title : List BranchStep → String} {t : NestedTally W}

omit [Weight W]

theorem mem_byPath (h : ∀ key ∈ t, key.condition = title key.path) (path : List BranchStep)
    (entry : NestedEntry W) :
    (path, entry) ∈ byPath t ↔ t[(⟨path, title path⟩ : NestedKey)]? = some entry := by
  rw [← Std.TreeMap.mem_toList_iff_getElem?_eq_some, byPath, List.mem_map]
  constructor
  · rintro ⟨⟨⟨path', condition⟩, entry'⟩, hmem, hp⟩
    obtain ⟨rfl, rfl⟩ := Prod.mk.inj hp
    have hkey : (⟨path', condition⟩ : NestedKey) ∈ t := by
      rw [← Std.TreeMap.isSome_getElem?_iff_mem,
        Std.TreeMap.mem_toList_iff_getElem?_eq_some.1 hmem]
      rfl
    obtain rfl : condition = title path' := h _ hkey
    exact hmem
  · intro hmem
    exact ⟨_, hmem, rfl⟩

theorem pairwise_byPath (h : ∀ key ∈ t, key.condition = title key.path) :
    (byPath t).Pairwise fun a b => compare a.1 b.1 = .lt := by
  rw [byPath, List.pairwise_map]
  refine Std.TreeMap.ordered_keys_toList.imp_of_mem fun {a b} ha hb hlt => ?_
  have hkey : ∀ p ∈ t.toList, p.1.condition = title p.1.path := by
    intro p hp
    refine h _ ?_
    rw [← Std.TreeMap.isSome_getElem?_iff_mem, Std.TreeMap.mem_toList_iff_getElem?_eq_some.1 hp]
    rfl
  replace hlt : (compare a.1.path b.1.path).then (compare a.1.condition b.1.condition) = .lt := hlt
  cases hpath : compare a.1.path b.1.path with
  | lt => rfl
  | gt =>
    rw [hpath] at hlt
    cases hlt
  | eq =>
    rw [hpath, hkey a ha, hkey b hb, Std.compare_eq_iff_eq.1 hpath, Std.compare_self] at hlt
    cases hlt

end ByPath

/-- Two tables with the same counts at every path, each with the texts that belong to the paths. -/
structure SameCounts (title title' : List BranchStep → String) (t t' : NestedTally W) : Prop where
  counts : ∀ path, t'[(⟨path, title' path⟩ : NestedKey)]? = t[(⟨path, title path⟩ : NestedKey)]?
  titled : ∀ key ∈ t, key.condition = title key.path
  titled' : ∀ key ∈ t', key.condition = title' key.path

namespace SameCounts

variable {title title' sub sub' : List BranchStep → String} {t t' : NestedTally W}

omit [Weight W] in
theorem start : SameCounts title title' (∅ : NestedTally W) ∅ where
  counts path := by rw [Std.TreeMap.getElem?_emptyc, Std.TreeMap.getElem?_emptyc]
  titled key hkey := absurd hkey Std.TreeMap.not_mem_emptyc
  titled' key hkey := absurd hkey Std.TreeMap.not_mem_emptyc

omit [Weight W] in
/-- Changing what is counted at one path. -/
theorem alter (h : SameCounts title title' t t') (path : List BranchStep)
    (f : Option (NestedEntry W) → Option (NestedEntry W)) :
    SameCounts title title' (t.alter ⟨path, title path⟩ f) (t'.alter ⟨path, title' path⟩ f) where
  counts other := by
    rw [Std.TreeMap.getElem?_alter, Std.TreeMap.getElem?_alter]
    by_cases hother : path = other
    · subst hother
      rw [if_pos Std.compare_self, if_pos Std.compare_self, h.counts]
    · have hne : ∀ text text' : String,
          compare (⟨path, text⟩ : NestedKey) ⟨other, text'⟩ ≠ .eq := fun _ _ heq =>
        hother (NestedKey.mk.inj (Std.compare_eq_iff_eq.1 heq)).1
      rw [if_neg (hne _ _), if_neg (hne _ _), h.counts]
  titled key hkey := by
    rw [Std.TreeMap.mem_alter] at hkey
    split at hkey
    · next heq => rw [← Std.compare_eq_iff_eq.1 heq]
    · exact h.titled key hkey
  titled' key hkey := by
    rw [Std.TreeMap.mem_alter] at hkey
    split at hkey
    · next heq => rw [← Std.compare_eq_iff_eq.1 heq]
    · exact h.titled' key hkey

/-- Counting the conditions of a branch and of the same branch with other texts. -/
theorem addNested {branch branch' : Evaluation W} (h : SameCounts title title' t t')
    (hbranch : branch.Retitled sub sub' branch') {step : BranchStep}
    (hstep : ∀ path, title (step :: path) = sub path)
    (hstep' : ∀ path, title' (step :: path) = sub' path) (weight : W) :
    SameCounts title title' (DiceOdds.addNested t branch step weight)
      (DiceOdds.addNested t' branch' step weight) := by
  have hentries : List.Forall₂ (fun entry entry' => entry.untitled = entry'.untitled)
      branch.nested branch'.nested := by
    have hall : List.Forall₂ (· = ·) (branch.nested.map NestedCondition.untitled)
        (branch'.nested.map NestedCondition.untitled) := by
      rw [List.forall₂_eq_eq_eq, ← branch.nested_untitled, ← branch'.nested_untitled,
        hbranch.untitled]
    rwa [List.forall₂_map_left_iff, List.forall₂_map_right_iff] at hall
  have htitled := hbranch.titled
  have htitled' := hbranch.titled'
  unfold Evaluation.Titled at htitled htitled'
  unfold DiceOdds.addNested
  generalize branch.nested = entries, branch'.nested = entries' at hentries htitled htitled'
  induction hentries generalizing t t' with
  | nil => exact h
  | @cons entry entry' rest rest' hentry _ ih =>
    obtain ⟨hfirst, hrest⟩ := List.forall_mem_cons.1 htitled
    obtain ⟨hfirst', hrest'⟩ := List.forall_mem_cons.1 htitled'
    refine ih ?_ hrest hrest'
    obtain ⟨text, rfl⟩ : ∃ text, entry' = { entry with condition := text } :=
      ⟨entry'.condition, by cases entry; cases entry'; cases hentry; rfl⟩
    unfold addNestedEntry NestedCondition.under
    dsimp only at hfirst' ⊢
    rw [hfirst, hfirst', ← hstep, ← hstep']
    exact h.alter _ _

omit [Weight W] in
theorem byPath_eq (h : SameCounts title title' t t') : byPath t' = byPath t := by
  have hnodup : ∀ {l : List (List BranchStep × NestedEntry W)},
      (l.Pairwise fun a b => compare a.1 b.1 = .lt) → l.Nodup := by
    intro l hl
    refine hl.imp fun {a b} hlt heq => ?_
    rw [heq, Std.compare_self] at hlt
    cases hlt
  have hordered := pairwise_byPath h.titled
  have hordered' := pairwise_byPath h.titled'
  refine List.Perm.eq_of_pairwise (fun a b _ _ hab hba => ?_) hordered' hordered
    ((List.perm_ext_iff_of_nodup (hnodup hordered') (hnodup hordered)).2 fun ⟨path, entry⟩ => ?_)
  · rw [Std.OrientedCmp.gt_of_lt hab] at hba
    cases hba
  · rw [mem_byPath h.titled', mem_byPath h.titled, h.counts]

end SameCounts

/-! ## 3. Conditionals -/

/-- Tallies that differ in the texts of nested conditions only. -/
def BranchTally.Retitled (title title' : List BranchStep → String) (t t' : BranchTally W) : Prop :=
  ∃ nested', t' = { t with nested := nested' } ∧ SameCounts title title' t.nested nested'

namespace BranchTally

variable {condition condition' ifTrue ifTrue' ifFalse ifFalse' : Node} {t t' : BranchTally W}
  {branch branch' : Evaluation W}

/-- The conditions in a branch, with the texts that they have in the whole conditional. -/
theorem title_hitStep (ids : List ℕ) (critical : Bool) (path : List BranchStep) :
    (Node.conditional condition ifTrue ifFalse).title (hitStep ids critical :: path)
      = ifTrue.title path := by
  unfold hitStep
  cases ids.isEmpty <;> cases critical <;> rfl

theorem title_missStep (ids : List ℕ) (path : List BranchStep) :
    (Node.conditional condition ifTrue ifFalse).title (missStep ids :: path)
      = ifFalse.title path := by
  unfold missStep
  cases ids.isEmpty <;> rfl

theorem Retitled.addHit (h : Retitled (Node.conditional condition ifTrue ifFalse).title
      (Node.conditional condition' ifTrue' ifFalse').title t t')
    (hbranch : branch.Retitled ifTrue.title ifTrue'.title branch') (ids : List ℕ)
    (critical : Bool) (weight : W) :
    Retitled (Node.conditional condition ifTrue ifFalse).title
      (Node.conditional condition' ifTrue' ifFalse').title (t.addHit ids critical branch weight)
      (t'.addHit ids critical branch' weight) := by
  obtain ⟨nested', rfl, hnested⟩ := h
  have hcounts := hnested.addNested hbranch (title_hitStep ids critical)
    (title_hitStep ids critical) weight
  unfold BranchTally.addHit
  rw [hbranch.distribution]
  cases critical with
  | true => exact ⟨_, rfl, hcounts⟩
  | false => exact ⟨_, rfl, hcounts⟩

theorem Retitled.addMiss (h : Retitled (Node.conditional condition ifTrue ifFalse).title
      (Node.conditional condition' ifTrue' ifFalse').title t t')
    (hbranch : branch.Retitled ifFalse.title ifFalse'.title branch') (ids : List ℕ) (weight : W) :
    Retitled (Node.conditional condition ifTrue ifFalse).title
      (Node.conditional condition' ifTrue' ifFalse').title (t.addMiss ids branch weight)
      (t'.addMiss ids branch' weight) := by
  obtain ⟨nested', rfl, hnested⟩ := h
  unfold BranchTally.addMiss
  rw [hbranch.distribution]
  exact ⟨_, rfl, hnested.addNested hbranch (title_missStep ids) (title_missStep ids) weight⟩

theorem Retitled.evaluation {title title' : List BranchStep → String}
    (h : Retitled title title' t t') (ids : List ℕ) (condition condition' : Node) :
    (t'.evaluation ids condition').untitled = (t.evaluation ids condition).untitled := by
  obtain ⟨nested', rfl, hnested⟩ := h
  have hconditions : ∀ total, (nestedConditions nested' total).map NestedCondition.untitled
      = (nestedConditions t.nested total).map NestedCondition.untitled := by
    intro total
    rw [map_untitled_nestedConditions, map_untitled_nestedConditions, hnested.byPath_eq]
  unfold BranchTally.evaluation
  dsimp only
  cases (t.hits.check ids).critical with
  | none =>
    simp only [Evaluation.untitled, List.map_cons, hconditions]
    rfl
  | some shares =>
    simp only [Evaluation.untitled, List.map_cons, hconditions]
    rfl

end BranchTally

/-! ## 4. Formulas with references -/

namespace Node.Enclosed

variable {s : Settings W} {root root' left left' right right' : Node}

/-- In readings with fixed values no dice are hidden. -/
theorem not_hidden {ctx : Context} : false = true → ctx.pinned = none :=
  fun h => absurd h Bool.false_ne_true

omit [Weight W] in
theorem decidingIds {mayHide : Bool} (h : Enclosed mayHide root root') :
    DiceOdds.decidingIds s root' = DiceOdds.decidingIds s root := by
  rw [DiceOdds.decidingIds, DiceOdds.decidingIds, h.criticalIds, h.leftmostId?]

theorem diceGroups (h : Enclosed false root root') :
    DiceOdds.diceGroups s root' = DiceOdds.diceGroups s root := by
  unfold DiceOdds.diceGroups groupValues
  simp only [h.definition?]

theorem agrees_holdsPinned (hl : Enclosed false left left') (hr : Enclosed false right right')
    (relation : Relation) (pins : Pins) : Agrees (· = ·) (holdsPinned s relation left right pins)
      (holdsPinned s relation left' right' pins) :=
  (hl.agrees_compareNodes hr not_hidden relation).bind fun _ _ _ _ h => .ok (by rw [h])

variable (groups : List (DiceGroup W))

theorem agrees_reuseCheck (h : Enclosed false root root') (hl : Enclosed false left left')
    (hr : Enclosed false right right') (relation : Relation) :
    Agrees (· = ·) (reuseCheck s groups root relation left right)
      (reuseCheck s groups root' relation left' right') := by
  unfold reuseCheck
  rw [h.decidingIds]
  refine (Agrees.forCombinations (R := (· = ·)) (fun t _ pins weight ht => ?_) _ _ _ rfl).bind
    fun _ _ _ _ ht => .ok (by rw [ht])
  exact (hl.agrees_holdsPinned hr relation pins).bind fun _ _ _ _ hholds => .ok (by rw [ht, hholds])

theorem agrees_reusePlain (h : Enclosed false root root') :
    Agrees (· = ·) (reusePlain s groups root) (reusePlain s groups root') := by
  refine (Agrees.forCombinations (R := (· = ·)) (fun sum _ pins weight hsum => ?_) _ _ _ rfl).bind
    fun _ _ _ _ hsum => .ok (by rw [hsum])
  exact (h.agrees_values not_hidden).bind fun _ _ _ _ hvalues => .ok (by rw [hsum, hvalues])

theorem agrees_reuseSplit (h : Enclosed false root root') (ids : List ℕ) :
    Agrees (· = ·) (reuseSplit s groups root ids) (reuseSplit s groups root' ids) := by
  refine (Agrees.forCombinations (R := (· = ·)) (fun sums _ pins weight hsums => ?_) _ _ _
    rfl).bind fun _ _ _ _ hsums => .ok (by rw [hsums])
  exact (h.agrees_values not_hidden).bind fun _ _ _ _ hvalues => .ok (by rw [hsums, hvalues])

theorem agrees_reuseReadings (h : Enclosed false root root') :
    Agrees (· = ·) (reuseReadings s groups root) (reuseReadings s groups root') := by
  refine Agrees.forCombinations (fun sums _ pins weight hsums => ?_) _ _ _ rfl
  exact (h.agrees_values not_hidden).bind fun _ _ _ _ hnormal =>
    (h.agrees_values not_hidden).bind fun _ _ _ _ hcritical =>
      .ok (by rw [hsums, hnormal, hcritical])

theorem agrees_reuseConditional {condition condition' ifTrue ifTrue' ifFalse ifFalse' : Node}
    (hc : Enclosed false condition condition') (ht : Enclosed false ifTrue ifTrue')
    (hf : Enclosed false ifFalse ifFalse') (hl : Enclosed false left left')
    (hr : Enclosed false right right') (relation : Relation) :
    Agrees (fun e e' => e'.untitled = e.untitled)
      (reuseConditional s groups condition ifTrue ifFalse relation left right)
      (reuseConditional s groups condition' ifTrue' ifFalse' relation left' right') := by
  unfold reuseConditional
  rw [hc.decidingIds]
  refine (Agrees.forCombinations (R := BranchTally.Retitled
    (Node.conditional condition ifTrue ifFalse).title
    (Node.conditional condition' ifTrue' ifFalse').title) (fun t t' pins weight htally => ?_) _ _ _
    ⟨∅, rfl, .start⟩).bind fun _ _ _ _ htally => .ok (htally.evaluation _ _ _)
  refine (hl.agrees_holdsPinned hr relation pins).bind fun holds _ _ _ hholds => ?_
  subst hholds
  cases holds with
  | true =>
    refine (ht.agrees_evaluate not_hidden).bind fun _ _ _ _ hbranch => ?_
    exact .ok (htally.addHit hbranch _ _ _)
  | false =>
    refine (hf.agrees_evaluate not_hidden).bind fun _ _ _ _ hbranch => ?_
    exact .ok (htally.addMiss hbranch _ _)

end Node.Enclosed

/-! ## 5. All formulas -/

namespace Node.Enclosed

variable {s : Settings W} {mayHide : Bool} {root root' : Node}

omit [Weight W] in
theorem wantsMixture (h : Enclosed mayHide root root') :
    DiceOdds.wantsMixture s root' = DiceOdds.wantsMixture s root := by
  unfold DiceOdds.wantsMixture
  rw [h.hasCriticalWrapper]
  have hstrip := h.stripGroups
  have hne := root'.stripGroups_ne_group
  generalize root.stripGroups = a, root'.stripGroups = b at hstrip hne
  cases hstrip with
  | group => exact absurd rfl (hne _)
  | enclose => exact absurd rfl (hne _)
  | _ => rfl

omit [Weight W] in
/-- Results that are the same are so without their texts. -/
theorem agrees_same {x y : Except EvalError (Evaluation W)} (h : Agrees (· = ·) x y) :
    Agrees (fun e e' => e'.untitled = e.untitled) x y :=
  h.imp fun _ _ he => by rw [he]

theorem agrees_criticalMixture (h : Enclosed true root root') :
    Agrees (· = ·) (criticalMixture s root) (criticalMixture s root') := by
  unfold criticalMixture
  dsimp only
  rw [h.hasCriticalDice]
  cases root.hasCriticalDice with
  | true =>
    refine (h.agrees_values fun _ => rfl).bind fun _ _ _ _ hnormal =>
      (h.agrees_values fun _ => rfl).bind fun _ _ _ _ hall =>
      (h.agrees_values fun _ => rfl).bind fun _ _ _ _ hlow => .ok ?_
    rw [hnormal, hall, hlow]
  | false =>
    refine (h.agrees_values fun _ => rfl).bind fun _ _ _ _ hnormal =>
      (h.agrees_values fun _ => rfl).bind fun _ _ _ _ hcritical => .ok ?_
    rw [hnormal, hcritical]

theorem agrees_reuseByGroups (h : Enclosed false root root') (groups : List (DiceGroup W)) :
    Agrees (fun e e' => e'.untitled = e.untitled) (reuseByGroups s groups root)
      (reuseByGroups s groups root') := by
  have hplain := agrees_same (h.agrees_reusePlain (s := s) groups)
  have hvalues : Agrees (fun e e' => e'.untitled = e.untitled)
      (if DiceOdds.wantsMixture s root then
        if root.criticalIds.isEmpty then reuseReadings s groups root >>= fun p =>
          pure (.mixture (mixByRate s p.1 p.2))
        else reuseSplit s groups root root.criticalIds
      else reusePlain s groups root)
      (if DiceOdds.wantsMixture s root' then
        if root'.criticalIds.isEmpty then reuseReadings s groups root' >>= fun p =>
          pure (.mixture (mixByRate s p.1 p.2))
        else reuseSplit s groups root' root'.criticalIds
      else reusePlain s groups root') := by
    rw [h.wantsMixture, h.criticalIds]
    cases DiceOdds.wantsMixture s root with
    | false => exact hplain
    | true =>
      rw [if_pos rfl, if_pos rfl]
      cases root.criticalIds.isEmpty with
      | false => exact agrees_same (h.agrees_reuseSplit groups _)
      | true =>
        exact (h.agrees_reuseReadings groups).bind fun _ _ _ _ hreadings => .ok (by rw [hreadings])
  unfold reuseByGroups
  have hstrip := h.stripGroups
  have hne := root'.stripGroups_ne_group
  generalize root.stripGroups = a, root'.stripGroups = b at hstrip hne
  cases hstrip with
  | comparison relation hl hr => exact agrees_same (h.agrees_reuseCheck groups hl hr relation)
  | conditional hc ht hf =>
    dsimp only
    obtain ⟨hnone, hnone'⟩ | ⟨relation, left, right, left', right', hsome, hsome', hl, hr⟩ :=
      hc.comparison?
    · rw [hnone, hnone']
      exact hplain
    · rw [hsome, hsome']
      exact agrees_reuseConditional groups hc ht hf hl hr relation
  | group => exact absurd rfl (hne _)
  | enclose => exact absurd rfl (hne _)
  | _ => exact hvalues

theorem agrees_evaluateReuse (h : Enclosed false root root') :
    Agrees (fun e e' => e'.untitled = e.untitled) (evaluateReuse s root)
      (evaluateReuse s root') := by
  unfold evaluateReuse
  rw [h.diceGroups]
  refine (Agrees.refl _).bind fun groups _ _ _ hgroups => ?_
  subst hgroups
  dsimp only
  by_cases hcount : (greatestCombinations : Float) < combinationCount groups
  · rw [if_pos hcount, if_pos hcount]
    exact .error _ _
  · rw [if_neg hcount, if_neg hcount]
    cases Weight.isFinite (Weight.product (groups.map fun group => group.2.total)) with
    | false => exact .error _ _
    | true => exact h.agrees_reuseByGroups groups

/-- **Parentheses are transparent.**  With parts of a formula in more parentheses it has the same
result, or none in either case; only the texts of conditions may differ.  Where dice are referred
to, no dice may be hidden from a keep or a limit on each die. -/
theorem evaluateFormula_enclosed (h : Enclosed s.registry.isEmpty root root') :
    ((∃ e', root'.evaluateFormula s = .ok e') ↔ ∃ e, root.evaluateFormula s = .ok e)
      ∧ ∀ e' e, root'.evaluateFormula s = .ok e' → root.evaluateFormula s = .ok e →
        e'.untitled = e.untitled := by
  have hagrees : Agrees (fun e e' => e'.untitled = e.untitled) (root.evaluateFormula s)
      (root'.evaluateFormula s) := by
    unfold evaluateFormula
    cases hempty : s.registry.isEmpty with
    | false =>
      rw [hempty] at h
      exact h.agrees_evaluateReuse
    | true =>
      rw [hempty] at h
      rw [h.wantsMixture]
      cases DiceOdds.wantsMixture s root with
      | true => exact agrees_same h.agrees_criticalMixture
      | false =>
        refine (h.agrees_evaluate fun _ => rfl).imp fun _ _ he => he.untitled
  exact ⟨hagrees.succeeds_iff.symm, fun e' e he' he => hagrees.rel he he'⟩

end Node.Enclosed

/-- `d2>1?kh(2d2)+d_2:d_1`. -/
def reusedInBranches : Node :=
  .conditional (.comparison .greater (.dice ⟨1, 2, false⟩ (some 1) none) (.number 1.0))
    (.binary .add (.keep .highest 1 [.dice ⟨2, 2, false⟩ (some 2) none]) (.reference 2 false))
    (.reference 1 false)

/-- `((d2)>1)?((kh(2d2)))+(d_2):d_1`. -/
def enclosedInBranches : Node :=
  .conditional (.group (.comparison .greater (.group (.dice ⟨1, 2, false⟩ (some 1) none))
      (.number 1.0)))
    (.binary .add (.group (.group (.keep .highest 1 [.dice ⟨2, 2, false⟩ (some 2) none])))
      (.group (.reference 2 false)))
    (.reference 1 false)

/-- Both dice of the formula, and a critical hit for half of their faces. -/
def halfCritical : Settings ℚ where
  registry := [⟨1, 2, false⟩, ⟨2, 2, false⟩]
  rate := some 50

theorem enclosed_reusedInBranches : Node.Enclosed false reusedInBranches enclosedInBranches :=
  .conditional (.enclose (.comparison _ (.enclose (.dice _ _ _)) (.number _)))
    (.binary _ (.enclose (.enclose (.refl _))) (.enclose (.reference _ _))) (.reference _ _)

set_option maxRecDepth 4000 in
/-- The condition has another text. -/
theorem evaluateFormula_enclosed_inBranches :
    ∃ e' e : Evaluation ℚ, enclosedInBranches.evaluateFormula halfCritical = .ok e'
      ∧ reusedInBranches.evaluateFormula halfCritical = .ok e
      ∧ e'.nested.map (·.condition) = ["((d2)>1)"] ∧ e.nested.map (·.condition) = ["d2>1"]
      ∧ e'.untitled = e.untitled := by
  have htexts : ((reusedInBranches.evaluateFormula halfCritical).toOption.bind some).any
      (fun e => e.nested.map (·.condition) = ["d2>1"]) = true := by
    decide +kernel
  have htexts' : ((enclosedInBranches.evaluateFormula halfCritical).toOption.bind some).any
      (fun e => e.nested.map (·.condition) = ["((d2)>1)"]) = true := by
    decide +kernel
  obtain ⟨e, _, he, hsome, htext⟩ := exists_of_any htexts
  obtain ⟨e', _, he', hsome', htext'⟩ := exists_of_any htexts'
  cases hsome
  cases hsome'
  have hsame := Node.Enclosed.evaluateFormula_enclosed (s := halfCritical) enclosed_reusedInBranches
  exact ⟨e', e, he', he, of_decide_eq_true htext', of_decide_eq_true htext, hsame.2 e' e he' he⟩

/-- `max_each(…,2)+d_1`, with dice that may be in parentheses. -/
def raisedAgain (target : Node) : Formula where
  root := .binary .add (.function .maxEach [target, .number 2.0]) (.reference 1 false)
  registry := [⟨2, 2, false⟩]

set_option maxRecDepth 4000 in
theorem ofText_raisedAgain :
    Formula.ofText "max_each(2d2,2)+d_1" = .ok (raisedAgain (.dice ⟨2, 2, false⟩ (some 1) none))
      ∧ Formula.ofText "max_each((2d2),2)+d_1"
        = .ok (raisedAgain (.group (.dice ⟨2, 2, false⟩ (some 1) none))) := by
  have htokens : tokenize "max_each(2d2,2)+d_1" = .ok [⟨.function .maxEach, 0⟩,
      ⟨.symbol .leftParen, 8⟩, ⟨.dice ⟨2, 2, false⟩, 9⟩, ⟨.symbol .comma, 12⟩, ⟨.number 2.0, 13⟩,
      ⟨.symbol .rightParen, 14⟩, ⟨.symbol .plus, 15⟩, ⟨.reference 1 false, 16⟩] := by
    decide +kernel
  have htokens' : tokenize "max_each((2d2),2)+d_1" = .ok [⟨.function .maxEach, 0⟩,
      ⟨.symbol .leftParen, 8⟩, ⟨.symbol .leftParen, 9⟩, ⟨.dice ⟨2, 2, false⟩, 10⟩,
      ⟨.symbol .rightParen, 13⟩, ⟨.symbol .comma, 14⟩, ⟨.number 2.0, 15⟩,
      ⟨.symbol .rightParen, 16⟩, ⟨.symbol .plus, 17⟩, ⟨.reference 1 false, 18⟩] := by
    decide +kernel
  rw [Formula.ofText, Formula.ofText, htokens, htokens']
  exact ⟨rfl, rfl⟩

set_option maxRecDepth 4000 in
/-- With each die at least `2` the sum is always `4`.  A limit on dice in parentheses is one on
their total, so it changes nothing. -/
theorem weightOf_raisedAgain_hidden :
    ∃ (f f' : Formula) (e e' : Evaluation ℚ), Formula.ofText "max_each(2d2,2)+d_1" = .ok f
      ∧ Formula.ofText "max_each((2d2),2)+d_1" = .ok f'
      ∧ f.root.evaluateFormula { registry := f.registry } = .ok e
      ∧ f'.root.evaluateFormula { registry := f'.registry } = .ok e'
      ∧ e.distribution.weightOf (Outcome.ofInt 7) = 2
      ∧ e'.distribution.weightOf (Outcome.ofInt 7) = 0 := by
  obtain ⟨htext, htext'⟩ := ofText_raisedAgain
  have hweight : (((raisedAgain (.dice ⟨2, 2, false⟩ (some 1) none)).root.evaluateFormula
      ({ registry := [⟨2, 2, false⟩] } : Settings ℚ)).toOption.bind some).any
        (fun e => e.distribution.weightOf (Outcome.ofInt 7) = 2) = true := by
    decide +kernel
  have hweight' : (((raisedAgain (.group (.dice ⟨2, 2, false⟩ (some 1) none))).root.evaluateFormula
      ({ registry := [⟨2, 2, false⟩] } : Settings ℚ)).toOption.bind some).any
        (fun e => e.distribution.weightOf (Outcome.ofInt 7) = 0) = true := by
    decide +kernel
  obtain ⟨e, _, he, hsome, hseven⟩ := exists_of_any hweight
  obtain ⟨e', _, he', hsome', hseven'⟩ := exists_of_any hweight'
  cases hsome
  cases hsome'
  exact ⟨_, _, e, e', htext, htext', he, he', of_decide_eq_true hseven, of_decide_eq_true hseven'⟩

end DiceOdds
