import DiceOdds.Proofs.Reuse.Combinations
import DiceOdds.Proofs.Counting.Results
import DiceOdds.Proofs.Safety.Shape
import DiceOdds.Report

/-!
# Well-formed formulas do not go wrong

Some errors say that a tree should not have been evaluated at all: a condition that is no
comparison, an id without dice, a function without its threshold.  Trees of the grammar whose
references lie within their dice never end in one of these, whatever else may go wrong with their
values.

## Why fixed values have to cover the registry

Where values are fixed, a literal and a reference both look up their id among them.  So what has to
be known of a reading is that all dice of the registry have a value in it (`Context.Covers`).  It
holds where nothing is fixed, combinations give it, and no step of an evaluation takes a value away.
-/

namespace DiceOdds

/-! ## 1. Errors about the structure of a formula -/

/-- Whether the error is about the structure of the formula, and not about its values.  A function
that has not got two arguments is reported without the text of its threshold. -/
def EvalError.isStructural : EvalError → Bool
  | conditionNotComparison _ | unresolvedReference _ | referenceOutsideReuse _ => true
  | nonConstantThreshold _ argument => argument = ""
  | divisionByZero _ | overflow _ | weightOverflow _ | tooManyKeepStates _
  | tooManyCombinations _ => false

theorem Exceeded.isStructural_at (e : Exceeded) (part : String) :
    (e.at part).isStructural = false := by
  cases e <;> rfl

/-- The computation does not fail for the structure of the formula. -/
def Regular {α : Type} (x : Except EvalError α) : Prop :=
  ∀ e, x = .error e → e.isStructural = false

namespace Regular

variable {α β σ : Type}

@[simp] theorem ok (a : α) : Regular (.ok a) := nofun

@[simp] theorem pure (a : α) : Regular (Pure.pure a) := nofun

@[simp] theorem error {e : EvalError} : Regular (.error e : Except EvalError α)
    ↔ e.isStructural = false :=
  ⟨fun h => h e rfl, fun h _ he => Except.error.inj he ▸ h⟩

theorem bind {x : Except EvalError α} {f : α → Except EvalError β} (hx : Regular x)
    (hf : ∀ a, x = .ok a → Regular (f a)) : Regular (x >>= f) := by
  cases x with
  | error e => exact error.2 (hx e rfl)
  | ok a => exact hf a rfl

theorem orBlame (x : Except Exceeded α) (part : Unit → String) : Regular (orBlame x part) := by
  cases x with
  | error e => exact error.2 (e.isStructural_at _)
  | ok a => exact ok a

theorem foldlM {step : σ → α → Except EvalError σ} {l : List α} {s : σ}
    (h : ∀ s, ∀ a ∈ l, Regular (step s a)) : Regular (l.foldlM step s) := by
  intro e he
  obtain ⟨a, ha, t, hstep⟩ := exists_error_of_foldlM he
  exact h t a ha e hstep

theorem mapM {f : α → Except EvalError β} {l : List α} (h : ∀ a ∈ l, Regular (f a)) :
    Regular (l.mapM f) := by
  induction l with
  | nil => exact pure []
  | cons a l ih =>
    rw [List.mapM_cons]
    exact (h a (List.mem_cons_self ..)).bind fun _ _ =>
      (ih fun b hb => h b (List.mem_cons_of_mem _ hb)).bind fun _ _ => pure _

end Regular

/-! ## 2. The text of a node -/

theorem Binary64.Decimal.positional_ne_empty (d : Binary64.Decimal) : d.positional ≠ "" := by
  unfold Decimal.positional
  dsimp only
  split
  · simp [String.ofList_eq_empty_iff]
  · simp [String.ofList_eq_empty_iff]

theorem Decimal.text_ne_empty (x : Float) : Decimal.text x ≠ "" := by
  unfold Decimal.text
  split
  · split
    · decide
    · split <;> decide
  · next b _ =>
    have hmagnitude : (if b.mantissa = 0 then "0" else b.shortest.positional) ≠ "" := by
      split
      · decide
      · exact b.shortest.positional_ne_empty
    dsimp only
    split
    · simp [String.append_eq_empty_iff]
    · exact hmagnitude

/-- What is written is never nothing. -/
theorem Node.text_ne_empty (node : Node) : node.text ≠ "" := by
  have hletter : ∀ critical, diceLetter critical ≠ "" := by decide
  have hrelation : ∀ relation : Relation, relation.text ≠ "" := by rintro ⟨⟩ <;> decide
  have hoperation : ∀ operation : Operation, operation.text ≠ "" := by rintro ⟨⟩ <;> decide
  cases node with
  | number value =>
    rw [text]
    exact Decimal.text_ne_empty value
  | _ => simp [text, Dice.text, String.append_eq_empty_iff, hletter, hrelation, hoperation]

/-! ## 3. Readings with fixed values -/

variable {W : Type} {ctx : Context}

/-- Where values are fixed, all dice of the registry have one. -/
def Context.Covers (ctx : Context) (registry : Registry) : Prop :=
  ∀ pins, ctx.pinned = some pins → ∀ id, (registry.get? id).isSome = true →
    (pins.lookup id).isSome = true

theorem Context.covers_of_unpinned {registry : Registry} (h : ctx.pinned = none) :
    ctx.Covers registry := fun pins hpins => by
  rw [h] at hpins
  cases hpins

theorem Context.Covers.critical {registry : Registry} (h : ctx.Covers registry) (branch : Bool) :
    (ctx.critical branch).Covers registry := h

theorem Context.Covers.restricted {registry : Registry} (h : ctx.Covers registry) :
    ctx.restricted.Covers registry := h

/-- The fixed value of a node is there. -/
theorem Context.Covers.regular_pinnedValue? {registry : Registry} {node : Node}
    {value : Except EvalError Outcome} (hctx : ctx.Covers registry)
    (hnode : node.Wellformed registry)
    (h : ctx.pinnedValue? node = some value) : Regular value := by
  unfold Context.pinnedValue? at h
  split at h
  · next pins id hpins hid =>
    obtain ⟨v, hv⟩ := Option.isSome_iff_exists.1
      (hctx pins hpins id (hnode.registered_definingId hid))
    obtain rfl := Option.some.inj h
    rw [hv]
    exact .ok v
  · cases h

/-! ## 4. Leaves -/

section Walks

variable [Weight W] {s : Settings W} {split : SplitCheck W}

theorem Node.regular_die? (node : Node) : Regular (node.die? s ctx) := by
  induction node using stripGroups.induct with
  | case1 inner ih => exact ih
  | case2 node hnode =>
    cases node with
    | group inner => exact absurd rfl (hnode inner)
    | dice d id modifier =>
      rw [die?]
      split
      · exact .ok _
      · exact (Regular.orBlame _ _).bind fun _ _ => .pure _
    | _ => exact .ok _

theorem regular_onlyDie? (items : List Node) : Regular (onlyDie? s ctx items) := by
  cases items with
  | nil => exact .ok _
  | cons item rest =>
    cases rest with
    | nil => exact item.regular_die?
    | cons _ _ => exact .ok _

theorem regular_numberValue (value : Float) :
    Regular (numberValue value : Except EvalError (Distribution W)) := by
  unfold numberValue
  split
  · exact .ok _
  · exact Regular.error.2 rfl

theorem Settings.regular_roll (node : Node) : Regular (s.roll ctx node) := by
  refine node.regular_die?.bind fun found _ => ?_
  cases found with
  | none => exact .pure _
  | some found => exact .orBlame _ _

/-- A reference to dice of the registry finds them, or their fixed value. -/
theorem Settings.regular_reference {id : UInt32} {critical : Bool}
    (hid : (s.registry.get? id.toNat).isSome = true) (hctx : ctx.Covers s.registry) :
    Regular (s.reference ctx id critical) := by
  obtain ⟨d, hd⟩ := Option.isSome_iff_exists.1 hid
  have hne : s.registry.isEmpty = false := by
    cases hregistry : s.registry with
    | nil => rw [hregistry] at hd; simp [Registry.get?] at hd
    | cons _ _ => rfl
  unfold Settings.reference
  rw [hne, if_neg Bool.false_ne_true, hd]
  cases hpinned : ctx.pinned with
  | none => exact .orBlame _ _
  | some pins =>
    obtain ⟨v, hv⟩ := Option.isSome_iff_exists.1 (hctx pins hpinned _ hid)
    dsimp only
    rw [hv]
    exact .ok _

theorem Settings.regular_clampEach {name : FunctionName} {target : Node} {threshold : Outcome}
    (hctx : ctx.Covers s.registry) (htarget : target.Wellformed s.registry) :
    Regular (s.clampEach ctx name target threshold) := by
  have hpinned : Regular (s.clampPinned ctx name target threshold) := by
    unfold Settings.clampPinned
    cases hvalue : ctx.pinnedValue? target with
    | none => exact .ok _
    | some total =>
      refine target.regular_die?.bind fun found _ => ?_
      cases found with
      | none => exact .pure _
      | some found =>
        exact (hctx.regular_pinnedValue? htarget hvalue).bind fun _ _ =>
          (Regular.orBlame _ _).bind fun _ _ => .pure _
  unfold Settings.clampEach
  split
  · refine hpinned.bind fun clamped? _ => ?_
    cases clamped? with
    | some clamped => exact .pure _
    | none =>
      refine target.regular_die?.bind fun found _ => ?_
      cases found with
      | none => exact .pure _
      | some found => exact (Regular.orBlame _ _).bind fun _ _ => .pure _
  · exact .ok _

/-- A threshold that is not constant is named in the error. -/
theorem regular_constantThreshold (name : FunctionName) (threshold : Node) (values : Evaluation W) :
    Regular (constantThreshold name threshold values) := by
  unfold constantThreshold
  split
  · exact .ok _
  · exact Regular.error.2 (decide_eq_false threshold.text_ne_empty)

/-! ## 5. Arithmetic -/

theorem Operation.regular_apply (operation : Operation) (part : Unit → String) (a b : Outcome) :
    Regular (operation.apply part a b) := by
  unfold Operation.apply
  dsimp only
  split
  · exact .ok _
  · split <;> exact Regular.error.2 rfl

theorem Distribution.regular_tryMap (d : Distribution W) {f : Outcome → Except EvalError Outcome}
    (hf : ∀ v, Regular (f v)) : Regular (d.tryMap f) :=
  .foldlM fun _ p _ => (hf p.1).bind fun _ _ => .pure _

theorem Evaluation.regular_combine (operation : Operation) (l r : Evaluation W)
    (part : Unit → String) : Regular (l.combine operation r part) := by
  have hindependent : ∀ operation : Operation,
      Regular (l.distribution.combine r.distribution (operation.apply part) >>=
        fun values => DiceOdds.orBlame values.checkWeights part) := fun operation =>
    .bind (.foldlM fun _ p _ => .foldlM fun _ q _ =>
        (operation.regular_apply part p.1 q.1).bind fun _ _ => .pure _)
      fun _ _ => .orBlame _ _
  have hscaled : ∀ (check : Check W) (other : Evaluation W),
      Regular (scaleByCheck check other part) := by
    intro check other
    unfold scaleByCheck
    refine other.distribution.regular_tryMap fun v => ?_
    split
    · exact .ok _
    · exact Regular.error.2 rfl
  cases operation with
  | mul => cases l <;> cases r <;> first | exact hscaled _ _ | exact hindependent .mul
  | _ => exact hindependent _

theorem Distribution.regular_doubled (d : Distribution W) (part : Unit → String) :
    Regular (d.doubled part) :=
  d.regular_tryMap fun v => by
    split
    · exact .ok _
    · exact Regular.error.2 rfl

/-! ## 6. The walk -/

/-- The split of a check does not fail for the structure of its sides. -/
def SplitCheck.IsRegular (split : SplitCheck W) (registry : Registry) : Prop :=
  ∀ relation left right ctx check, left.Wellformed registry → right.Wellformed registry →
    ctx.Covers registry → Regular (split relation left right ctx check)

omit [Weight W] in
theorem isRegular_noSplit (registry : Registry) : (noSplit : SplitCheck W).IsRegular registry :=
  fun _ _ _ _ _ _ _ _ => .ok _

namespace Node

/-- A comparison evaluates to a check, whatever parentheses are around it. -/
theorem exists_check_of_isComparison {node : Node} (h : node.isComparison = true)
    {e : Evaluation W} (he : node.walk s split ctx = .ok e) : ∃ check, e = .check check := by
  induction node using stripGroups.induct with
  | case1 inner ih =>
    rw [walk_group] at he
    exact ih h he
  | case2 node hnode =>
    cases node with
    | group inner => exact absurd rfl (hnode inner)
    | comparison relation left right =>
      obtain ⟨_, _, _, _, -, -, -, rfl⟩ := walk_comparison_any_eq_ok he
      exact ⟨_, rfl⟩
    | _ => cases h

theorem regular_walkAll {nodes : List Node} (h : ∀ node ∈ nodes, Regular (node.walk s split ctx)) :
    Regular (walkAll s split nodes ctx) := by
  induction nodes with
  | nil =>
    rw [walkAll]
    exact .ok _
  | cons node rest ih =>
    obtain ⟨hnode, hrest⟩ := List.forall_mem_cons.1 h
    rw [walkAll]
    exact hnode.bind fun _ _ => (ih hrest).bind fun _ _ => .pure _

/-- **A well-formed tree does not go wrong.** -/
theorem regular_walk (hsplit : split.IsRegular s.registry) (node : Node)
    (hnode : node.Wellformed s.registry) (hctx : ctx.Covers s.registry) :
    Regular (node.walk s split ctx) := by
  induction node using parts_induction generalizing ctx with
  | h node ih =>
  have hpart : ∀ part ∈ node.parts, ∀ {ctx : Context}, ctx.Covers s.registry →
      Regular (part.walk s split ctx) := fun part hpart _ hctx =>
    ih part hpart (hnode.part hpart) hctx
  cases hpinned : ctx.pinnedValue? node with
  | some value =>
    rw [walk_of_pinnedValue? hpinned]
    exact (hctx.regular_pinnedValue? hnode hpinned).bind fun _ _ => .pure _
  | none =>
  cases node with
  | number value =>
    rw [walk, hpinned]
    exact (regular_numberValue value).bind fun _ _ => .pure _
  | dice d id modifier =>
    rw [walk, hpinned]
    exact (s.regular_roll _).bind fun _ _ => .pure _
  | reference id critical =>
    rw [walk, hpinned]
    exact (s.regular_reference (hnode.registered _ (mem_subterms_self _) _ rfl) hctx).bind
      fun _ _ => .pure _
  | keep kind count items =>
    rw [walk, hpinned]
    have hkeep : ∀ values : List (Distribution W),
        Regular (orBlame (Distribution.keep values count.toNat kind)
          (fun _ => (keep kind count items).text) >>= fun kept => pure (Evaluation.plain kept)) :=
      fun _ => (Regular.orBlame _ _).bind fun _ _ => .pure _
    refine (regular_onlyDie? items).bind fun only? _ => ?_
    cases only? with
    | some only => exact (Regular.pure _).bind fun _ _ => hkeep _
    | none =>
      exact (regular_walkAll fun item hitem => hpart item hitem hctx).bind fun _ _ => hkeep _
  | comparison relation left right =>
    rw [walk, hpinned]
    refine (hpart left (by simp [parts]) hctx).bind fun l _ => ?_
    refine (hpart right (by simp [parts]) hctx).bind fun r _ => ?_
    refine (Regular.orBlame _ _).bind fun check _ => ?_
    split
    · exact (hsplit _ left right _ _ (hnode.part (by simp [parts])) (hnode.part (by simp [parts]))
        hctx).bind fun _ _ => .pure _
    · exact .pure _
  | conditional condition ifTrue ifFalse =>
    have hcomparison : condition.isComparison = true := hnode.shaped _ (mem_subterms_self _)
    rw [walk, hpinned]
    dsimp only
    rw [if_pos hcomparison]
    refine (hpart condition (by simp [parts]) hctx).bind fun c hc => ?_
    obtain ⟨check, rfl⟩ := exists_check_of_isComparison hcomparison hc
    dsimp only
    split
    · exact (hpart ifTrue (by simp [parts]) (hctx.critical false)).bind fun _ _ =>
        (hpart ifTrue (by simp [parts]) (hctx.critical true)).bind fun _ _ =>
          (hpart ifFalse (by simp [parts]) hctx).bind fun _ _ => .pure _
    · exact (hpart ifTrue (by simp [parts]) hctx).bind fun _ _ =>
        (hpart ifFalse (by simp [parts]) hctx).bind fun _ _ => .pure _
  | binary operation left right =>
    rw [walk, hpinned]
    exact (hpart left (by simp [parts]) hctx).bind fun l _ =>
      (hpart right (by simp [parts]) hctx).bind fun r _ =>
        (l.regular_combine operation r _).bind fun _ _ => .pure _
  | double inner =>
    rw [walk, hpinned]
    refine (hpart inner (by simp [parts]) hctx).bind fun i _ => ?_
    split
    · exact (i.distribution.regular_doubled _).bind fun _ _ => .pure _
    · exact .pure _
  | switch normal critical =>
    rw [walk, hpinned]
    dsimp only
    split
    · exact (hpart critical (by simp [parts]) hctx).bind fun _ _ => .pure _
    · exact (hpart normal (by simp [parts]) hctx).bind fun _ _ => .pure _
  | only inner =>
    rw [walk, hpinned]
    dsimp only
    split
    · exact (hpart inner (by simp [parts]) hctx).bind fun _ _ => .pure _
    · exact .pure _
  | function name args =>
    have hlength : args.length = 2 := hnode.shaped _ (mem_subterms_self _)
    obtain ⟨target, threshold, rfl⟩ := List.length_eq_two.1 hlength
    rw [walk, hpinned]
    dsimp only
    refine (hpart threshold (by simp [parts]) hctx).bind fun values _ => ?_
    refine (regular_constantThreshold name threshold values).bind fun bound _ => ?_
    refine (s.regular_clampEach hctx (hnode.part (by simp [parts]))).bind fun clamped? _ => ?_
    cases clamped? with
    | some clamped => exact .pure _
    | none => exact (hpart target (by simp [parts]) hctx).bind fun _ _ => .pure _
  | group inner =>
    rw [walk_group]
    exact hpart inner (by simp [parts]) hctx

/-- The second evaluation of a check sees trees of the same shape. -/
theorem isRegular_splitCheck (s : Settings W) : (splitCheck s).IsRegular s.registry := by
  intro relation left right ctx check hl hr hctx
  unfold splitCheck
  split
  · next rate left' right' _ hsides =>
    obtain ⟨hl', hr'⟩ := hl.decidingSides hr hsides
    split
    · exact .ok _
    · refine Regular.bind ?_ fun _ _ => .pure _
      exact (regular_walk (isRegular_noSplit _) left' hl' hctx.restricted).bind fun _ _ =>
        (regular_walk (isRegular_noSplit _) right' hr' hctx.restricted).bind fun _ _ =>
          (Regular.orBlame _ _).bind fun _ _ => .pure _
  · exact .ok _

theorem regular_evaluate {node : Node} (hnode : node.Wellformed s.registry)
    (hctx : ctx.Covers s.registry) : Regular (node.evaluate s ctx) :=
  regular_walk (isRegular_splitCheck s) node hnode hctx

theorem regular_values {node : Node} (hnode : node.Wellformed s.registry)
    (hctx : ctx.Covers s.registry) : Regular (node.values s ctx) :=
  (regular_evaluate hnode hctx).bind fun _ _ => .pure _

end Node

/-! ## 7. Combinations -/

/-- Going through combinations does not go wrong if no combination does: each of them has a value
for every group. -/
theorem regular_forCombinations {σ : Type} {visit : σ → Pins → W → Except EvalError σ}
    {groups : List (DiceGroup W)} {pins : Pins} {weight : W} {state : σ}
    (h : ∀ state pins' weight, (∀ id, (pins.lookup id).isSome = true ∨ id ∈ groups.map Prod.fst →
      (pins'.lookup id).isSome = true) → Regular (visit state pins' weight)) :
    Regular (forCombinations visit groups pins weight state) := by
  induction groups generalizing pins weight state with
  | nil => exact h state pins weight fun id hid => by simpa using hid
  | cons group rest ih =>
    refine .foldlM fun state p _ => ih fun state pins' weight hpins => h state pins' weight ?_
    intro id hid
    refine hpins id ?_
    by_cases heq : id = group.1
    · exact .inl (by rw [List.lookup_cons, heq, beq_self_eq_true]; rfl)
    · rw [lookup_cons_of_ne heq]
      simpa [heq] using hid

/-- The groups of a formula have the ids of the registry. -/
theorem map_fst_diceGroups {root : Node} {groups : List (DiceGroup W)}
    (h : diceGroups s root = .ok groups) :
    groups.map Prod.fst = s.registry.withIds.map Prod.fst := by
  have hall := (mapM_eq_ok _).1 h
  clear h
  generalize s.registry.withIds = entries at hall ⊢
  induction hall with
  | nil => rfl
  | cons hgroup _ ih => rw [List.map_cons, List.map_cons, (groupValues_eq_ok hgroup).1, ih]

theorem Registry.mem_withIds {registry : Registry} {id : ℕ} (h : (registry.get? id).isSome = true) :
    id ∈ registry.withIds.map Prod.fst := by
  obtain ⟨d, hd⟩ := Option.isSome_iff_exists.1 h
  obtain ⟨k, rfl, hk⟩ := Registry.get?_eq_some.1 hd
  obtain ⟨hk, -⟩ := List.getElem?_eq_some_iff.1 hk
  rw [withIds, List.map_fst_zip (by simp), List.mem_range'_1]
  omega

section Formulas

variable {root : Node} {groups : List (DiceGroup W)}

/-- The same for the groups of a formula: in each combination all dice of the registry have a
value. -/
theorem regular_combinations {σ : Type} {visit : σ → Pins → W → Except EvalError σ}
    (hgroups : diceGroups s root = .ok groups) {weight : W} {state : σ}
    (h : ∀ state pins weight, (∀ ctx : Context, ctx.pinned = some pins → ctx.Covers s.registry) →
      Regular (visit state pins weight)) :
    Regular (forCombinations visit groups [] weight state) := by
  refine regular_forCombinations fun state pins weight hpins => h state pins weight ?_
  intro ctx hctx pins' hpins' id hid
  obtain rfl := Option.some.inj (hctx.symm.trans hpins')
  exact hpins id (.inr (map_fst_diceGroups hgroups ▸ Registry.mem_withIds hid))

theorem regular_diceGroups (hroot : root.Wellformed s.registry) : Regular (diceGroups s root) := by
  refine .mapM fun ⟨id, d⟩ _ => ?_
  change Regular (groupValues s root id d)
  unfold groupValues
  split
  · next node hnode =>
    exact (Node.regular_values (hroot.of_mem (Node.definition?_mem hnode))
      (Context.covers_of_unpinned rfl)).bind fun _ _ => .pure _
  · exact (Regular.orBlame _ _).bind fun _ _ => .pure _

theorem regular_holdsPinned {relation : Relation} {left right : Node} {pins : Pins}
    (h : (Node.comparison relation left right).Wellformed s.registry)
    (hpins : ∀ ctx : Context, ctx.pinned = some pins → ctx.Covers s.registry) :
    Regular (holdsPinned s relation left right pins) := by
  refine Regular.bind ?_ fun _ _ => .pure _
  exact (Node.regular_values (h.part (by simp [Node.parts])) (hpins _ rfl)).bind fun _ _ =>
    (Node.regular_values (h.part (by simp [Node.parts])) (hpins _ rfl)).bind fun _ _ => .orBlame _ _

theorem regular_reusePlain (hroot : root.Wellformed s.registry)
    (hgroups : diceGroups s root = .ok groups) : Regular (reusePlain s groups root) :=
  .bind (regular_combinations hgroups fun _ _ _ hpins =>
    (Node.regular_values hroot (hpins _ rfl)).bind fun _ _ => .pure _) fun _ _ => .pure _

/-- No way to go through combinations goes wrong. -/
theorem regular_reuseByGroups (hroot : root.Wellformed s.registry)
    (hgroups : diceGroups s root = .ok groups) : Regular (reuseByGroups s groups root) := by
  have hstrip := hroot.of_mem root.stripGroups_mem_subterms
  unfold reuseByGroups
  split
  · next condition ifTrue ifFalse heq =>
    rw [heq] at hstrip
    split
    · next relation left right hcondition =>
      have hguarded : condition.Wellformed s.registry := hstrip.part (by simp [Node.parts])
      have hguard := hguarded.of_mem (Node.mem_subterms_of_comparison? hcondition)
      refine .bind (regular_combinations hgroups fun _ _ _ hpins => ?_) fun _ _ => .pure _
      refine (regular_holdsPinned hguard hpins).bind fun holds _ => ?_
      cases holds with
      | true => exact (Node.regular_evaluate (hstrip.part (by simp [Node.parts]))
          (hpins _ rfl)).bind fun _ _ => .pure _
      | false => exact (Node.regular_evaluate (hstrip.part (by simp [Node.parts]))
          (hpins _ rfl)).bind fun _ _ => .pure _
    · exact regular_reusePlain hroot hgroups
  · next relation left right heq =>
    rw [heq] at hstrip
    exact .bind (regular_combinations hgroups fun _ _ _ hpins =>
      (regular_holdsPinned hstrip hpins).bind fun _ _ => .pure _) fun _ _ => .pure _
  · split
    · split
      · exact .bind (regular_combinations hgroups fun _ _ _ hpins =>
          (Node.regular_values hroot (hpins _ rfl)).bind fun _ _ =>
            (Node.regular_values hroot (hpins _ rfl)).bind fun _ _ => .pure _) fun _ _ => .pure _
      · exact .bind (regular_combinations hgroups fun _ _ _ hpins =>
          (Node.regular_values hroot (hpins _ rfl)).bind fun _ _ => .pure _) fun _ _ => .pure _
    · exact regular_reusePlain hroot hgroups

theorem regular_criticalMixture (hroot : root.Wellformed s.registry) :
    Regular (criticalMixture s root) := by
  have hvalues : ∀ {ctx : Context}, ctx.pinned = none → Regular (root.values s ctx) := fun hctx =>
    Node.regular_values hroot (Context.covers_of_unpinned hctx)
  unfold criticalMixture
  dsimp only
  split
  · exact (hvalues rfl).bind fun _ _ => (hvalues rfl).bind fun _ _ =>
      (hvalues rfl).bind fun _ _ => .pure _
  · exact (hvalues rfl).bind fun _ _ => (hvalues rfl).bind fun _ _ => .pure _

theorem regular_evaluateFormula (hroot : root.Wellformed s.registry) :
    Regular (root.evaluateFormula s) := by
  unfold Node.evaluateFormula
  split
  · refine (regular_diceGroups hroot).bind fun groups hgroups => ?_
    dsimp only
    split
    · exact Regular.error.2 rfl
    · split
      · exact Regular.error.2 rfl
      · exact regular_reuseByGroups hroot hgroups
  · split
    · exact regular_criticalMixture hroot
    · exact Node.regular_evaluate hroot (Context.covers_of_unpinned rfl)

/-- **Well-formed formulas do not go wrong.**  Where all references of a text lie within its dice,
an evaluation that fails has not failed for the structure of the formula, at any rate of critical
hits and however mixtures are rounded. -/
theorem error_evaluateFormula_not_structural {text : String} {f : Formula}
    (htext : Formula.ofText text = .ok f)
    (hrefs : ∀ id critical, Node.reference id critical ∈ f.root.subterms →
      1 ≤ id.toNat ∧ id.toNat ≤ f.root.literals.length)
    (hregistry : s.registry = f.registry) {e : EvalError}
    (he : f.root.evaluateFormula s = .error e) : e.isStructural = false :=
  regular_evaluateFormula (hregistry ▸ Formula.wellformed_of_ofText htext hrefs) e he

end Formulas

end Walks

/-- `d4>1?d_1/(d_1-2):0`: a die divided by what it is above `2`. -/
def dividedByDie : Formula where
  root := .conditional (.comparison .greater (.dice ⟨1, 4, false⟩ (some 1) none) (.number 1.0))
    (.binary .div (.reference 1 false)
      (.group (.binary .sub (.reference 1 false) (.number 2.0)))) (.number 0.0)
  registry := [⟨1, 4, false⟩]

set_option maxRecDepth 4000 in
theorem ofText_dividedByDie : Formula.ofText "d4>1?d_1/(d_1-2):0" = .ok dividedByDie := by
  have htokens : tokenize "d4>1?d_1/(d_1-2):0" = .ok [⟨.dice ⟨1, 4, false⟩, 0⟩,
      ⟨.relation .greater, 2⟩, ⟨.number 1.0, 3⟩, ⟨.symbol .question, 4⟩, ⟨.reference 1 false, 5⟩,
      ⟨.symbol .slash, 8⟩, ⟨.symbol .leftParen, 9⟩, ⟨.reference 1 false, 10⟩,
      ⟨.symbol .minus, 13⟩, ⟨.number 2.0, 14⟩, ⟨.symbol .rightParen, 15⟩, ⟨.symbol .colon, 16⟩,
      ⟨.number 0.0, 17⟩] := by decide +kernel
  rw [Formula.ofText, htokens]
  rfl

set_option maxRecDepth 4000 in
/-- On a roll of `2` the formula divides by zero, and this is an error about a value. -/
theorem error_evaluateFormula_not_structural_dividedByDie :
    ∃ e, dividedByDie.root.evaluateFormula
        ({ registry := dividedByDie.registry, rate := some 5 } : Settings ℚ) = .error e
      ∧ e.isStructural = false := by
  have herror : (dividedByDie.root.evaluateFormula
      ({ registry := dividedByDie.registry, rate := some 5 } : Settings ℚ)).isOk = false := by
    decide +kernel
  have hrefs : ∀ id critical, Node.reference id critical ∈ dividedByDie.root.subterms →
      1 ≤ id.toNat ∧ id.toNat ≤ dividedByDie.root.literals.length := by
    intro id critical hid
    obtain ⟨rfl, rfl⟩ : id = 1 ∧ critical = false := by
      simpa [dividedByDie, Node.subterms, Node.subtermsAll] using hid
    decide
  cases he : dividedByDie.root.evaluateFormula
      ({ registry := dividedByDie.registry, rate := some 5 } : Settings ℚ) with
  | ok _ => rw [he] at herror; cases herror
  | error e =>
    exact ⟨e, rfl, error_evaluateFormula_not_structural ofText_dividedByDie hrefs rfl he⟩

end DiceOdds
