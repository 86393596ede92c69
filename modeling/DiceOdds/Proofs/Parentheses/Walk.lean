import DiceOdds.Proofs.Parentheses.Enclosed
import DiceOdds.Evaluation.Split

/-!
# Evaluating parts in parentheses

Parts in more parentheses come to the same values, the same checks and the same probabilities.  The
only things that change are texts: of errors, and of the conditions in the tree of branches.

## Why texts are read off the tree

Conditions are told apart by their paths, but they carry their texts.  `Node.title` gives the text
that belongs to a path, in whatever reading, so a text is known where its path is.
-/

namespace DiceOdds

variable {W : Type} [Weight W]

/-! ## 1. Evaluations without texts -/

/-- A condition without its text. -/
def NestedCondition.untitled (entry : NestedCondition W) : NestedCondition W :=
  { entry with condition := "" }

/-- The text of the condition at a path. -/
def Node.title : Node → List BranchStep → String
  | .conditional condition _ _, [] => condition.text
  | .conditional _ ifTrue ifFalse, step :: path =>
    if step = .false ∨ step = .miss then ifFalse.title path else ifTrue.title path
  | .group inner, path => inner.title path
  | _, _ => ""

namespace Evaluation

/-- An evaluation without the texts of its conditions. -/
def untitled : Evaluation W → Evaluation W
  | conditional result =>
    conditional { result with nested := result.nested.map NestedCondition.untitled }
  | critical result => critical { result with nested := result.nested.map NestedCondition.untitled }
  | e => e

theorem distribution_untitled (e : Evaluation W) : e.untitled.distribution = e.distribution := by
  cases e <;> rfl

omit [Weight W] in
theorem nested_untitled (e : Evaluation W) :
    e.untitled.nested = e.nested.map NestedCondition.untitled := by
  cases e <;> rfl

theorem nestedUnder_untitled (e : Evaluation W) (step : BranchStep) (reach : W) :
    e.untitled.nestedUnder step reach
      = (e.nestedUnder step reach).map NestedCondition.untitled := by
  rw [nestedUnder, nestedUnder, nested_untitled, List.map_map, List.map_map]
  rfl

theorem combine_untitled (operation : Operation) (l r : Evaluation W) (part : Unit → String) :
    l.untitled.combine operation r.untitled part = l.combine operation r part := by
  cases operation with
  | mul => cases l <;> cases r <;> rfl
  | _ => cases l <;> cases r <;> rfl

theorem untitled_conditional (mixing : Mixing) (text : String) (check : Check W)
    (yes no : Evaluation W) : (conditional (.ofBranches mixing text check yes no)).untitled
      = conditional (.ofBranches mixing "" check yes.untitled no.untitled) := by
  unfold ConditionalResult.ofBranches
  simp only [distribution_untitled, nestedUnder_untitled]
  simp only [untitled, List.map_cons, List.map_append]
  rfl

theorem untitled_critical (mixing : Mixing) (text : String) (check : Check W)
    (shares : CriticalSplit W) (normalHit criticalHit miss : Evaluation W) :
    (critical (.ofBranches mixing text check shares normalHit criticalHit miss)).untitled
      = critical (.ofBranches mixing "" check shares normalHit.untitled criticalHit.untitled
        miss.untitled) := by
  unfold CriticalResult.ofBranches
  simp only [distribution_untitled, nestedUnder_untitled]
  simp only [untitled, List.map_cons, List.map_append]
  rfl

/-- The conditions have the texts that belong to their paths. -/
def Titled (title : List BranchStep → String) (e : Evaluation W) : Prop :=
  ∀ entry ∈ e.nested, entry.condition = title entry.path

theorem Titled.nestedUnder {title title' : List BranchStep → String} {e : Evaluation W}
    (h : e.Titled title) {step : BranchStep} {reach : W}
    (hstep : ∀ path, title' (step :: path) = title path) :
    ∀ entry ∈ e.nestedUnder step reach, entry.condition = title' entry.path := by
  intro entry hentry
  obtain ⟨inner, hinner, rfl⟩ := List.mem_map.1 hentry
  exact (h inner hinner).trans (hstep inner.path).symm

namespace Titled

theorem conditional {condition ifTrue ifFalse : Node} {mixing : Mixing} {check : Check W}
    {yes no : Evaluation W} (hyes : yes.Titled ifTrue.title) (hno : no.Titled ifFalse.title) :
    (Evaluation.conditional (.ofBranches mixing condition.text check yes no)).Titled
      (Node.conditional condition ifTrue ifFalse).title := by
  refine List.forall_mem_cons.2 ⟨rfl, List.forall_mem_append.2 ⟨?_, ?_⟩⟩
  · exact hyes.nestedUnder fun _ => rfl
  · exact hno.nestedUnder fun _ => rfl

theorem critical {condition ifTrue ifFalse : Node} {mixing : Mixing} {check : Check W}
    {shares : CriticalSplit W} {normalHit criticalHit miss : Evaluation W}
    (hnormal : normalHit.Titled ifTrue.title) (hcritical : criticalHit.Titled ifTrue.title)
    (hmiss : miss.Titled ifFalse.title) : (Evaluation.critical
      (.ofBranches mixing condition.text check shares normalHit criticalHit miss)).Titled
        (Node.conditional condition ifTrue ifFalse).title := by
  refine List.forall_mem_cons.2 ⟨rfl, List.forall_mem_append.2
    ⟨List.forall_mem_append.2 ⟨?_, ?_⟩, ?_⟩⟩
  · exact hnormal.nestedUnder fun _ => rfl
  · exact hcritical.nestedUnder fun _ => rfl
  · exact hmiss.nestedUnder fun _ => rfl

end Titled

/-- Two evaluations that differ in texts only, each with the texts of its own tree. -/
structure Retitled (title title' : List BranchStep → String) (e e' : Evaluation W) : Prop where
  untitled : e'.untitled = e.untitled
  titled : e.Titled title
  titled' : e'.Titled title'

namespace Retitled

variable {title title' : List BranchStep → String} {e e' : Evaluation W}

theorem distribution (h : e.Retitled title title' e') : e'.distribution = e.distribution := by
  rw [← e'.distribution_untitled, h.untitled, e.distribution_untitled]

omit [Weight W] in
theorem plain {x y : Distribution W} (h : y = x) :
    (Evaluation.plain x).Retitled title title' (.plain y) :=
  ⟨congrArg Evaluation.plain h, List.forall_mem_nil _, List.forall_mem_nil _⟩

omit [Weight W] in
theorem check {c c' : Check W} (h : c' = c) :
    (Evaluation.check c).Retitled title title' (.check c') :=
  ⟨congrArg Evaluation.check h, List.forall_mem_nil _, List.forall_mem_nil _⟩

end Retitled

end Evaluation

/-! ## 2. Dice -/

theorem agrees_orBlame {α : Type} (x : Except Exceeded α) (part part' : Unit → String) :
    Agrees (· = ·) (orBlame x part) (orBlame x part') := by
  cases x with
  | error e => exact .error _ _
  | ok a => exact .ok rfl

namespace Node.Enclosed

variable {s : Settings W} {ctx : Context} {mayHide : Bool} {node node' : Node}

theorem die? (h : Enclosed mayHide node node') : node'.die? s ctx = node.die? s ctx := by
  induction h with
  | group _ ih => exact ih
  | enclose _ ih => exact ih
  | _ => rfl

theorem onlyDie? {items items' : List Node} (h : List.Forall₂ (Enclosed mayHide) items items') :
    DiceOdds.onlyDie? s ctx items' = DiceOdds.onlyDie? s ctx items := by
  rcases h with _ | ⟨hitem, _ | _⟩
  · rfl
  · exact hitem.die?
  · rfl

theorem pinnedValue? (h : Enclosed mayHide node node') (hctx : mayHide = true → ctx.pinned = none)
    (hne : ∀ inner, node' ≠ .group inner) : ctx.pinnedValue? node' = ctx.pinnedValue? node := by
  cases mayHide with
  | true => rw [pinnedValue?_of_unpinned (hctx rfl), pinnedValue?_of_unpinned (hctx rfl)]
  | false => rw [Context.pinnedValue?, Context.pinnedValue?, h.definingId? hne]

/-- The value of dice on which a limit acts is found in parentheses as well, unless the dice are
hidden by them. -/
theorem pinnedValue?_target {name : FunctionName} {target target' threshold threshold' : Node}
    {p : Pool} (h : Enclosed mayHide target target') (hctx : mayHide = true → ctx.pinned = none)
    (hname : name.perDie = true) (hpool : target.strippedPool? = some p)
    (hdice : mayHide = true ∨ (Node.function name [target', threshold']).hidesDice
      = (Node.function name [target, threshold]).hidesDice) :
    ctx.pinnedValue? target' = ctx.pinnedValue? target := by
  rcases hdice with hhide | hdice
  · rw [pinnedValue?_of_unpinned (hctx hhide), pinnedValue?_of_unpinned (hctx hhide)]
  have hpool' : target'.strippedPool? = some p := h.strippedPool?.trans hpool
  cases h with
  | dice d id modifier => rfl
  | group h =>
    rw [ctx.pinnedValue?_of_definingId? rfl, ctx.pinnedValue?_of_definingId? rfl]
  | @enclose _ inner h =>
    cases target with
    | group inner' =>
      rw [ctx.pinnedValue?_of_definingId? rfl, ctx.pinnedValue?_of_definingId? rfl]
    | dice d id modifier =>
      have hinner : inner.strippedPool? = some p := hpool'
      have hfalse : (name.perDie && inner.strippedPool?.isSome) = false := hdice
      rw [hname, hinner] at hfalse
      cases hfalse
    | _ => cases hpool
  | _ => cases hpool

theorem agrees_clampPinned {name : FunctionName} {target target' threshold threshold' : Node}
    (h : Enclosed mayHide target target') (hctx : mayHide = true → ctx.pinned = none)
    (hname : name.perDie = true)
    (hdice : mayHide = true ∨ (Node.function name [target', threshold']).hidesDice
      = (Node.function name [target, threshold]).hidesDice) (bound : Outcome) :
    Agrees (· = ·) (s.clampPinned ctx name target bound)
      (s.clampPinned ctx name target' bound) := by
  cases hpool : target.strippedPool? with
  | none =>
    rw [clampPinned_of_strippedPool?_eq_none hpool,
      clampPinned_of_strippedPool?_eq_none (h.strippedPool?.trans hpool)]
    exact .ok rfl
  | some p =>
    unfold Settings.clampPinned
    rw [h.pinnedValue?_target hctx hname hpool hdice]
    cases ctx.pinnedValue? target with
    | none => exact .ok rfl
    | some total =>
      dsimp only
      rw [h.die?]
      refine (Agrees.refl _).bind fun found _ _ _ hfound => ?_
      subst hfound
      cases found with
      | none => exact .ok rfl
      | some found =>
        refine (Agrees.refl _).bind fun value _ _ _ hvalue => ?_
        subst hvalue
        refine (agrees_orBlame _ _ _).bind fun clamped _ _ _ hclamped => ?_
        exact .ok (congrArg some hclamped)

theorem agrees_clampEach {name : FunctionName} {target target' threshold threshold' : Node}
    (h : Enclosed mayHide target target') (hctx : mayHide = true → ctx.pinned = none)
    (hdice : mayHide = true ∨ (Node.function name [target', threshold']).hidesDice
      = (Node.function name [target, threshold]).hidesDice) (bound : Outcome) :
    Agrees (· = ·) (s.clampEach ctx name target bound) (s.clampEach ctx name target' bound) := by
  unfold Settings.clampEach
  cases hname : name.perDie with
  | false => exact .ok rfl
  | true =>
    rw [if_pos rfl, if_pos rfl]
    refine (h.agrees_clampPinned hctx hname hdice bound).bind fun clamped? _ _ _ hclamped => ?_
    subst hclamped
    cases clamped? with
    | some clamped => exact .ok rfl
    | none =>
      dsimp only
      rw [h.die?]
      refine (Agrees.refl _).bind fun found _ _ _ hfound => ?_
      subst hfound
      cases found with
      | none => exact .ok rfl
      | some found =>
        exact (agrees_orBlame _ _ _).bind fun sum _ _ _ hsum => .ok (congrArg some hsum)

end Node.Enclosed

/-! ## 3. Arithmetic -/

theorem Operation.agrees_apply (operation : Operation) (part part' : Unit → String)
    (a b : Outcome) : Agrees (· = ·) (operation.apply part a b) (operation.apply part' a b) := by
  unfold apply
  cases operation with
  | add => cases a.add? b <;> first | exact .ok rfl | exact .error _ _
  | sub => cases a.sub? b <;> first | exact .ok rfl | exact .error _ _
  | mul => cases a.mul? b <;> first | exact .ok rfl | exact .error _ _
  | div => cases a.div? b <;> first | exact .ok rfl | exact .error _ _

theorem Distribution.agrees_combine {ε : Type} {op op' : Outcome → Outcome → Except ε Outcome}
    (h : ∀ a b, Agrees (· = ·) (op a b) (op' a b)) (x y : Distribution W) :
    Agrees (· = ·) (x.combine y op) (x.combine y op') := by
  unfold combine
  refine Agrees.foldlM _ _ _ rfl fun out _ p _ hout => ?_
  subst hout
  refine Agrees.foldlM _ _ _ rfl fun out _ q _ hout => ?_
  subst hout
  exact (h _ _).bind fun _ _ _ _ hvalue => .ok (by rw [hvalue])

theorem Distribution.agrees_tryMap {ε : Type} {f f' : Outcome → Except ε Outcome}
    (h : ∀ a, Agrees (· = ·) (f a) (f' a)) (x : Distribution W) :
    Agrees (· = ·) (x.tryMap f) (x.tryMap f') := by
  refine Agrees.foldlM _ _ _ rfl fun out _ p _ hout => ?_
  subst hout
  exact (h _).bind fun _ _ _ _ hvalue => .ok (by rw [hvalue])

theorem Distribution.agrees_doubled (d : Distribution W) (part part' : Unit → String) :
    Agrees (· = ·) (d.doubled part) (d.doubled part') := by
  unfold doubled
  refine agrees_tryMap (fun value => ?_) d
  cases value.times? 2 with
  | none => exact .error _ _
  | some twice => exact .ok rfl

theorem agrees_scaleByCheck (check : Check W) (other : Evaluation W) (part part' : Unit → String) :
    Agrees (· = ·) (scaleByCheck check other part) (scaleByCheck check other part') := by
  unfold scaleByCheck
  refine Distribution.agrees_tryMap (fun value => ?_) _
  cases Outcome.ofWeight? (value.toWeight * check.successProbability) with
  | none => exact .error _ _
  | some scaled => exact .ok rfl

theorem Evaluation.agrees_combine (operation : Operation) (l r : Evaluation W)
    (part part' : Unit → String) :
    Agrees (· = ·) (l.combine operation r part) (l.combine operation r part') := by
  have hindependent : Agrees (· = ·)
      (l.distribution.combine r.distribution (operation.apply part) >>= fun values =>
        orBlame values.checkWeights part)
      (l.distribution.combine r.distribution (operation.apply part') >>= fun values =>
        orBlame values.checkWeights part') := by
    refine (Distribution.agrees_combine (operation.agrees_apply part part') _ _).bind
      fun values _ _ _ hvalues => ?_
    subst hvalues
    exact agrees_orBlame _ _ _
  cases operation with
  | mul =>
    cases l with
    | check c => exact agrees_scaleByCheck c r part part'
    | _ =>
      cases r with
      | check c => exact agrees_scaleByCheck c _ part part'
      | _ => exact hindependent
  | _ => exact hindependent

/-! ## 4. The walk -/

/-- A split takes no notice of parentheses on the sides of the comparison. -/
def SplitCheck.Transparent (mayHide : Bool) (split : SplitCheck W) : Prop :=
  ∀ relation {left left' right right' : Node}, left.Enclosed mayHide left' →
    right.Enclosed mayHide right' → ∀ ctx : Context, (mayHide = true → ctx.pinned = none) →
    ∀ check, Agrees (· = ·) (split relation left right ctx check)
      (split relation left' right' ctx check)

omit [Weight W] in
theorem transparent_noSplit (mayHide : Bool) : (noSplit : SplitCheck W).Transparent mayHide :=
  fun _ _ _ _ _ _ _ _ _ _ => .ok rfl

omit [Weight W] in
theorem Evaluation.eq_check_of_untitled {e : Evaluation W} {check : Check W}
    (h : e.untitled = .check check) : e = .check check := by
  cases e with
  | check _ => exact h
  | _ => cases h

namespace Node

omit [Weight W] in
theorem Enclosed.bindPlain {node node' : Node} {x y : Except EvalError (Distribution W)}
    (h : Agrees (· = ·) x y) : Agrees (Evaluation.Retitled node.title node'.title)
      (x >>= fun d => pure (Evaluation.plain d))
      (y >>= fun d => (pure (Evaluation.plain d) : Except EvalError _)) :=
  h.bind fun _ _ _ _ h => .ok (.plain h.symm)

/-- Both trees come to the same, but for texts. -/
abbrev Alike (s : Settings W) (split : SplitCheck W) (ctx : Context) (node node' : Node) : Prop :=
  Agrees (Evaluation.Retitled node.title node'.title) (node.walk s split ctx)
    (node'.walk s split ctx)

theorem agrees_walkAll_of_alike {s : Settings W} {split : SplitCheck W} {ctx : Context}
    {items items' : List Node} (h : List.Forall₂ (Alike s split ctx) items items') :
    Agrees (· = ·) (walkAll s split items ctx) (walkAll s split items' ctx) := by
  induction h with
  | nil => exact .refl _
  | cons hitem _ ih =>
    rw [walkAll, walkAll]
    refine hitem.bind fun _ _ _ _ hfirst => ih.bind fun _ _ _ _ hothers => .ok ?_
    rw [hfirst.distribution, hothers]

section Constructs

variable {s : Settings W} {split : SplitCheck W} {ctx : Context} {mayHide : Bool}
  {node node' left left' right right' : Node}

namespace Enclosed

/-- Fixed values are found in both trees. -/
theorem alike_of_rolled (h : Enclosed mayHide node node')
    (hctx : mayHide = true → ctx.pinned = none) (hne : ∀ inner, node' ≠ .group inner)
    (hrolled : ctx.pinnedValue? node = none → ctx.pinnedValue? node' = none →
      Agrees (Evaluation.Retitled node.title node'.title) (node.walk s split ctx)
        (node'.walk s split ctx)) : Alike s split ctx node node' := by
  have hsame := h.pinnedValue? hctx hne
  cases hpinned : ctx.pinnedValue? node with
  | none => exact hrolled hpinned (hsame.trans hpinned)
  | some value =>
    rw [Alike, walk_of_pinnedValue? hpinned, walk_of_pinnedValue? (hsame.trans hpinned)]
    exact (Agrees.refl value).bind fun v _ _ _ hv => .ok (.plain (by rw [hv]))

theorem alike_keep {kind : KeepKind} {count : UInt32} {items items' : List Node}
    (h : Enclosed mayHide (.keep kind count items) (.keep kind count items'))
    (hitems : List.Forall₂ (Enclosed mayHide) items items')
    (halike : List.Forall₂ (Alike s split ctx) items items')
    (hctx : mayHide = true → ctx.pinned = none) :
    Alike s split ctx (.keep kind count items) (.keep kind count items') := by
  refine h.alike_of_rolled hctx (fun _ h => by cases h) fun hp hp' => ?_
  rw [walk, walk, hp, hp']
  dsimp only
  rw [onlyDie? hitems]
  refine (Agrees.refl _).bind fun only? _ _ _ honly => ?_
  subst honly
  cases only? with
  | none =>
    refine (agrees_walkAll_of_alike halike).bind fun values _ _ _ hvalues => ?_
    subst hvalues
    exact bindPlain (agrees_orBlame _ _ _)
  | some found => exact bindPlain (agrees_orBlame _ _ _)

theorem alike_comparison (relation : Relation) (hl : Alike s split ctx left left')
    (hr : Alike s split ctx right right') (hsplit : ∀ check, Agrees (· = ·)
      (split relation left right ctx check) (split relation left' right' ctx check)) :
    Alike s split ctx (.comparison relation left right) (.comparison relation left' right') := by
  rw [Alike, walk, walk, ctx.pinnedValue?_of_definingId? rfl, ctx.pinnedValue?_of_definingId? rfl]
  dsimp only
  refine hl.bind fun l l' _ _ hlv => hr.bind fun r r' _ _ hrv => ?_
  rw [hlv.distribution, hrv.distribution]
  refine (agrees_orBlame _ _ _).bind fun check _ _ _ hcheck => ?_
  subst hcheck
  cases s.rate.isSome && ctx.pinned.isNone && !ctx.restrictCritical with
  | false => exact .ok (.check rfl)
  | true =>
    refine (hsplit check).bind fun shares _ _ _ hshares => ?_
    exact .ok (.check (by rw [hshares]))

theorem alike_conditional {condition condition' ifTrue ifTrue' ifFalse ifFalse' : Node}
    (hcomparison : condition'.isComparison = condition.isComparison)
    (hc : Alike s split ctx condition condition') (ht : Alike s split ctx ifTrue ifTrue')
    (hhit : ∀ branch, Alike s split (ctx.critical branch) ifTrue ifTrue')
    (hf : Alike s split ctx ifFalse ifFalse') :
    Alike s split ctx (.conditional condition ifTrue ifFalse)
      (.conditional condition' ifTrue' ifFalse') := by
  rw [Alike, walk, walk, ctx.pinnedValue?_of_definingId? rfl, ctx.pinnedValue?_of_definingId? rfl]
  dsimp only
  rw [hcomparison]
  cases condition.isComparison with
  | false => exact .error _ _
  | true =>
  rw [if_pos rfl, if_pos rfl]
  refine hc.bind fun e e' _ _ he => ?_
  cases e with
  | check check =>
    obtain rfl := Evaluation.eq_check_of_untitled he.untitled
    dsimp only
    cases check.critical with
    | none =>
      refine ht.bind fun _ _ _ _ hyes => hf.bind fun _ _ _ _ hno => .ok ⟨?_,
        .conditional hyes.titled hno.titled, .conditional hyes.titled' hno.titled'⟩
      rw [Evaluation.untitled_conditional, Evaluation.untitled_conditional, hyes.untitled,
        hno.untitled]
    | some shares =>
      refine (hhit false).bind fun _ _ _ _ hnormal => (hhit true).bind fun _ _ _ _ hcritical =>
        hf.bind fun _ _ _ _ hmiss => .ok ⟨?_,
          .critical hnormal.titled hcritical.titled hmiss.titled,
          .critical hnormal.titled' hcritical.titled' hmiss.titled'⟩
      rw [Evaluation.untitled_critical, Evaluation.untitled_critical, hnormal.untitled,
        hcritical.untitled, hmiss.untitled]
  | _ =>
    cases e' with
    | check => cases he.untitled
    | _ => exact .error _ _

theorem alike_binary (operation : Operation) (hl : Alike s split ctx left left')
    (hr : Alike s split ctx right right') :
    Alike s split ctx (.binary operation left right) (.binary operation left' right') := by
  rw [Alike, walk, walk, ctx.pinnedValue?_of_definingId? rfl, ctx.pinnedValue?_of_definingId? rfl]
  refine hl.bind fun l l' _ _ hlv => hr.bind fun r r' _ _ hrv => bindPlain ?_
  rw [← Evaluation.combine_untitled operation l, ← Evaluation.combine_untitled operation l',
    hlv.untitled, hrv.untitled]
  exact Evaluation.agrees_combine _ _ _ _ _

theorem alike_function {name : FunctionName} {target target' threshold threshold' : Node}
    (htarget : Alike s split ctx target target')
    (hthreshold : Alike s split ctx threshold threshold')
    (hclamp : ∀ bound, Agrees (· = ·) (s.clampEach ctx name target bound)
      (s.clampEach ctx name target' bound)) :
    Alike s split ctx (.function name [target, threshold])
      (.function name [target', threshold']) := by
  rw [Alike, walk, walk, ctx.pinnedValue?_of_definingId? rfl, ctx.pinnedValue?_of_definingId? rfl]
  refine hthreshold.bind fun b b' _ _ hb => ?_
  have hbound : Agrees (· = ·) (constantThreshold name threshold b)
      (constantThreshold name threshold' b') := by
    rw [constantThreshold, constantThreshold, hb.distribution]
    cases b.distribution.point? with
    | none => exact .error _ _
    | some bound => exact .ok rfl
  refine hbound.bind fun bound _ _ _ hbound => ?_
  subst hbound
  refine (hclamp bound).bind fun clamped? _ _ _ hclamped => ?_
  subst hclamped
  cases clamped? with
  | none => exact htarget.bind fun _ _ _ _ ht => .ok (.plain (by rw [ht.distribution]))
  | some clamped => exact .ok (.plain rfl)

/-- **A tree with parts in more parentheses comes to the same**, but for texts. -/
theorem agrees_walk (hsplit : split.Transparent mayHide) (h : Enclosed mayHide node node')
    (hctx : mayHide = true → ctx.pinned = none) : Alike s split ctx node node' := by
  induction h generalizing ctx with
  | number value =>
    refine (Enclosed.number value).alike_of_rolled hctx (fun _ h => by cases h) fun hp _ => ?_
    rw [walk, hp]
    exact bindPlain (.refl _)
  | dice d id modifier =>
    refine (Enclosed.dice d id modifier).alike_of_rolled hctx (fun _ h => by cases h)
      fun hp _ => ?_
    rw [walk, hp]
    exact bindPlain (.refl _)
  | reference id critical =>
    refine (Enclosed.reference id critical).alike_of_rolled hctx (fun _ h => by cases h)
      fun hp _ => ?_
    rw [walk, hp]
    exact bindPlain (.refl _)
  | keep kind count hlength h hdice ih =>
    exact (Enclosed.keep kind count hlength h hdice).alike_keep
      (List.forall₂_iff_zip.2 ⟨hlength, h⟩)
      (List.forall₂_iff_zip.2 ⟨hlength, fun hi => ih hi hctx⟩) hctx
  | comparison relation hl hr ihl ihr =>
    exact alike_comparison relation (ihl hctx) (ihr hctx) fun check =>
      hsplit relation hl hr ctx hctx check
  | conditional hc _ _ ihc iht ihf =>
    exact alike_conditional hc.isComparison (ihc hctx) (iht hctx) (fun _ => iht hctx) (ihf hctx)
  | binary operation _ _ ihl ihr => exact alike_binary operation (ihl hctx) (ihr hctx)
  | double _ ih =>
    rw [Alike, walk, walk, ctx.pinnedValue?_of_definingId? rfl,
      ctx.pinnedValue?_of_definingId? rfl]
    refine (ih hctx).bind fun _ _ _ _ hv => ?_
    rw [hv.distribution]
    cases ctx.criticalBranch with
    | false => exact .ok (.plain rfl)
    | true => exact bindPlain (Distribution.agrees_doubled _ _ _)
  | switch _ _ ihn ihc =>
    rw [Alike, walk, walk, ctx.pinnedValue?_of_definingId? rfl,
      ctx.pinnedValue?_of_definingId? rfl]
    cases ctx.criticalBranch with
    | false => exact (ihn hctx).bind fun _ _ _ _ hv => .ok (.plain hv.distribution)
    | true => exact (ihc hctx).bind fun _ _ _ _ hv => .ok (.plain hv.distribution)
  | only _ ih =>
    rw [Alike, walk, walk, ctx.pinnedValue?_of_definingId? rfl,
      ctx.pinnedValue?_of_definingId? rfl]
    cases ctx.criticalBranch with
    | false => exact .ok (.plain rfl)
    | true => exact (ih hctx).bind fun _ _ _ _ hv => .ok (.plain hv.distribution)
  | @function name args args' hlength h hdice ih =>
    have hrolled : ∀ args, ctx.pinnedValue? (.function name args) = none := fun _ =>
      ctx.pinnedValue?_of_definingId? rfl
    have hargs : List.Forall₂ (fun arg arg' => Enclosed mayHide arg arg'
        ∧ Alike s split ctx arg arg') args args' :=
      List.forall₂_iff_zip.2 ⟨hlength, fun hi => ⟨h hi, ih hi hctx⟩⟩
    rcases hargs with _ | ⟨⟨htarget, ihtarget⟩, _ | ⟨⟨_, ihthreshold⟩, _ | _⟩⟩
    case cons.cons.nil =>
      exact alike_function ihtarget ihthreshold fun bound =>
        htarget.agrees_clampEach hctx hdice bound
    -- functions have two arguments
    all_goals
      simp only [Alike, walk, hrolled]
      exact .error _ _
  | group _ ih =>
    rw [Alike, walk_group, walk_group]
    exact ih hctx
  | enclose _ ih =>
    rw [Alike, walk_group]
    exact ih hctx

end Enclosed

end Constructs

end Node

/-! ## 5. Splitting checks -/

theorem Node.literal?_stripGroups (node : Node) :
    node.stripGroups.literal? = node.strippedPool?.map Pool.dice := by
  rw [strippedPool?]
  cases node.stripGroups <;> rfl

namespace Node.Enclosed

variable {mayHide : Bool} {node node' left left' right right' : Node}

theorem keptPool? (h : Enclosed mayHide node node') :
    DiceOdds.keptPool? node' = DiceOdds.keptPool? node := by
  unfold DiceOdds.keptPool?
  have hstrip := h.stripGroups
  have hne := node'.stripGroups_ne_group
  generalize node.stripGroups = a, node'.stripGroups = b at hstrip hne
  cases hstrip with
  | keep kind count hlength h hdice =>
    have hitems := List.forall₂_iff_zip.2 ⟨hlength, h⟩
    rcases hitems with _ | ⟨hitem, _ | _⟩
    · rfl
    · dsimp only
      rw [Node.literal?_stripGroups, Node.literal?_stripGroups, hitem.strippedPool?]
    · rfl
  | group => exact absurd rfl (hne _)
  | enclose => exact absurd rfl (hne _)
  | _ => rfl

theorem poolSplit? (h : Enclosed mayHide left left') (rate : W) (relation : Relation)
    (check : Check W) : DiceOdds.poolSplit? rate relation left' check
      = DiceOdds.poolSplit? rate relation left check := by
  unfold DiceOdds.poolSplit?
  rw [h.keptPool?]

theorem decidingSides? (hl : Enclosed mayHide left left') (hr : Enclosed mayHide right right') :
    Option.Rel (fun sides sides' : Node × Node => Enclosed mayHide sides.1 sides'.1
      ∧ Enclosed mayHide sides.2 sides'.2) (DiceOdds.decidingSides? left right)
      (DiceOdds.decidingSides? left' right') := by
  unfold DiceOdds.decidingSides?
  rw [hl.hasCriticalDice, hr.hasCriticalDice]
  cases left.hasCriticalDice || right.hasCriticalDice with
  | true => exact .some ⟨hl, hr⟩
  | false =>
    have hmark := hl.markLeftmost?
    rw [if_neg Bool.false_ne_true, if_neg Bool.false_ne_true]
    generalize left.markLeftmost? = m, left'.markLeftmost? = m' at hmark
    cases hmark with
    | some hmarked => exact .some ⟨hmarked, hr⟩
    | none =>
      have hmark := hr.markLeftmost?
      generalize right.markLeftmost? = m, right'.markLeftmost? = m' at hmark
      cases hmark with
      | some hmarked => exact .some ⟨hl, hmarked⟩
      | none => exact .none

variable {s : Settings W} {ctx : Context}

theorem agrees_restrictedSplit (hl : Enclosed mayHide left left')
    (hr : Enclosed mayHide right right') (hctx : mayHide = true → ctx.pinned = none)
    (relation : Relation) (check : Check W) : Agrees (· = ·)
      (restrictedSplit s relation left right ctx check)
      (restrictedSplit s relation left' right' ctx check) := by
  have htransparent := transparent_noSplit (W := W) mayHide
  have hrestricted : mayHide = true → ctx.restricted.pinned = none := hctx
  refine (hl.agrees_walk htransparent hrestricted).bind fun _ _ _ _ hlow =>
    (hr.agrees_walk htransparent hrestricted).bind fun _ _ _ _ hlow' => ?_
  rw [hlow.distribution, hlow'.distribution]
  exact (agrees_orBlame _ _ _).bind fun _ _ _ _ hcheck => .ok (by rw [hcheck])

end Node.Enclosed

theorem transparent_splitCheck (s : Settings W) (mayHide : Bool) :
    (splitCheck s).Transparent mayHide := by
  intro relation left left' right right' hl hr ctx hctx check
  unfold splitCheck
  cases s.rate with
  | none => exact .ok rfl
  | some rate =>
    have hsides := hl.decidingSides? hr
    generalize decidingSides? left right = m, decidingSides? left' right' = m' at hsides
    cases hsides with
    | none => exact .ok rfl
    | some h =>
      dsimp only
      rw [h.1.poolSplit?]
      cases poolSplit? rate relation _ check with
      | some split => exact .ok rfl
      | none =>
        refine (h.1.agrees_restrictedSplit h.2 hctx relation check).bind fun shares _ _ _ h => ?_
        exact .ok (congrArg some h)

namespace Node.Enclosed

variable {s : Settings W} {ctx : Context} {mayHide : Bool}
  {node node' left left' right right' : Node}

theorem agrees_evaluate (h : Enclosed mayHide node node')
    (hctx : mayHide = true → ctx.pinned = none) :
    Agrees (Evaluation.Retitled node.title node'.title) (node.evaluate s ctx)
      (node'.evaluate s ctx) :=
  h.agrees_walk (transparent_splitCheck s mayHide) hctx

theorem agrees_values (h : Enclosed mayHide node node')
    (hctx : mayHide = true → ctx.pinned = none) :
    Agrees (· = ·) (node.values s ctx) (node'.values s ctx) :=
  (h.agrees_evaluate hctx).bind fun _ _ _ _ he => .ok he.distribution.symm

theorem agrees_compareNodes (hl : Enclosed mayHide left left')
    (hr : Enclosed mayHide right right') (hctx : mayHide = true → ctx.pinned = none)
    (relation : Relation) : Agrees (· = ·) (compareNodes s relation left right ctx)
      (compareNodes s relation left' right' ctx) := by
  refine (hl.agrees_values hctx).bind fun l _ _ _ hlv =>
    (hr.agrees_values hctx).bind fun r _ _ _ hrv => ?_
  subst hlv hrv
  exact agrees_orBlame _ _ _

end Node.Enclosed

end DiceOdds
