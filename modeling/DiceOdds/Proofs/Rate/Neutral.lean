import DiceOdds.Proofs.Critical.Succeeds
import DiceOdds.Proofs.Rate.Same
import DiceOdds.Evaluation.OfFormula

/-!
# Critical hits that nothing asks for

Where no part of a formula says what happens on a critical hit, it does not matter whether critical
hits are on.  Checks are split, but both kinds of hits lead to the same branch; and a conditional
mixes its branches the same way, whether the hits come in one part or in two.

## Why this is more than forgetting the split

The split is found out by evaluating the sides of the check once more, and this might fail where
the formula itself does not; between arithmetic sides it never does.  And the parts of a mixture
are scaled before they are rounded, so two parts for the same branch have to make up one exactly.
-/

namespace DiceOdds

variable {s : Settings ℚ} {ctx ctx' : Context}

/-! ## 1. Two parts for one branch -/

namespace Distribution

/-- Rounding sees a distribution only through its weights. -/
theorem rounded_congr {x y : Distribution ℚ} (hx : x.Positive) (hy : y.Positive)
    (h : ∀ v, x.weightOf v = y.weightOf v) : x.rounded = y.rounded := by
  unfold rounded
  rw [toList_eq_of_weightOf hx hy h]

theorem positive_blend (parts : List (ℚ × Distribution ℚ)) (target : ℚ) :
    (blend parts target).Positive :=
  foldl_invariant _ Positive parts positive_empty fun out part _ hout => by
    unfold addPart
    split
    · exact hout.addScaled _
    · exact hout

/-- Two parts with the same values are one part with the sum of their probabilities. -/
theorem mix_twice {yes no : Distribution ℚ} {p q r target : ℚ} (hyes : yes.Nonneg)
    (hno : no.Nonneg) (htarget : 0 ≤ target) (hp : 0 ≤ p) (hq : 0 ≤ q) (hr : 0 ≤ r) :
    mix [(p, yes), (q, yes), (r, no)] target = mix [(p + q, yes), (r, no)] target := by
  rw [mix_eq_rounded, mix_eq_rounded]
  refine rounded_congr (positive_blend _ _) (positive_blend _ _) fun v => ?_
  rw [weightOf_eq_sumOver, weightOf_eq_sumOver, sumOver_blend htarget, sumOver_blend htarget]
  · simp only [List.map_cons, List.map_nil, List.sum_cons, List.sum_nil, add_zero]
    ring
  · simp [hyes, hno, add_nonneg hp hq, hr]
  · simp [hyes, hno, hp, hq, hr]

end Distribution

theorem targetTotal_nonneg (mixing : Mixing) {total : ℚ} (h : 0 ≤ total) (parts : List ℚ) :
    0 ≤ mixing.targetTotal total parts := by
  cases mixing with
  | rounded => exact h
  | exact =>
    unfold Mixing.targetTotal
    cases Mixing.commonTotal? total parts with
    | none => exact h
    | some common => exact Nat.cast_nonneg common

/-- **A conditional that is split mixes like one that is not**, if both kinds of hits come to the
same values. -/
theorem combined_ofBranches_divided (mixing : Mixing) (text : String) {check : Check ℚ}
    {shares : CriticalSplit ℚ} {normalHit criticalHit miss yes no : Evaluation ℚ}
    (hs : 0 ≤ check.success) (hf : 0 ≤ check.failure) (h : check.DividedBy shares)
    (hnormal : normalHit.distribution = yes.distribution)
    (hcritical : criticalHit.distribution = yes.distribution)
    (hmiss : miss.distribution = no.distribution) (hyes : yes.distribution.Positive)
    (hno : no.distribution.Positive) :
    (CriticalResult.ofBranches mixing text check shares normalHit criticalHit miss).combined
      = (ConditionalResult.ofBranches mixing text check yes no).combined := by
  unfold CriticalResult.ofBranches ConditionalResult.ofBranches
  dsimp only
  rw [hnormal, hcritical, hmiss, Mixing.targetTotal_twice]
  by_cases hzero : check.total = 0
  · rw [hzero, Mixing.targetTotal_zero, Distribution.mix_target_zero, Distribution.mix_target_zero]
  · have htotal : 0 ≤ check.total := add_nonneg hs hf
    have hfail : 1 - check.successProbability = check.failureProbability := by
      rw [Check.successProbability, Check.failureProbability, Check.share_eq, Check.share_eq,
        sub_eq_iff_eq_add, ← add_div, add_comm]
      exact (div_self hzero).symm
    have hmissing : 0 ≤ check.failureProbability := by
      rw [Check.failureProbability, Check.share_eq]
      exact div_nonneg hf htotal
    rw [hfail, ← h.refined.1, ← h.refined.2]
    exact Distribution.mix_twice hyes.nonneg hno.nonneg (targetTotal_nonneg mixing htotal _)
      h.normal_nonneg h.critical_nonneg (h.refined.2 ▸ hmissing)

/-! ## 2. Readings of all dice -/

/-- All dice are rolled, and all of their faces may show. -/
structure Context.Full (ctx : Context) : Prop where
  unpinned : ctx.pinned = none
  unrestricted : ctx.restrictCritical = false

theorem Context.Full.critical (h : ctx.Full) (branch : Bool) : (ctx.critical branch).Full :=
  ⟨h.unpinned, h.unrestricted⟩

theorem Settings.admits_of_full (h : ctx.Full) (d : Dice) : s.admits ctx d = fun _ => true := by
  unfold admits
  cases s.rate with
  | none => rfl
  | some rate => simp [h.unrestricted]

section Full

variable (h' : ctx'.Full) (h : ctx.Full)

include h' h

theorem die_eq_of_full (d : Dice) (modifier : Option Modifier) :
    s.die ctx' d modifier = s.withoutRate.die ctx d modifier := by
  unfold Settings.die
  rw [Settings.admits_of_full h', Settings.admits_of_full h]

theorem die?_eq_of_full (node : Node) : node.die? s ctx' = node.die? s.withoutRate ctx := by
  induction node using Node.stripGroups.induct with
  | case1 inner ih => exact ih
  | case2 node hnode =>
    cases node with
    | group inner => exact absurd rfl (hnode inner)
    | dice d id modifier =>
      rw [Node.die?, Node.die?, h'.unpinned, h.unpinned, die_eq_of_full h' h]
    | _ => rfl

theorem onlyDie?_eq_of_full (items : List Node) :
    onlyDie? s ctx' items = onlyDie? s.withoutRate ctx items := by
  match items with
  | [] => rfl
  | [item] => exact die?_eq_of_full h' h item
  | _ :: _ :: _ => rfl

theorem roll_eq_of_full (node : Node) : s.roll ctx' node = s.withoutRate.roll ctx node := by
  rw [Settings.roll, Settings.roll, die?_eq_of_full h' h]

theorem clampEach_eq_of_full (name : FunctionName) (target : Node) (bound : Outcome) :
    s.clampEach ctx' name target bound = s.withoutRate.clampEach ctx name target bound := by
  unfold Settings.clampEach Settings.clampPinned
  rw [Node.pinnedValue?_of_unpinned h'.unpinned, Node.pinnedValue?_of_unpinned h.unpinned,
    die?_eq_of_full h' h]

theorem reference_eq_of_full (id : UInt32) (critical : Bool) :
    s.reference ctx' id critical = s.withoutRate.reference ctx id critical := by
  unfold Settings.reference
  rw [h'.unpinned, h.unpinned]
  rfl

end Full

/-! ## 3. The walk -/

/-- Nothing in the formula says what happens on a critical hit, and checks compare arithmetic. -/
structure Node.Indifferent (node : Node) : Prop where
  unwrapped : node.hasCriticalWrapper = false
  sides : ∀ relation left right, .comparison relation left right ∈ node.subterms →
    left.Arithmetic ∧ right.Arithmetic

theorem Node.Indifferent.part {node part : Node} (h : node.Indifferent)
    (hpart : part ∈ node.parts) : part.Indifferent where
  unwrapped := any_eq_false_of_mem_parts hpart h.unwrapped
  sides relation left right hn :=
    h.sides relation left right (subterms_subset_of_mem_parts hpart hn)

theorem Node.Indifferent.of_parts {node : Node} (hself : node.isCriticalWrapper = false)
    (hsides : ∀ relation left right, node = .comparison relation left right →
      left.Arithmetic ∧ right.Arithmetic)
    (h : ∀ part ∈ node.parts, part.Indifferent) : node.Indifferent where
  unwrapped := by
    rw [hasCriticalWrapper, List.any_eq_false, subterms_eq_parts, List.forall_mem_cons]
    refine ⟨Bool.eq_false_iff.1 hself, fun n hn => ?_⟩
    obtain ⟨part, hpart, hn⟩ := mem_subtermsAll.1 hn
    exact List.any_eq_false.1 (h part hpart).unwrapped n hn
  sides relation left right hmem := by
    rw [subterms_eq_parts, List.mem_cons] at hmem
    rcases hmem with hnode | hmem
    · exact hsides relation left right hnode.symm
    · obtain ⟨part, hpart, hmem⟩ := mem_subtermsAll.1 hmem
      exact (h part hpart).sides relation left right hmem

theorem Node.Arithmetic.indifferent {node : Node} (h : node.Arithmetic) : node.Indifferent := by
  induction h with
  | number value => exact .of_parts rfl (fun _ _ _ h => by cases h) (List.forall_mem_nil _)
  | dice d id modifier => exact .of_parts rfl (fun _ _ _ h => by cases h) (List.forall_mem_nil _)
  | reference id critical =>
    exact .of_parts rfl (fun _ _ _ h => by cases h) (List.forall_mem_nil _)
  | keep kind count _ ih => exact .of_parts rfl (fun _ _ _ h => by cases h) ih
  | binary operation _ _ ihl ihr =>
    exact .of_parts rfl (fun _ _ _ h => by cases h) (by simp [parts, ihl, ihr])
  | function name bound _ ih =>
    have hbound : (Node.number bound).Indifferent :=
      .of_parts rfl (fun _ _ _ h => by cases h) (List.forall_mem_nil _)
    exact .of_parts rfl (fun _ _ _ h => by cases h) (by simp [parts, ih, hbound])
  | group _ ih => exact .of_parts rfl (fun _ _ _ h => by cases h) (by simp [parts, ih])

/-- Two evaluations with the same values; a split of the first one divides its hits. -/
structure Evaluation.SplitOf (e' e : Evaluation ℚ) : Prop where
  bare : e'.bare = e.bare
  divided : ∀ c shares, e' = .check c → c.critical = some shares → c.DividedBy shares

namespace Evaluation.SplitOf

variable {e' e : Evaluation ℚ}

theorem plain {x y : Distribution ℚ} (h : x = y) : (Evaluation.plain x).SplitOf (.plain y) :=
  ⟨congrArg Evaluation.plain h, fun _ _ hc => by cases hc⟩

theorem distribution (h : e'.SplitOf e) : e'.distribution = e.distribution := by
  rw [← e'.distribution_bare, h.bare, e.distribution_bare]

end Evaluation.SplitOf

theorem bindPlain {x y : Except EvalError (Distribution ℚ)} (h : x = y) :
    Agrees Evaluation.SplitOf (x >>= fun d => pure (Evaluation.plain d))
      (y >>= fun d => (pure (Evaluation.plain d) : Except EvalError _)) := by
  subst h
  exact (Agrees.refl x).bind fun _ _ _ _ h => .ok (.plain h)

namespace Node

theorem agrees_walkAll {s₀ : Settings ℚ} {split split₀ : SplitCheck ℚ} {items : List Node}
    (h : ∀ item ∈ items, Agrees Evaluation.SplitOf (item.walk s split ctx')
      (item.walk s₀ split₀ ctx)) :
    Agrees (· = ·) (walkAll s split items ctx') (walkAll s₀ split₀ items ctx) := by
  induction items with
  | nil =>
    rw [walkAll, walkAll]
    exact .ok rfl
  | cons item rest ih =>
    obtain ⟨hitem, hrest⟩ := List.forall_mem_cons.1 h
    rw [walkAll, walkAll]
    refine hitem.bind fun first' first _ _ hfirst => (ih hrest).bind fun others' others _ _ h => ?_
    exact .ok (by rw [hfirst.distribution, h])

/-- A tree with critical hits on in one context, and off in another one. -/
abbrev OnAndOff (s : Settings ℚ) (ctx' ctx : Context) (node : Node) : Prop :=
  Agrees Evaluation.SplitOf (node.walk s (splitCheck s) ctx')
    (node.walk s.withoutRate (splitCheck s.withoutRate) ctx)

section Constructs

variable (h' : ctx'.Full) (h : ctx.Full)

include h' h

theorem splitOf_keep {items : List Node} (hitems : ∀ item ∈ items, OnAndOff s ctx' ctx item)
    (kind : KeepKind) (count : UInt32) : OnAndOff s ctx' ctx (.keep kind count items) := by
  rw [OnAndOff, walk, walk, pinnedValue?_of_unpinned h'.unpinned,
    pinnedValue?_of_unpinned h.unpinned]
  dsimp only
  rw [onlyDie?_eq_of_full h' h]
  refine (Agrees.refl _).bind fun only? _ _ _ honly => ?_
  subst honly
  cases only? with
  | none => exact (agrees_walkAll hitems).bind fun _ _ _ _ hvalues => bindPlain (by rw [hvalues])
  | some found => exact bindPlain rfl

/-- The same check, which is split only with critical hits on. -/
theorem splitOf_comparison {relation : Relation} {left right : Node} (hleft : left.Arithmetic)
    (hright : right.Arithmetic) (hl : OnAndOff s ctx' ctx left) (hr : OnAndOff s ctx' ctx right) :
    OnAndOff s ctx' ctx (.comparison relation left right) := by
  rw [OnAndOff, walk, walk, pinnedValue?_of_unpinned h'.unpinned,
    pinnedValue?_of_unpinned h.unpinned]
  dsimp only
  refine hl.bind fun l' l hl' _ hl => hr.bind fun r' r hr' _ hr => ?_
  rw [hl.distribution, hr.distribution]
  refine (Agrees.refl _).bind fun check _ hcheck _ hcc => ?_
  subst hcc
  rw [← hl.distribution, ← hr.distribution, orBlame_eq_ok] at hcheck
  obtain ⟨critical, hcritical, hdivided⟩ :=
    exists_splitCheck h'.unpinned h'.unrestricted hleft hright hl' hr' hcheck
  rw [show s.withoutRate.rate.isSome = false from rfl, Bool.false_and, Bool.false_and,
    if_neg Bool.false_ne_true]
  cases hrate : s.rate.isSome with
  | false => exact .ok ⟨rfl, fun _ shares hc hshares => by
      cases hc
      rw [Check.unsplit_compare hcheck] at hshares
      cases hshares⟩
  | true =>
    rw [h'.unpinned, h'.unrestricted, Option.isNone_none, Bool.not_false, Bool.and_true,
      Bool.and_true, if_pos rfl, hcritical]
    exact .ok ⟨rfl, fun _ shares hc hshares => by
      cases hc
      obtain ⟨hrefined, hnormal, hhits⟩ := hdivided shares hshares
      exact ⟨hrefined, hnormal, hhits⟩⟩

/-- Both kinds of hits lead to the branch that all hits lead to without critical hits. -/
theorem splitOf_conditional {condition ifTrue ifFalse : Node}
    (hc : OnAndOff s ctx' ctx condition) (ht : OnAndOff s ctx' ctx ifTrue)
    (hhit : ∀ branch, OnAndOff s (ctx'.critical branch) ctx ifTrue)
    (hf : OnAndOff s ctx' ctx ifFalse) :
    OnAndOff s ctx' ctx (.conditional condition ifTrue ifFalse) := by
  rw [OnAndOff, walk, walk, pinnedValue?_of_unpinned h'.unpinned,
    pinnedValue?_of_unpinned h.unpinned]
  dsimp only
  cases hcondition : condition.isComparison with
  | false => exact .error _ _
  | true =>
  rw [if_pos rfl, if_pos rfl]
  refine hc.bind fun e' e he' he hsplit => ?_
  cases e with
  | check check =>
    obtain ⟨check', rfl, hs, hf'⟩ := Evaluation.exists_check_of_bare hsplit.bare
    have hoff : check.critical = none := unsplit_of_walk he rfl
    dsimp only
    rw [hoff]
    cases hshares : check'.critical with
    | none =>
      refine ht.bind fun _ _ _ _ hyes => hf.bind fun _ _ _ _ hno => .ok ?_
      exact ⟨congrArg Evaluation.plain (combined_ofBranches_congr _ _ hs hf' hyes.distribution
        hno.distribution), fun _ _ hc => by cases hc⟩
    | some shares =>
      refine (hhit false).bind fun normalHit yes _ hyes hnormal => ?_
      obtain ⟨criticalHit, hcriticalHit, hcritical⟩ := (hhit true).exists_ok hyes
      rw [hcriticalHit]
      refine hf.bind fun miss no _ hno hmiss => .ok ?_
      obtain ⟨hsuccess, hfailure⟩ := nonneg_of_walk he'
      have hmix := combined_ofBranches_divided s.mixing condition.text hsuccess hfailure
        (hsplit.divided _ _ rfl hshares) hnormal.distribution hcritical.distribution
        hmiss.distribution (positive_walk _ hyes) (positive_walk _ hno)
      exact ⟨congrArg Evaluation.plain (hmix.trans (combined_ofBranches_congr _ _ hs hf' rfl rfl)),
        fun _ _ hc => by cases hc⟩
  | _ =>
    cases e' with
    | check => cases hsplit.bare
    | _ => exact .error _ _

theorem splitOf_function {target threshold : Node} (htarget : OnAndOff s ctx' ctx target)
    (hthreshold : OnAndOff s ctx' ctx threshold) (name : FunctionName) :
    OnAndOff s ctx' ctx (.function name [target, threshold]) := by
  rw [OnAndOff, walk, walk, pinnedValue?_of_unpinned h'.unpinned,
    pinnedValue?_of_unpinned h.unpinned]
  refine hthreshold.bind fun b' b _ _ hb => ?_
  rw [constantThreshold, constantThreshold, hb.distribution]
  refine (Agrees.refl _).bind fun bound _ _ _ hbound => ?_
  subst hbound
  rw [clampEach_eq_of_full h' h]
  refine (Agrees.refl _).bind fun clamped? _ _ _ hclamped => ?_
  subst hclamped
  cases clamped? with
  | none => exact htarget.bind fun _ _ _ _ ht => .ok (.plain (by rw [ht.distribution]))
  | some clamped => exact .ok (.plain rfl)

end Constructs

/-- **With critical hits on and off, a formula that does not ask for them has the same values**, or
none in either case. -/
theorem splitOf_walk {node : Node} (hnode : node.Indifferent) (h' : ctx'.Full) (h : ctx.Full) :
    OnAndOff s ctx' ctx node := by
  induction node using parts_induction generalizing ctx' ctx with
  | h node ih =>
  replace ih := fun part hpart {ctx ctx'} => @ih part hpart ctx ctx' (hnode.part hpart)
  have hpinned' := pinnedValue?_of_unpinned h'.unpinned
  have hpinned := pinnedValue?_of_unpinned h.unpinned
  cases node with
  | number value =>
    rw [OnAndOff, walk, walk, hpinned', hpinned]
    exact bindPlain rfl
  | dice d id modifier =>
    rw [OnAndOff, walk, walk, hpinned', hpinned]
    exact bindPlain (roll_eq_of_full h' h _)
  | reference id critical =>
    rw [OnAndOff, walk, walk, hpinned', hpinned]
    exact bindPlain (reference_eq_of_full h' h id critical)
  | keep kind count items => exact splitOf_keep h' h (fun item hitem => ih item hitem h' h) kind count
  | comparison relation left right =>
    obtain ⟨hleft, hright⟩ := hnode.sides relation left right (mem_subterms_self _)
    exact splitOf_comparison h' h hleft hright (ih left (by simp [parts]) h' h)
      (ih right (by simp [parts]) h' h)
  | conditional condition ifTrue ifFalse =>
    exact splitOf_conditional h' h (ih condition (by simp [parts]) h' h)
      (ih ifTrue (by simp [parts]) h' h)
      (fun branch => ih ifTrue (by simp [parts]) (h'.critical branch) h)
      (ih ifFalse (by simp [parts]) h' h)
  | binary operation left right =>
    rw [OnAndOff, walk, walk, hpinned', hpinned]
    refine (ih left (by simp [parts]) h' h).bind fun l' l _ _ hl =>
      (ih right (by simp [parts]) h' h).bind fun r' r _ _ hr => bindPlain ?_
    exact Evaluation.combine_eq_of_bare hl.bare hr.bare _ _
  | double inner => cases hnode.unwrapped
  | switch normal critical => cases hnode.unwrapped
  | only inner => cases hnode.unwrapped
  | function name args =>
    rcases args with _ | ⟨target, _ | ⟨threshold, _ | ⟨_, _⟩⟩⟩
    case cons.cons.nil =>
      exact splitOf_function h' h (ih target (by simp [parts]) h' h)
        (ih threshold (by simp [parts]) h' h) name
    -- functions have two arguments
    all_goals
      simp only [OnAndOff, walk, hpinned', hpinned]
      exact .error _ _
  | group inner =>
    rw [OnAndOff, walk_group, walk_group]
    exact ih inner (by simp [parts]) h' h

/-- **Critical hits change nothing where nothing asks for them.**  In a formula without references,
in which no part says what happens on a critical hit and all checks compare arithmetic, turning
critical hits on neither adds an error nor takes one away, and all values keep their weights. -/
theorem evaluateFormula_withoutWrappers {root : Node} (hregistry : s.registry = [])
    (hwrapper : root.hasCriticalWrapper = false)
    (hsides : ∀ relation left right, .comparison relation left right ∈ root.subterms →
      left.Arithmetic ∧ right.Arithmetic) :
    ((∃ e', root.evaluateFormula s = .ok e') ↔ ∃ e, root.evaluateFormula s.withoutRate = .ok e)
      ∧ ∀ e' e, root.evaluateFormula s = .ok e' → root.evaluateFormula s.withoutRate = .ok e →
        e'.distribution = e.distribution := by
  have htree : ∀ s : Settings ℚ, s.registry = [] → root.evaluateFormula s = root.evaluate s {} := by
    intro s hregistry
    rw [evaluateFormula, hregistry, wantsMixture, hwrapper, Bool.and_false, Bool.false_and]
    rfl
  rw [htree s hregistry, htree s.withoutRate hregistry]
  have hfull : Context.Full {} := ⟨rfl, rfl⟩
  have hagrees := splitOf_walk (s := s) ⟨hwrapper, hsides⟩ hfull hfull
  exact ⟨hagrees.succeeds_iff, fun _ _ he' he => (hagrees.rel he' he).distribution⟩

end Node

/-- `2D20>=25?(d6>3?d4:2d2):max_each(2d6,3)`: both kinds of hits lead to a check of its own. -/
def nestedChecks : Node :=
  .conditional (.comparison .greaterEqual (.dice ⟨2, 20, true⟩ none none) (.number 25.0))
    (.group (.conditional (.comparison .greater (.dice ⟨1, 6, false⟩ none none) (.number 3.0))
      (.dice ⟨1, 4, false⟩ none none) (.dice ⟨2, 2, false⟩ none none)))
    (.function .maxEach [.dice ⟨2, 6, false⟩ none none, .number 3.0])

theorem arithmetic_sides_nestedChecks (relation : Relation) (left right : Node)
    (h : .comparison relation left right ∈ nestedChecks.subterms) :
    left.Arithmetic ∧ right.Arithmetic := by
  simp only [nestedChecks, Node.subterms, Node.subtermsAll, List.cons_append, List.nil_append,
    List.append_nil, List.mem_cons, reduceCtorEq, Node.comparison.injEq, List.not_mem_nil,
    or_false, false_or] at h
  obtain ⟨-, rfl, rfl⟩ | ⟨-, rfl, rfl⟩ := h
  · exact ⟨.dice _ _ _, .number _⟩
  · exact ⟨.dice _ _ _, .number _⟩

set_option maxRecDepth 4000 in
/-- Most of the hits are critical; with exact mixing no weight is rounded. -/
theorem evaluateFormula_withoutWrappers_nestedChecks :
    ∃ e' e : Evaluation ℚ,
      nestedChecks.evaluateFormula { rate := some (10 : ℚ), mixing := .exact } = .ok e'
      ∧ nestedChecks.evaluateFormula { mixing := .exact } = .ok e
      ∧ e'.criticalChance? = some (29 / 200) ∧ e'.distribution = e.distribution := by
  have hchance : ((nestedChecks.evaluateFormula ({ rate := some 10, mixing := .exact } :
      Settings ℚ)).toOption.bind (·.criticalChance?)).any
        (fun p => decide (p = 29 / 200)) = true := by
    decide +kernel
  obtain ⟨hsucceeds, hvalues⟩ := Node.evaluateFormula_withoutWrappers
    (s := { rate := some 10, mixing := .exact }) rfl rfl arithmetic_sides_nestedChecks
  obtain ⟨e', p, he', hp, heq⟩ := exists_of_any hchance
  obtain ⟨e, he⟩ := hsucceeds.1 ⟨e', he'⟩
  exact ⟨e', e, he', he, hp.trans (congrArg some (of_decide_eq_true heq)), hvalues e' e he' he⟩

end DiceOdds
