import DiceOdds.Proofs.Critical.Threshold
import DiceOdds.Proofs.Rate.Faces

/-!
# A rate of zero changes no value

At a rate of zero the threshold of a die is one above its highest face.  So the reading without
critical faces leaves nothing out, no check has critical hits, and every part of a formula has the
value that it has with critical hits turned off.

## Why a hit may still tell

A conditional whose condition is split evaluates its hit twice, as a normal and as a critical one,
and says so whatever the reading around it says.  Inside of a critical reading this makes a
difference if something in the hit asks for it: then the conditional is `isLoud`.  With exact
mixing it also matters to the total of the mixture, which is a multiple of the total of the critical
branch even if that branch is never taken.
-/

namespace DiceOdds

variable {s s₀ : Settings ℚ} {split split₀ : SplitCheck ℚ} {ctx ctx' : Context}

/-! ## 1. Mixtures with a branch that is never taken -/

namespace Mixing

theorem targetTotal_zero (mixing : Mixing) (parts : List ℚ) : mixing.targetTotal 0 parts = 0 := by
  cases mixing with
  | rounded => rfl
  | exact =>
    have hnone : commonTotal? (0 : ℚ) parts = none := by
      have hzero : positiveWhole? (0 : ℚ) = none := by decide +kernel
      rw [commonTotal?, hzero]
      rfl
    rw [targetTotal, hnone]

/-- A total that is there twice changes no common multiple. -/
theorem targetTotal_twice (mixing : Mixing) (condition a b : ℚ) :
    mixing.targetTotal condition [a, a, b] = mixing.targetTotal condition [a, b] := by
  cases mixing with
  | rounded => rfl
  | exact =>
    have htwice : commonTotal? condition [a, a, b] = commonTotal? condition [a, b] := by
      simp only [commonTotal?, List.mapM_cons, List.mapM_nil]
      generalize positiveWhole? condition = base, positiveWhole? a = m, positiveWhole? b = n
      cases base <;> cases m <;> cases n <;> simp
    rw [targetTotal, targetTotal, htwice]

end Mixing

namespace Distribution

/-- A part without a probability is passed over. -/
theorem addPart_zero (target : ℚ) (out part : Distribution ℚ) :
    out.addPart target (0 : ℚ) part = out :=
  if_neg fun h => lt_irrefl _ h.1

theorem mix_target_zero (parts : List (ℚ × Distribution ℚ)) : mix parts 0 = empty.rounded := by
  have hempty : blend parts 0 = empty := foldl_invariant _ (· = empty) parts rfl
    fun out part _ hout => by
      unfold addPart
      rw [zero_mul, zero_div, addScaled_zero, ite_self]
      exact hout
  rw [mix_eq_rounded, hempty]

end Distribution

/-- What a check splits into if none of its hits are critical. -/
def Check.harmless (c : Check ℚ) : CriticalSplit ℚ := .ofWeights c.success 0 c.failure

theorem Check.harmless_eq (c : Check ℚ) (h : c.total ≠ 0) :
    c.harmless = ⟨c.successProbability, 0, 1 - c.successProbability⟩ := by
  have hsum : c.success + 0 + c.failure = c.total := by rw [add_zero]; rfl
  rw [harmless, CriticalSplit.ofWeights_eq, hsum, zero_div, successProbability, share_eq,
    CriticalSplit.mk.injEq]
  refine ⟨rfl, rfl, ?_⟩
  rw [eq_sub_iff_add_eq, ← add_div, add_comm]
  exact div_self h

/-- A mixture depends on the answers of its check and on the values of its branches only. -/
theorem combined_ofBranches_congr {mixing : Mixing} (text' text : String) {check check' : Check ℚ}
    {yes yes' no no' : Evaluation ℚ} (hs : check'.success = check.success)
    (hf : check'.failure = check.failure) (hyes : yes'.distribution = yes.distribution)
    (hno : no'.distribution = no.distribution) :
    (ConditionalResult.ofBranches mixing text' check' yes' no').combined
      = (ConditionalResult.ofBranches mixing text check yes no).combined := by
  unfold ConditionalResult.ofBranches Check.successProbability Check.share Check.total
  simp only [hs, hf, hyes, hno]

/-- **A critical branch that is never taken changes no mixture**, unless it changes the total. -/
theorem combined_ofBranches_harmless {mixing : Mixing} {text text' : String} {check : Check ℚ}
    {normalHit criticalHit miss yes no : Evaluation ℚ}
    (hyes : normalHit.distribution = yes.distribution)
    (hno : miss.distribution = no.distribution)
    (htotal : mixing = .rounded ∨ criticalHit.distribution = yes.distribution) :
    (CriticalResult.ofBranches mixing text' check check.harmless normalHit criticalHit
      miss).combined = (ConditionalResult.ofBranches mixing text check yes no).combined := by
  have htarget : mixing.targetTotal check.total [normalHit.distribution.total,
      criticalHit.distribution.total, miss.distribution.total]
        = mixing.targetTotal check.total [yes.distribution.total, no.distribution.total] := by
    rcases htotal with rfl | hcritical
    · rfl
    · rw [hyes, hcritical, hno, Mixing.targetTotal_twice]
  unfold CriticalResult.ofBranches ConditionalResult.ofBranches
  dsimp only
  rw [htarget, hyes, hno]
  by_cases hzero : check.total = 0
  · rw [hzero, Mixing.targetTotal_zero, Distribution.mix_target_zero, Distribution.mix_target_zero]
  · have hsplit := check.harmless_eq hzero
    rw [hsplit]
    unfold Distribution.mix
    simp only [List.foldl_cons, List.foldl_nil, Distribution.addPart_zero]

/-! ## 2. No critical hits -/

/-- No hit of the check is critical, if it is split at all. -/
def Check.NeverCritical (c : Check ℚ) : Prop :=
  ∀ shares, c.critical = some shares → shares = c.harmless

theorem Check.NeverCritical.criticalHit_eq {c : Check ℚ} (h : c.NeverCritical)
    {shares : CriticalSplit ℚ} (hshares : c.critical = some shares) : shares.criticalHit = 0 := by
  rw [h shares hshares, harmless, CriticalSplit.ofWeights_eq, zero_div]

theorem Check.neverCritical_of_unsplit {c : Check ℚ} (h : c.critical = none) : c.NeverCritical := by
  intro shares hshares
  rw [h] at hshares
  cases hshares

/-- The condition has no critical hits, or it is never reached. -/
def NestedCondition.NoHits (entry : NestedCondition ℚ) : Prop :=
  entry.parentProbability = 0 ∨ ∀ shares, entry.critical = some shares → shares.criticalHit = 0

namespace Evaluation

/-- The probability of a critical hit that a result reports. -/
def criticalChance? : Evaluation ℚ → Option ℚ
  | check c => c.critical.map CriticalSplit.criticalHit
  | critical r => some r.probabilities.criticalHit
  | mixture m => some m.criticalProbability
  | _ => none

/-- There are no critical hits, neither in the result nor in the conditions that are reached. -/
structure NoHits (e : Evaluation ℚ) : Prop where
  chance : ∀ p, e.criticalChance? = some p → p = 0
  nested : ∀ entry ∈ e.nested, entry.NoHits

namespace NoHits

variable {e normalHit criticalHit miss : Evaluation ℚ} {c : Check ℚ} {mixing : Mixing}
  {text : String}

theorem plain (x : Distribution ℚ) : (Evaluation.plain x).NoHits :=
  ⟨nofun, List.forall_mem_nil _⟩

theorem check (h : c.NeverCritical) : (Evaluation.check c).NoHits := by
  refine ⟨fun p hp => ?_, List.forall_mem_nil _⟩
  obtain ⟨shares, hshares, rfl⟩ := Option.map_eq_some_iff.1 hp
  exact h.criticalHit_eq hshares

theorem nestedUnder (h : e.NoHits) {step : BranchStep} {reach : ℚ} :
    ∀ entry ∈ e.nestedUnder step reach, entry.NoHits := by
  intro entry hentry
  obtain ⟨inner, hinner, rfl⟩ := List.mem_map.1 hentry
  refine (h.nested inner hinner).imp_left fun hzero => ?_
  exact mul_eq_zero_of_left hzero reach

theorem nestedUnder_zero (e : Evaluation ℚ) (step : BranchStep) :
    ∀ entry ∈ e.nestedUnder step 0, entry.NoHits := by
  intro entry hentry
  obtain ⟨inner, -, rfl⟩ := List.mem_map.1 hentry
  exact .inl (mul_zero inner.parentProbability)

theorem conditional (h : c.NeverCritical) (hnormal : normalHit.NoHits) (hmiss : miss.NoHits) :
    (Evaluation.conditional (.ofBranches mixing text c normalHit miss)).NoHits := by
  refine ⟨nofun, List.forall_mem_cons.2 ⟨.inr fun _ => h.criticalHit_eq, ?_⟩⟩
  exact List.forall_mem_append.2 ⟨hnormal.nestedUnder, hmiss.nestedUnder⟩

/-- What happens on a critical hit does not matter. -/
theorem critical {shares : CriticalSplit ℚ} (h : c.NeverCritical)
    (hshares : c.critical = some shares) (hnormal : normalHit.NoHits) (hmiss : miss.NoHits) :
    (Evaluation.critical
      (.ofBranches mixing text c shares normalHit criticalHit miss)).NoHits := by
  have hzero := h.criticalHit_eq hshares
  refine ⟨fun p hp => Option.some.inj hp ▸ hzero,
    List.forall_mem_cons.2 ⟨.inr fun _ => h.criticalHit_eq, ?_⟩⟩
  simp only [List.forall_mem_append, hzero]
  exact ⟨⟨hnormal.nestedUnder, nestedUnder_zero criticalHit _⟩, hmiss.nestedUnder⟩

end NoHits

end Evaluation

/-! ## 3. Readings that say the same -/

namespace Node

/-- Whether the node is a conditional whose hit says what happens on a critical one. -/
def isLoud : Node → Bool
  | conditional _ ifTrue _ => ifTrue.hasCriticalWrapper
  | _ => false

/-- What a reading needs to say the same at a rate of zero as another one without a rate: its dice
fit, they agree about critical hits, and conditionals that are split keep what they say to
themselves. -/
structure Follows (s : Settings ℚ) (ctx' ctx : Context) (node : Node) : Prop where
  fits : node.Fits
  pinned : ctx'.pinned = ctx.pinned
  branch : ctx'.criticalBranch = ctx.criticalBranch ∨ node.hasCriticalWrapper = false
  quiet : ctx'.pinned = none → ctx'.restrictCritical = false →
    s.mixing = .rounded ∧ ctx.criticalBranch = false ∨ node.subterms.any isLoud = false

theorem any_eq_false_of_mem_parts {node part : Node} (hpart : part ∈ node.parts) {p : Node → Bool}
    (h : node.subterms.any p = false) : part.subterms.any p = false := by
  rw [List.any_eq_false] at h ⊢
  exact fun n hn => h n (subterms_subset_of_mem_parts hpart hn)

namespace Follows

variable {node : Node}

theorem part {inner : Node} (h : node.Follows s ctx' ctx) (hpart : inner ∈ node.parts) :
    inner.Follows s ctx' ctx where
  fits := h.fits.part hpart
  pinned := h.pinned
  branch := h.branch.imp_right (any_eq_false_of_mem_parts hpart)
  quiet hp hr := (h.quiet hp hr).imp_right (any_eq_false_of_mem_parts hpart)

/-- Nothing is split where critical faces are left out. -/
theorem restricted (h : node.Follows s ctx' ctx) : node.Follows s ctx'.restricted ctx :=
  ⟨h.fits, h.pinned, h.branch, fun _ hrestricted => nomatch hrestricted⟩

/-- A wrapper asks for the branch, so both readings are in the same one. -/
theorem branch_eq (h : node.Follows s ctx' ctx) (hwrapper : node.isCriticalWrapper = true) :
    ctx'.criticalBranch = ctx.criticalBranch :=
  h.branch.resolve_right fun hnone =>
    absurd hwrapper (List.any_eq_false.1 hnone node (mem_subterms_self node))

/-- The hit of a conditional that is split says the same as the hit of one that is not, as a normal
one and, where it matters, as a critical one. -/
theorem hit {condition ifTrue ifFalse : Node}
    (h : (conditional condition ifTrue ifFalse).Follows s ctx' ctx) (hp : ctx'.pinned = none)
    (hr : ctx'.restrictCritical = false) : ifTrue.Follows s (ctx'.critical false) ctx
      ∧ (s.mixing = .rounded ∨ ifTrue.Follows s (ctx'.critical true) ctx) := by
  have hpart : ifTrue ∈ (conditional condition ifTrue ifFalse).parts := by simp [parts]
  rcases h.quiet hp hr with ⟨hrounded, hbranch⟩ | hquiet
  · exact ⟨⟨h.fits.part hpart, h.pinned, .inl hbranch.symm, fun _ _ => .inl ⟨hrounded, hbranch⟩⟩,
      .inl hrounded⟩
  · have hnone : ifTrue.hasCriticalWrapper = false :=
      Bool.eq_false_iff.2 (List.any_eq_false.1 hquiet _ (mem_subterms_self _))
    have hquiet := any_eq_false_of_mem_parts hpart hquiet
    exact ⟨⟨h.fits.part hpart, h.pinned, .inr hnone, fun _ _ => .inr hquiet⟩,
      .inr ⟨h.fits.part hpart, h.pinned, .inr hnone, fun _ _ => .inr hquiet⟩⟩

end Follows

end Node

/-- The values of an evaluation; for a check both answers. -/
def Evaluation.bare : Evaluation ℚ → Evaluation ℚ
  | check c => check { c with critical := none }
  | e => plain e.distribution

/-- An evaluation with the same values as another one, and with no critical hits. -/
structure Evaluation.SameAs (e' e : Evaluation ℚ) : Prop where
  bare : e'.bare = e.bare
  never : ∀ c, e' = .check c → c.NeverCritical
  noHits : e'.NoHits

namespace Evaluation

theorem distribution_bare (e : Evaluation ℚ) : e.bare.distribution = e.distribution := by
  cases e <;> rfl

theorem SameAs.distribution {e' e : Evaluation ℚ} (h : e'.SameAs e) :
    e'.distribution = e.distribution := by
  rw [← e'.distribution_bare, h.bare, e.distribution_bare]

theorem SameAs.plain {x y : Distribution ℚ} (h : x = y) : (Evaluation.plain x).SameAs (.plain y) :=
  ⟨congrArg Evaluation.plain h, nofun, .plain x⟩

theorem SameAs.of_check {c : Check ℚ} {e' e : Evaluation ℚ} (h : e'.bare = e.bare)
    (he : e' = .check c) (hc : c.NeverCritical) : e'.SameAs e := by
  subst he
  exact ⟨h, fun _ hcheck => Evaluation.check.inj hcheck ▸ hc, .check hc⟩

/-- Checks have the same answers as checks only. -/
theorem exists_check_of_bare {c : Check ℚ} {e' : Evaluation ℚ}
    (h : e'.bare = (Evaluation.check c).bare) :
    ∃ c', e' = .check c' ∧ c'.success = c.success ∧ c'.failure = c.failure := by
  cases e' with
  | check c' =>
    simp only [Evaluation.bare, Evaluation.check.injEq, Check.mk.injEq, and_true] at h
    exact ⟨c', rfl, h.1, h.2⟩
  | _ => cases h

theorem SameAs.check {c : Check ℚ} {e' : Evaluation ℚ} (h : e'.SameAs (.check c)) :
    ∃ c', e' = .check c' ∧ c'.success = c.success ∧ c'.failure = c.failure ∧ c'.NeverCritical := by
  obtain ⟨c', rfl, hs, hf⟩ := exists_check_of_bare h.bare
  exact ⟨c', rfl, hs, hf, h.never c' rfl⟩

/-- The probability that a check holds. -/
def chance? : Evaluation ℚ → Option ℚ
  | check c => some c.successProbability
  | _ => none

theorem chance?_bare (e : Evaluation ℚ) : e.bare.chance? = e.chance? := by
  cases e <;> rfl

theorem SameAs.chance?_eq {e' e : Evaluation ℚ} (h : e'.SameAs e) : e'.chance? = e.chance? := by
  rw [← chance?_bare e', h.bare, chance?_bare]

end Evaluation

/-- A value scaled by a probability. -/
def scaledValue (p : ℚ) (part : Unit → String) (v : Outcome) : Except EvalError Outcome :=
  match Outcome.ofWeight? (v.toWeight * p) with
  | some scaled => .ok scaled
  | none => .error (.overflow (part ()))

theorem scaledValue_eq_ok {p : ℚ} {part : Unit → String} {v c : Outcome}
    (h : scaledValue p part v = .ok c) : Outcome.ofWeight? (v.toWeight * p) = some c := by
  unfold scaledValue at h
  split at h
  · next scaled hscaled =>
    cases h
    exact hscaled
  · cases h

namespace Evaluation

variable {operation : Operation} {part part' : Unit → String} {d d' : Distribution ℚ}

/-- Of what is combined only the values count, and whether one of them is a check. -/
theorem combine_eq (operation : Operation) (l r : Evaluation ℚ) (part : Unit → String) :
    l.combine operation r part = match operation, l.chance?, r.chance? with
      | .mul, some p, _ => r.distribution.tryMap (scaledValue p part)
      | .mul, none, some p => l.distribution.tryMap (scaledValue p part)
      | _, _, _ => (do
        let values ← l.distribution.combine r.distribution (operation.apply part)
        orBlame values.checkWeights part) := by
  cases operation with
  | mul => cases l <;> cases r <;> rfl
  | _ => rfl

theorem combine_eq_of_bare {l l' r r' : Evaluation ℚ} (hl : l'.bare = l.bare)
    (hr : r'.bare = r.bare) (operation : Operation) (part : Unit → String) :
    l'.combine operation r' part = l.combine operation r part := by
  rw [combine_eq, combine_eq, ← chance?_bare l', ← chance?_bare r', ← distribution_bare l',
    ← distribution_bare r', hl, hr, chance?_bare, chance?_bare, distribution_bare,
    distribution_bare]

/-- What is combined does not depend on how errors are put. -/
theorem combine_agree {l r : Evaluation ℚ} (h : l.combine operation r part = .ok d)
    (h' : l.combine operation r part' = .ok d') : d = d' := by
  have hscaled : ∀ {x : Distribution ℚ} {p : ℚ}, x.tryMap (scaledValue p part) = .ok d →
      x.tryMap (scaledValue p part') = .ok d' → d = d' :=
    Distribution.tryMap_agree fun v c c' hc hc' => Option.some.inj
      ((scaledValue_eq_ok hc).symm.trans (scaledValue_eq_ok hc'))
  have hindependent : ∀ {operation : Operation} {x y : Distribution ℚ},
      (do orBlame (← x.combine y (operation.apply part)).checkWeights part) = .ok d →
      (do orBlame (← x.combine y (operation.apply part')).checkWeights part') = .ok d' →
        d = d' := by
    intro operation x y h h'
    obtain ⟨values, hvalues, h⟩ := bind_eq_ok.1 h
    obtain ⟨values', hvalues', h'⟩ := bind_eq_ok.1 h'
    obtain rfl : values = d := by simpa using orBlame_eq_ok.1 h
    obtain rfl : values' = d' := by simpa using orBlame_eq_ok.1 h'
    exact Distribution.combine_agree (fun a b c c' hc hc' => Option.some.inj
      ((Operation.apply_eq_ok hc).symm.trans (Operation.apply_eq_ok hc'))) hvalues hvalues'
  rw [combine_eq] at h h'
  generalize l.chance? = p?, r.chance? = q? at h h'
  match operation, p?, q?, h, h' with
  | .mul, some p, _, h, h' => exact hscaled h h'
  | .mul, none, some p, h, h' => exact hscaled h h'
  | .mul, none, none, h, h' => exact hindependent h h'
  | .add, _, _, h, h' => exact hindependent h h'
  | .sub, _, _, h, h' => exact hindependent h h'
  | .div, _, _, h, h' => exact hindependent h h'

end Evaluation

/-! ## 4. The walk -/

/-- No hit of a check is called critical, as long as the readings of both sides say the same. -/
def SplitCheck.NeverCritical (split : SplitCheck ℚ) (s s₀ : Settings ℚ) (split₀ : SplitCheck ℚ)
    (ctx : Context) : Prop :=
  ∀ {relation : Relation} {left right left' right' : Node} {ctx' : Context} {l r : Evaluation ℚ}
    {check : Check ℚ} {shares : CriticalSplit ℚ}, left'.withoutMarks = left.withoutMarks →
    right'.withoutMarks = right.withoutMarks → left.Follows s ctx' ctx → right.Follows s ctx' ctx →
    left.walk s₀ split₀ ctx = .ok l → right.walk s₀ split₀ ctx = .ok r →
    Check.compare relation l.distribution r.distribution = .ok check →
    split relation left' right' ctx' check = .ok (some shares) → shares = check.harmless

theorem neverCritical_noSplit : SplitCheck.NeverCritical noSplit s s₀ split₀ ctx :=
  fun _ _ _ _ _ _ _ h => nomatch h

namespace Node

theorem reference_calm (h₀ : s₀.Calm s ctx) (hpinned : ctx'.pinned = ctx.pinned) (id : UInt32)
    (critical : Bool) :
    s₀.reference ctx id critical = s.reference ctx' id critical := by
  unfold Settings.reference
  rw [hpinned, h₀.registry]

theorem walkAll_agree {s₀ : Settings ℚ} {items items' : List Node} {ds ds' : List (Distribution ℚ)}
    (hmarks : withoutMarksAll items' = withoutMarksAll items)
    (h' : walkAll s split items' ctx' = .ok ds') (h : walkAll s₀ split₀ items ctx = .ok ds)
    (hitem : ∀ item ∈ items, ∀ (item' : Node) (e' e : Evaluation ℚ),
      item'.withoutMarks = item.withoutMarks → item'.walk s split ctx' = .ok e' →
      item.walk s₀ split₀ ctx = .ok e → e'.distribution = e.distribution) : ds' = ds := by
  induction items generalizing items' ds ds' with
  | nil =>
    cases items' <;> simp only [withoutMarksAll, reduceCtorEq] at hmarks
    rw [walkAll] at h h'
    exact (Except.ok.inj h').symm.trans (Except.ok.inj h)
  | cons item rest ih =>
    cases items' <;> simp only [withoutMarksAll, reduceCtorEq, List.cons.injEq] at hmarks
    rw [walkAll] at h h'
    simp only [bind_eq_ok, pure_eq_ok] at h h'
    obtain ⟨first, hfirst, others, hothers, rfl⟩ := h
    obtain ⟨first', hfirst', others', hothers', rfl⟩ := h'
    rw [hitem item (List.mem_cons_self ..) _ _ _ hmarks.1 hfirst' hfirst,
      ih hmarks.2 hothers' hothers fun item hi => hitem item (List.mem_cons_of_mem _ hi)]

/-- A reading of a tree with other marks that follows this reading of the node comes to the same, if
both succeed. -/
def SameWalk (s s₀ : Settings ℚ) (split split₀ : SplitCheck ℚ) (ctx : Context) (node : Node) :
    Prop :=
  ∀ (node' : Node) (ctx' : Context) (e' e : Evaluation ℚ),
    node'.withoutMarks = node.withoutMarks → node.Follows s ctx' ctx →
    node'.walk s split ctx' = .ok e' → node.walk s₀ split₀ ctx = .ok e → e'.SameAs e

theorem sameWalk_of_pinned {node : Node} {value : Except EvalError Outcome}
    (hvalue : ctx.pinnedValue? node = some value) : SameWalk s s₀ split split₀ ctx node := by
  intro node' ctx' e' e hmarks hf he' he
  have hvalue' := (pinnedValue?_eq hf.pinned hmarks).trans hvalue
  obtain ⟨v, hv, rfl⟩ := walk_eq_ok_of_pinnedValue? hvalue he
  obtain ⟨v', hv', rfl⟩ := walk_eq_ok_of_pinnedValue? hvalue' he'
  rw [hv] at hv'
  cases hv'
  exact .plain rfl

theorem sameWalk_number (value : Float) : SameWalk s s₀ split split₀ ctx (number value) := by
  intro node' ctx' e' e hmarks hf he' he
  cases node' <;> simp only [withoutMarks, reduceCtorEq, number.injEq] at hmarks
  subst hmarks
  obtain ⟨v, hv, rfl⟩ := walk_number_eq_ok he
  obtain ⟨v', hv', rfl⟩ := walk_number_eq_ok he'
  rw [hv] at hv'
  cases hv'
  exact .plain rfl

theorem sameWalk_binary (operation : Operation) {left right : Node}
    (hleft : SameWalk s s₀ split split₀ ctx left) (hright : SameWalk s s₀ split split₀ ctx right) :
    SameWalk s s₀ split split₀ ctx (binary operation left right) := by
  intro node' ctx' e' e hmarks hf he' he
  cases node' <;> simp only [withoutMarks, reduceCtorEq, binary.injEq] at hmarks
  obtain ⟨rfl, hmarksl, hmarksr⟩ := hmarks
  obtain ⟨l, r, d, part, hl, hr, hd, rfl⟩ := walk_binary_eq_ok he
  obtain ⟨l', r', d', part', hl', hr', hd', rfl⟩ := walk_binary_eq_ok he'
  have hsamel := hleft _ _ _ _ hmarksl (hf.part (by simp [parts])) hl' hl
  have hsamer := hright _ _ _ _ hmarksr (hf.part (by simp [parts])) hr' hr
  rw [Evaluation.combine_eq_of_bare hsamel.bare hsamer.bare] at hd'
  exact .plain (Evaluation.combine_agree hd' hd)

theorem sameWalk_double {inner : Node} (h : SameWalk s s₀ split split₀ ctx inner) :
    SameWalk s s₀ split split₀ ctx (double inner) := by
  intro node' ctx' e' e hmarks hf he' he
  cases node' <;> simp only [withoutMarks, reduceCtorEq, double.injEq] at hmarks
  obtain ⟨i, d, hi, rfl, hd⟩ := walk_double_eq_ok he
  obtain ⟨i', d', hi', rfl, hd'⟩ := walk_double_eq_ok he'
  have hinner := (h _ _ _ _ hmarks (hf.part (by simp [parts])) hi' hi).distribution
  rw [hf.branch_eq rfl, hinner] at hd'
  split at hd
  · next hcritical =>
    rw [if_pos hcritical] at hd'
    obtain ⟨part, hd⟩ := hd
    obtain ⟨part', hd'⟩ := hd'
    exact .plain (Distribution.tryMap_agree (fun v c c' hc hc' => Option.some.inj
      ((times_eq_ok hc).symm.trans (times_eq_ok hc'))) hd' hd)
  · next hcritical =>
    rw [if_neg hcritical] at hd'
    exact .plain (hd'.trans hd.symm)

theorem sameWalk_switch {normal critical : Node} (hn : SameWalk s s₀ split split₀ ctx normal)
    (hc : SameWalk s s₀ split split₀ ctx critical) :
    SameWalk s s₀ split split₀ ctx (switch normal critical) := by
  intro node' ctx' e' e hmarks hf he' he
  cases node' <;> simp only [withoutMarks, reduceCtorEq, switch.injEq] at hmarks
  obtain ⟨hmarksn, hmarksc⟩ := hmarks
  obtain ⟨i, hi, rfl⟩ := walk_switch_eq_ok he
  obtain ⟨i', hi', rfl⟩ := walk_switch_eq_ok he'
  rw [hf.branch_eq rfl] at hi'
  split at hi
  · next hcritical =>
    rw [if_pos hcritical] at hi'
    exact .plain (hc _ _ _ _ hmarksc (hf.part (by simp [parts])) hi' hi).distribution
  · next hcritical =>
    rw [if_neg hcritical] at hi'
    exact .plain (hn _ _ _ _ hmarksn (hf.part (by simp [parts])) hi' hi).distribution

theorem sameWalk_only {inner : Node} (h : SameWalk s s₀ split split₀ ctx inner) :
    SameWalk s s₀ split split₀ ctx (only inner) := by
  intro node' ctx' e' e hmarks hf he' he
  cases node' <;> simp only [withoutMarks, reduceCtorEq, only.injEq] at hmarks
  have he := walk_only_eq_ok he
  have he' := walk_only_eq_ok he'
  rw [hf.branch_eq rfl] at he'
  split at he
  · next hcritical =>
    rw [if_pos hcritical] at he'
    obtain ⟨i, hi, rfl⟩ := he
    obtain ⟨i', hi', rfl⟩ := he'
    exact .plain (h _ _ _ _ hmarks (hf.part (by simp [parts])) hi' hi).distribution
  · next hcritical =>
    rw [if_neg hcritical] at he'
    rw [he, he']
    exact .plain rfl

theorem sameWalk_group {inner : Node} (h : SameWalk s s₀ split split₀ ctx inner) :
    SameWalk s s₀ split split₀ ctx (group inner) := by
  intro node' ctx' e' e hmarks hf he' he
  cases node' <;> simp only [withoutMarks, reduceCtorEq, group.injEq] at hmarks
  rw [walk_group] at he he'
  exact h _ _ _ _ hmarks (hf.part (by simp [parts])) he' he

section Calm

variable (h₀ : s₀.Calm s ctx)

include h₀

theorem sameWalk_reference (id : UInt32) (critical : Bool) :
    SameWalk s s₀ split split₀ ctx (reference id critical) := by
  intro node' ctx' e' e hmarks hf he' he
  cases node' <;> simp only [withoutMarks, reduceCtorEq, reference.injEq] at hmarks
  obtain ⟨rfl, rfl⟩ := hmarks
  obtain ⟨x, hx, rfl⟩ := walk_reference_eq_ok he
  obtain ⟨x', hx', rfl⟩ := walk_reference_eq_ok he'
  rw [reference_calm h₀ hf.pinned, hx'] at hx
  exact .plain (Except.ok.inj hx)

/-- A check may be split, but none of its hits is called critical. -/
theorem sameWalk_comparison (hsplit : split.NeverCritical s s₀ split₀ ctx) (relation : Relation)
    {left right : Node} (hleft : SameWalk s s₀ split split₀ ctx left)
    (hright : SameWalk s s₀ split split₀ ctx right) :
    SameWalk s s₀ split split₀ ctx (comparison relation left right) := by
  intro node' ctx' e' e hmarks hf he' he
  cases node' <;> simp only [withoutMarks, reduceCtorEq, comparison.injEq] at hmarks
  obtain ⟨rfl, hmarksl, hmarksr⟩ := hmarks
  obtain ⟨l, r, check, hl, hr, hcheck, he⟩ := walk_comparison_eq_ok he
  obtain ⟨l', r', check', hl', hr', hcheck', he'⟩ := walk_comparison_eq_ok he'
  have hfl : left.Follows s ctx' ctx := hf.part (by simp [parts])
  have hfr : right.Follows s ctx' ctx := hf.part (by simp [parts])
  rw [(hleft _ _ _ _ hmarksl hfl hl' hl).distribution,
    (hright _ _ _ _ hmarksr hfr hr' hr).distribution, hcheck] at hcheck'
  cases hcheck'
  rw [if_neg (by simp [h₀.unsplit])] at he
  subst he
  have hunsplit : check.critical = none := Check.unsplit_compare hcheck
  split at he'
  · obtain ⟨critical, hcritical, rfl⟩ := he'
    refine .of_check (by simp [Evaluation.bare]) rfl fun shares hshares => ?_
    obtain rfl : critical = some shares := hshares
    have hharmless : shares = check.harmless :=
      hsplit hmarksl hmarksr hfl hfr hl hr hcheck hcritical
    exact hharmless
  · exact .of_check (by rw [he']) he' (Check.neverCritical_of_unsplit hunsplit)

/-- The reading without a rate has two branches; the other one may have a third, which is never
taken. -/
theorem sameWalk_conditional {condition ifTrue ifFalse : Node}
    (hcondition : SameWalk s s₀ split split₀ ctx condition)
    (htrue : SameWalk s s₀ split split₀ ctx ifTrue)
    (hfalse : SameWalk s s₀ split split₀ ctx ifFalse) :
    SameWalk s s₀ split split₀ ctx (conditional condition ifTrue ifFalse) := by
  intro node' ctx' e' e hmarks hf he' he
  cases node' <;> simp only [withoutMarks, reduceCtorEq, conditional.injEq] at hmarks
  obtain ⟨hmarksc, hmarkst, hmarksf⟩ := hmarks
  obtain ⟨check, hc, ⟨_, _, _, _, hnone, -⟩ | ⟨yes, no, -, hyes, hno, rfl⟩⟩ :=
    walk_conditional_eq_ok he
  · rw [unsplit_of_walk hc h₀.unsplit] at hnone
    cases hnone
  obtain ⟨check', hc', hcases⟩ := walk_conditional_eq_ok he'
  obtain ⟨c', hcheck, hs, hfailure, hnever⟩ :=
    (hcondition _ _ _ _ hmarksc (hf.part (by simp [parts])) hc' hc).check
  obtain rfl : check' = c' := by simpa using hcheck
  rw [h₀.mixing]
  rcases hcases with
    ⟨shares, normalHit, criticalHit, miss, hshares, hnormal, hcritical, hmiss, rfl⟩
    | ⟨yes', no', -, hyes', hno', rfl⟩
  · -- the check has been split, so the readings may differ in what a critical hit is
    have hon : (s.rate.isSome && ctx'.pinned.isNone && !ctx'.restrictCritical) = true := by
      by_contra hoff
      rw [unsplit_of_walk hc' (Bool.eq_false_iff.2 hoff)] at hshares
      cases hshares
    simp only [Bool.and_eq_true, Bool.not_eq_true', Option.isNone_iff_eq_none] at hon
    obtain ⟨hhit, hcriticalHit⟩ := hf.hit hon.1.2 hon.2
    have htotal := hcriticalHit.imp_right fun hfollows =>
      (htrue _ _ _ _ hmarkst hfollows hcritical hyes).distribution
    have hyes := htrue _ _ _ _ hmarkst hhit hnormal hyes
    have hno := hfalse _ _ _ _ hmarksf (hf.part (by simp [parts])) hmiss hno
    obtain rfl := hnever shares hshares
    exact ⟨congrArg Evaluation.plain ((combined_ofBranches_harmless hyes.distribution
      hno.distribution htotal).trans (combined_ofBranches_congr condition.text _ hs hfailure
      rfl rfl)), (fun _ h => by cases h),
      .critical hnever hshares hyes.noHits hno.noHits⟩
  · have hyes := htrue _ _ _ _ hmarkst (hf.part (by simp [parts])) hyes' hyes
    have hno := hfalse _ _ _ _ hmarksf (hf.part (by simp [parts])) hno' hno
    exact ⟨congrArg Evaluation.plain (combined_ofBranches_congr _ _ hs hfailure
      hyes.distribution hno.distribution), (fun _ h => by cases h),
      .conditional hnever hyes.noHits hno.noHits⟩

variable (hrate : s.rate = some 0)

include hrate

theorem sameWalk_dice {d : Dice} {id : Option ℕ} {modifier : Option Modifier}
    (hvalue : ctx.pinnedValue? (dice d id modifier) = none) :
    SameWalk s s₀ split split₀ ctx (dice d id modifier) := by
  intro node' ctx' e' e hmarks hf he' he
  have hvalue' := (pinnedValue?_eq hf.pinned hmarks).trans hvalue
  have hdice := hmarks
  cases node' <;> simp only [withoutMarks, reduceCtorEq] at hmarks
  obtain ⟨x, hx, rfl⟩ := walk_dice_eq_ok hvalue he
  obtain ⟨x', hx', rfl⟩ := walk_dice_eq_ok hvalue' he'
  exact .plain (roll_calm hrate h₀ hf.pinned hdice hf.fits hx' hx)

theorem sameWalk_keep {kind : KeepKind} {count : UInt32} {items : List Node}
    (hvalue : ctx.pinnedValue? (keep kind count items) = none)
    (hitem : ∀ item ∈ items, SameWalk s s₀ split split₀ ctx item) :
    SameWalk s s₀ split split₀ ctx (keep kind count items) := by
  intro node' ctx' e' e hmarks hf he' he
  have hvalue' := (pinnedValue?_eq hf.pinned hmarks).trans hvalue
  cases node' <;> simp only [withoutMarks, reduceCtorEq, keep.injEq] at hmarks
  obtain ⟨rfl, rfl, hitems⟩ := hmarks
  obtain ⟨only?, values, x, honly, hvalues, hx, rfl⟩ := walk_keep_eq_ok hvalue he
  obtain ⟨only?', values', x', honly', hvalues', hx', rfl⟩ := walk_keep_eq_ok hvalue' he'
  rcases onlyDie?_calm hrate h₀ hf.pinned hitems (fun _ => hf.fits.part) honly' honly with
    ⟨rfl, rfl⟩ | ⟨die', die, n, rfl, rfl, hdie⟩
  · rw [walkAll_agree hitems hvalues' hvalues fun item hi item' e' e hmarks h' h =>
      (hitem item hi _ _ _ _ hmarks (hf.part hi) h' h).distribution, hx] at hx'
    exact .plain (Except.ok.inj hx').symm
  · obtain rfl : values = List.replicate n die := hvalues
    obtain rfl : values' = List.replicate n die' := hvalues'
    rw [Distribution.keep_replicate_congr hdie, hx] at hx'
    exact .plain (Except.ok.inj hx').symm

theorem sameWalk_function (name : FunctionName) {args : List Node}
    (harg : ∀ arg ∈ args, SameWalk s s₀ split split₀ ctx arg) :
    SameWalk s s₀ split split₀ ctx (function name args) := by
  intro node' ctx' e' e hmarks hf he' he
  cases node' <;> simp only [withoutMarks, reduceCtorEq, function.injEq] at hmarks
  obtain ⟨rfl, hargs⟩ := hmarks
  obtain ⟨target, threshold, values, bound, clamped?, rfl, hvalues, hbound, hclamped, he⟩ :=
    walk_function_any_eq_ok he
  obtain ⟨target', threshold', values', bound', clamped?', rfl, hvalues', hbound', hclamped',
    he'⟩ := walk_function_any_eq_ok he'
  simp only [withoutMarksAll, List.cons.injEq, and_true] at hargs
  obtain ⟨htarget, hthreshold⟩ := hargs
  have hsame : values'.distribution = values.distribution := (harg threshold (by simp) _ _ _ _
    hthreshold (hf.part (by simp [parts])) hvalues' hvalues).distribution
  rw [hsame, hbound] at hbound'
  cases hbound'
  obtain rfl := clampEach_calm hrate h₀ hf.pinned htarget (hf.fits.part (by simp [parts])) hclamped'
    hclamped
  cases clamped?' with
  | some clamped =>
    rw [he, he']
    exact .plain rfl
  | none =>
    obtain ⟨t, ht, rfl⟩ := he
    obtain ⟨t', ht', rfl⟩ := he'
    have hsame : t'.distribution = t.distribution :=
      (harg target (by simp) _ _ _ _ htarget (hf.part (by simp [parts])) ht' ht).distribution
    exact .plain (congrArg (fun d => Distribution.clamp d _ bound) hsame)

/-- One case for each kind of node. -/
theorem sameWalk (hsplit : split.NeverCritical s s₀ split₀ ctx) (node : Node) :
    SameWalk s s₀ split split₀ ctx node := by
  induction node using parts_induction with
  | h node hpart =>
  cases hvalue : ctx.pinnedValue? node with
  | some value => exact sameWalk_of_pinned hvalue
  | none =>
  cases node with
  | number value => exact sameWalk_number value
  | dice d id modifier => exact sameWalk_dice h₀ hrate hvalue
  | reference id critical => exact sameWalk_reference h₀ id critical
  | keep kind count items => exact sameWalk_keep h₀ hrate hvalue hpart
  | comparison relation left right =>
    exact sameWalk_comparison h₀ hsplit relation (hpart left (by simp [parts]))
      (hpart right (by simp [parts]))
  | conditional condition ifTrue ifFalse =>
    exact sameWalk_conditional h₀ (hpart condition (by simp [parts]))
      (hpart ifTrue (by simp [parts])) (hpart ifFalse (by simp [parts]))
  | binary operation left right =>
    exact sameWalk_binary operation (hpart left (by simp [parts])) (hpart right (by simp [parts]))
  | double inner => exact sameWalk_double (hpart inner (by simp [parts]))
  | switch normal critical =>
    exact sameWalk_switch (hpart normal (by simp [parts])) (hpart critical (by simp [parts]))
  | only inner => exact sameWalk_only (hpart inner (by simp [parts]))
  | function name args => exact sameWalk_function h₀ hrate name hpart
  | group inner => exact sameWalk_group (hpart inner (by simp [parts]))

end Calm

/-- **At a rate of zero a node has the values that it has without a rate**, and no check in it has
critical hits. -/
theorem sameAs_walk (hrate : s.rate = some 0) (h₀ : s₀.Calm s ctx)
    (hsplit : split.NeverCritical s s₀ split₀ ctx)
    (node : Node) {node' : Node} {ctx' : Context} {e' e : Evaluation ℚ}
    (hmarks : node'.withoutMarks = node.withoutMarks) (hf : node.Follows s ctx' ctx)
    (he' : node'.walk s split ctx' = .ok e')
    (he : node.walk s₀ split₀ ctx = .ok e) : e'.SameAs e :=
  sameWalk h₀ hrate hsplit node node' ctx' e' e hmarks hf he' he

end Node

/-! ## 5. Splits -/

theorem harmless_of_poolSplit? {relation : Relation} {left : Node} {c : Check ℚ}
    {shares : CriticalSplit ℚ} (hs : 0 ≤ c.success)
    (h : poolSplit? 0 relation left c = some shares) : shares = c.harmless := by
  have hsmaller : Weight.smaller (0 : ℚ) c.success = 0 := by
    unfold Weight.smaller
    rcases hs.eq_or_lt with hzero | hpos
    · simp [← hzero]
    · simp [hpos]
  have hpool : ∀ d : Dice, CriticalSplit.ofWeights
      (c.success - Weight.smaller (c.total * atLeastOneCritical 0 d) c.success)
      (Weight.smaller (c.total * atLeastOneCritical 0 d) c.success) c.failure = c.harmless := by
    intro d
    rw [atLeastOneCritical_zero, mul_zero, hsmaller, sub_zero]
    rfl
  unfold poolSplit? at h
  split at h
  · obtain ⟨d, -, rfl⟩ := Option.map_eq_some_iff.1 h
    exact hpool d
  · obtain ⟨d, -, rfl⟩ := Option.map_eq_some_iff.1 h
    exact hpool d
  · cases h

/-- **The second reading of a check leaves no hit out.** -/
theorem neverCritical_splitCheck (hrate : s.rate = some 0) (h₀ : s₀.Calm s ctx) :
    SplitCheck.NeverCritical (splitCheck s) s s₀ split₀ ctx := by
  intro relation left right left' right' ctx' l r check shares hleft hright hfl hfr hl hr hcheck h
  rw [splitCheck, hrate] at h
  cases hsides : decidingSides? left' right' with
  | none =>
    rw [hsides] at h
    cases h
  | some sides =>
    obtain ⟨left'', right''⟩ := sides
    obtain ⟨hmarksl, hmarksr⟩ := withoutMarks_of_decidingSides? hsides
    rw [hsides] at h
    dsimp only at h
    split at h
    · next pooled hpooled =>
      cases h
      have hs := (Distribution.nonneg_compare (Node.positive_walk left hl).nonneg
        (Node.positive_walk right hr).nonneg hcheck).1
      exact harmless_of_poolSplit? hs hpooled
    · obtain ⟨restricted, hrestricted, h⟩ := bind_eq_ok.1 h
      obtain rfl : restricted = shares := Option.some.inj (pure_eq_ok.1 h)
      obtain ⟨lowl, lowr, low, hlowl, hlowr, hlow, rfl⟩ := restrictedSplit_eq_ok hrestricted
      rw [(Node.sameAs_walk hrate h₀ neverCritical_noSplit left (hmarksl.trans hleft) hfl.restricted
          hlowl hl).distribution,
        (Node.sameAs_walk hrate h₀ neverCritical_noSplit right (hmarksr.trans hright) hfr.restricted
          hlowr hr).distribution, hcheck] at hlow
      cases hlow
      rw [sub_self, larger_zero_of_nonpos le_rfl]
      rfl

/-- A whole evaluation at a rate of zero. -/
theorem Node.sameAs_evaluate (hrate : s.rate = some 0) (h₀ : s₀.Calm s ctx) {node : Node}
    {e' e : Evaluation ℚ} (hf : node.Follows s ctx' ctx) (he' : node.evaluate s ctx' = .ok e')
    (he : node.evaluate s₀ ctx = .ok e) : e'.SameAs e :=
  sameAs_walk hrate h₀ (neverCritical_splitCheck hrate h₀) node rfl hf he' he

end DiceOdds
