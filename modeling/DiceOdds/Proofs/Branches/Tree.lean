import DiceOdds.Proofs.Counting.Results
import DiceOdds.Evaluation.OfFormula

/-!
# The tree of branches

The conditions in the branches of a conditional are listed with the paths that lead to them.  Such a
list is a tree of probabilities: it starts with the root, no path occurs twice, and behind every
entry but the root there is one a step nearer to it, from which the step is as likely as it says.

## Why trees are grafted

Paths are built from the inside out.  What a branch lists is a tree with a root of its own, and the
conditional above puts its step in front of every path and multiplies every probability by that of
the branch.  So one lemma carries the whole recursion: trees hung below a new root are a tree
(`ProbabilityTree.graft`).
-/

namespace DiceOdds

/-! ## 1. Trees of conditions -/

namespace NestedCondition

/-- The probability of a step into one of the branches, if the condition has this branch. -/
def stepProbability? (entry : NestedCondition ℚ) : BranchStep → Option ℚ
  | .true => some entry.successProbability
  | .false => some entry.failureProbability
  | .normalHit => entry.critical.map CriticalSplit.normalHit
  | .criticalHit => entry.critical.map CriticalSplit.criticalHit
  | .miss => entry.critical.map CriticalSplit.miss

/-- The same where no check is split, and whatever is not a success is a failure. -/
def twoWayProbability? (entry : NestedCondition ℚ) : BranchStep → Option ℚ
  | .true => some entry.successProbability
  | .false => some (1 - entry.successProbability)
  | _ => none

end NestedCondition

/-- A list of conditions is a tree of probabilities, where `rule` says how likely the steps from a
condition are. -/
structure ProbabilityTree (rule : NestedCondition ℚ → BranchStep → Option ℚ)
    (entries : List (NestedCondition ℚ)) : Prop where
  /-- The first entry is the root. -/
  root : ∃ first rest, entries = first :: rest
    ∧ first.level = 0 ∧ first.path = [] ∧ first.parentProbability = 1
  level_eq : ∀ entry ∈ entries, entry.level = entry.path.length
  nodup : (entries.map NestedCondition.path).Nodup
  /-- Every other entry is reached by a step from an entry one level up. -/
  parent : ∀ entry ∈ entries, ∀ path step, entry.path = path ++ [step] →
    ∃ parent ∈ entries, ∃ q, parent.path = path ∧ rule parent step = some q
      ∧ parent.parentProbability * q = entry.parentProbability

/-- A branch of a condition: the step into it, its probability and the conditions in it. -/
structure NestedBranch where
  step : BranchStep
  reach : ℚ
  entries : List (NestedCondition ℚ)

/-- The conditions of the branch, seen from the condition it belongs to. -/
def NestedBranch.under (branch : NestedBranch) : List (NestedCondition ℚ) :=
  branch.entries.map fun entry => entry.under branch.step branch.reach

namespace ProbabilityTree

variable {rule : NestedCondition ℚ → BranchStep → Option ℚ} {entries : List (NestedCondition ℚ)}

/-- A path leads to one entry at most. -/
theorem eq_of_path_eq (h : ProbabilityTree rule entries) {entry other : NestedCondition ℚ}
    (he : entry ∈ entries) (ho : other ∈ entries) (hpath : entry.path = other.path) :
    entry = other :=
  List.inj_on_of_nodup_map h.nodup he ho hpath

/-- Only the root has the empty path. -/
theorem parentProbability_of_nil (h : ProbabilityTree rule entries) {entry : NestedCondition ℚ}
    (he : entry ∈ entries) (hpath : entry.path = []) : entry.parentProbability = 1 := by
  obtain ⟨first, rest, rfl, -, hfirst, hone⟩ := h.root
  rw [h.eq_of_path_eq he (List.mem_cons_self ..) (hpath.trans hfirst.symm), hone]

/-- No path occurs twice below different steps, nor is any of them empty. -/
theorem nodup_graft {branches : List NestedBranch} (hsteps : (branches.map NestedBranch.step).Nodup)
    (hbranches : ∀ b ∈ branches, (b.entries.map NestedCondition.path).Nodup) :
    ([] :: (branches.flatMap NestedBranch.under).map NestedCondition.path).Nodup := by
  have hpaths : ∀ b : NestedBranch, b.under.map NestedCondition.path
      = (b.entries.map NestedCondition.path).map (b.step :: ·) := by
    intro b
    rw [NestedBranch.under, List.map_map, List.map_map]
    rfl
  rw [List.map_flatMap, List.nodup_cons, List.nodup_flatMap]
  simp only [hpaths]
  refine ⟨fun hnil => ?_, fun b hb => (hbranches b hb).map List.cons_injective, ?_⟩
  · obtain ⟨b, -, hmem⟩ := List.mem_flatMap.1 hnil
    obtain ⟨path, -, hpath⟩ := List.mem_map.1 hmem
    cases hpath
  · rw [List.Nodup, List.pairwise_map] at hsteps
    refine hsteps.imp fun {b c} hne path hb hc => ?_
    obtain ⟨p, -, rfl⟩ := List.mem_map.1 hb
    obtain ⟨p', -, hp'⟩ := List.mem_map.1 hc
    exact hne (List.cons.inj hp').1.symm

/-- **Trees hung below a root are a tree**, if each of them is below a step of its own that is as
likely as the root says. -/
theorem graft (hrule : ∀ entry step reach, rule (entry.under step reach) = rule entry)
    {first : NestedCondition ℚ} (hlevel : first.level = 0) (hpath : first.path = [])
    (hone : first.parentProbability = 1) {branches : List NestedBranch}
    (hsteps : (branches.map NestedBranch.step).Nodup)
    (hbranches : ∀ b ∈ branches, b.entries = []
      ∨ ProbabilityTree rule b.entries ∧ rule first b.step = some b.reach) :
    ProbabilityTree rule (first :: branches.flatMap NestedBranch.under) := by
  have hmem : ∀ entry ∈ branches.flatMap NestedBranch.under, ∃ b ∈ branches, ∃ inner ∈ b.entries,
      ProbabilityTree rule b.entries ∧ rule first b.step = some b.reach
        ∧ entry = inner.under b.step b.reach := by
    intro entry hentry
    obtain ⟨b, hb, hentry⟩ := List.mem_flatMap.1 hentry
    obtain ⟨inner, hinner, rfl⟩ := List.mem_map.1 hentry
    rcases hbranches b hb with hnil | ⟨htree, hstep⟩
    · rw [hnil] at hinner
      cases hinner
    · exact ⟨b, hb, inner, hinner, htree, hstep, rfl⟩
  refine ⟨⟨first, _, rfl, hlevel, hpath, hone⟩, fun entry hentry => ?_, ?_,
    fun entry hentry path step hentrypath => ?_⟩
  · rcases List.mem_cons.1 hentry with rfl | hentry
    · rw [hlevel, hpath, List.length_nil]
    · obtain ⟨b, -, inner, hinner, htree, -, rfl⟩ := hmem entry hentry
      exact congrArg (· + 1) (htree.level_eq inner hinner)
  · rw [List.map_cons, hpath]
    refine nodup_graft hsteps fun b hb => ?_
    rcases hbranches b hb with hnil | ⟨htree, -⟩
    · rw [hnil]
      exact List.nodup_nil
    · exact htree.nodup
  · rcases List.mem_cons.1 hentry with rfl | hentry
    · rw [hpath] at hentrypath
      exact absurd hentrypath.symm (List.append_ne_nil_of_right_ne_nil _ (List.cons_ne_nil _ _))
    obtain ⟨b, hb, inner, hinner, htree, hstep, rfl⟩ := hmem entry hentry
    rcases List.cons_eq_append_iff.1 hentrypath with ⟨rfl, hone'⟩ | ⟨rest, rfl, hrest⟩
    · -- the root of a branch is reached from the new root
      obtain ⟨rfl, hnil⟩ := List.cons.inj hone'
      refine ⟨first, List.mem_cons_self .., b.reach, hpath, hstep, ?_⟩
      change first.parentProbability * b.reach = inner.parentProbability * b.reach
      rw [hone, htree.parentProbability_of_nil hinner hnil.symm]
    · -- all others are reached inside their branch
      obtain ⟨parent, hparent, q, hpath', hq, hprod⟩ := htree.parent inner hinner rest step hrest
      refine ⟨parent.under b.step b.reach, List.mem_cons_of_mem _ (List.mem_flatMap.2
        ⟨b, hb, List.mem_map_of_mem hparent⟩), q, ?_, by rw [hrule, hq], ?_⟩
      · rw [← hpath']
        rfl
      · change parent.parentProbability * b.reach * q = inner.parentProbability * b.reach
        rw [← hprod]
        ring

end ProbabilityTree

/-! ## 2. Conditionals in branches -/

namespace Evaluation

/-- Whether this is the evaluation of a conditional. -/
def isConditional : Evaluation ℚ → Bool
  | conditional _ | critical _ => true
  | _ => false

theorem nested_eq_nil {e : Evaluation ℚ} (h : e.isConditional = false) : e.nested = [] := by
  cases e with
  | conditional result => cases h
  | critical result => cases h
  | _ => rfl

end Evaluation

namespace Node

variable {s : Settings ℚ} {split : SplitCheck ℚ}

/-- Whether the node is a conditional or in parentheses. -/
def hasBranches : Node → Bool
  | conditional _ _ _ | group _ => true
  | _ => false

/-- Induction along the branches of conditionals; all other nodes are leaves. -/
theorem branch_induction {P : Node → Prop} (leaf : ∀ node, node.hasBranches = false → P node)
    (conditional : ∀ condition ifTrue ifFalse, P ifTrue → P ifFalse →
      P (.conditional condition ifTrue ifFalse))
    (group : ∀ inner, P inner → P (.group inner)) : ∀ node, P node
  | .conditional condition ifTrue ifFalse => conditional condition ifTrue ifFalse
      (branch_induction leaf conditional group ifTrue)
      (branch_induction leaf conditional group ifFalse)
  | .group inner => group inner (branch_induction leaf conditional group inner)
  | .number value => leaf (.number value) rfl
  | .dice d id modifier => leaf (.dice d id modifier) rfl
  | .reference id critical => leaf (.reference id critical) rfl
  | .keep kind count items => leaf (.keep kind count items) rfl
  | .comparison relation left right => leaf (.comparison relation left right) rfl
  | .binary operation left right => leaf (.binary operation left right) rfl
  | .double inner => leaf (.double inner) rfl
  | .switch normal critical => leaf (.switch normal critical) rfl
  | .only inner => leaf (.only inner) rfl
  | .function name args => leaf (.function name args) rfl

theorem not_isConditional_of_walk {ctx : Context} {e : Evaluation ℚ} {node : Node}
    (hleaf : node.hasBranches = false) (h : node.walk s split ctx = .ok e) :
    e.isConditional = false := by
  cases node with
  | conditional condition ifTrue ifFalse => cases hleaf
  | group inner => cases hleaf
  | comparison relation left right =>
    obtain ⟨_, _, _, _, -, -, -, rfl⟩ := walk_comparison_any_eq_ok h
    rfl
  | _ =>
    obtain ⟨d, rfl⟩ := exists_plain_of_walk rfl h
    rfl

/-- A check that is met on the way through the branches: that of the condition itself, or one in a
branch as it is evaluated. -/
inductive Meets (s : Settings ℚ) (split : SplitCheck ℚ) : Node → Context → Check ℚ → Prop
  | condition {condition ifTrue ifFalse : Node} {ctx : Context} {check : Check ℚ}
      (h : condition.walk s split ctx = .ok (.check check)) :
      Meets s split (conditional condition ifTrue ifFalse) ctx check
  | ifTrue {condition ifTrue ifFalse : Node} {ctx : Context} {outer check : Check ℚ}
      (h : condition.walk s split ctx = .ok (.check outer)) (hsplit : outer.critical = none)
      (hmeets : Meets s split ifTrue ctx check) :
      Meets s split (conditional condition ifTrue ifFalse) ctx check
  | hit {condition ifTrue ifFalse : Node} {ctx : Context} {outer check : Check ℚ} (critical : Bool)
      (h : condition.walk s split ctx = .ok (.check outer)) (hsplit : outer.critical.isSome = true)
      (hmeets : Meets s split ifTrue (ctx.critical critical) check) :
      Meets s split (conditional condition ifTrue ifFalse) ctx check
  | ifFalse {condition ifTrue ifFalse : Node} {ctx : Context} {check : Check ℚ}
      (hmeets : Meets s split ifFalse ctx check) :
      Meets s split (conditional condition ifTrue ifFalse) ctx check
  | group {inner : Node} {ctx : Context} {check : Check ℚ}
      (hmeets : Meets s split inner ctx check) : Meets s split (group inner) ctx check

end Node

/-! ## 3. Evaluations are trees -/

/-- The rule says of the steps from a check what its branches are mixed with. -/
def RuleFits (rule : NestedCondition ℚ → BranchStep → Option ℚ) (check : Check ℚ) : Prop :=
  ∀ condition,
    (check.critical = none → rule (.root condition check) .true = some check.successProbability
      ∧ rule (.root condition check) .false = some (1 - check.successProbability))
    ∧ ∀ shares, check.critical = some shares →
      rule (.root condition check) .normalHit = some shares.normalHit
        ∧ rule (.root condition check) .criticalHit = some shares.criticalHit
        ∧ rule (.root condition check) .miss = some shares.miss

/-- Of a check that is not empty, success and failure are all there is. -/
theorem failureProbability_eq {check : Check ℚ} (h : 0 < check.total) :
    check.failureProbability = 1 - check.successProbability := by
  have htotal : check.total = check.success + check.failure := rfl
  rw [Check.failureProbability, Check.successProbability, Check.share_eq, Check.share_eq,
    eq_sub_iff_add_eq, ← add_div, add_comm, ← htotal, div_self h.ne']

theorem ruleFits_stepProbability? {check : Check ℚ} (h : 0 < check.total) :
    RuleFits NestedCondition.stepProbability? check := by
  refine fun condition => ⟨fun _ => ⟨rfl, congrArg some (failureProbability_eq h)⟩,
    fun shares hshares => ?_⟩
  simp only [NestedCondition.stepProbability?, NestedCondition.root, hshares, Option.map_some,
    and_self]

theorem ruleFits_twoWayProbability? {check : Check ℚ} (h : check.critical = none) :
    RuleFits NestedCondition.twoWayProbability? check :=
  fun condition => ⟨fun _ => ⟨rfl, rfl⟩, fun shares hshares => by rw [h] at hshares; cases hshares⟩

/-- **The conditions of a conditional are a tree**, with any rule that fits the checks met on the
way. -/
theorem Node.tree_walk {s : Settings ℚ} {split : SplitCheck ℚ}
    {rule : NestedCondition ℚ → BranchStep → Option ℚ}
    (hrule : ∀ entry step reach, rule (entry.under step reach) = rule entry) (node : Node)
    {ctx : Context} {e : Evaluation ℚ} (h : node.walk s split ctx = .ok e)
    (hfits : ∀ check, node.Meets s split ctx check → RuleFits rule check)
    (he : e.isConditional = true) : ProbabilityTree rule e.nested := by
  induction node using branch_induction generalizing ctx e with
  | leaf node hleaf =>
    rw [not_isConditional_of_walk hleaf h] at he
    cases he
  | group inner ih =>
    rw [walk_group] at h
    exact ih h (fun check hmeets => hfits check (.group hmeets)) he
  | conditional condition ifTrue ifFalse iht ihf =>
    -- a branch lists nothing, or a tree
    have hbranch : ∀ {branch : Evaluation ℚ},
        (branch.isConditional = true → ProbabilityTree rule branch.nested) →
        branch.nested = [] ∨ ProbabilityTree rule branch.nested := by
      intro branch htree
      cases hbranch : branch.isConditional with
      | false => exact .inl (Evaluation.nested_eq_nil hbranch)
      | true => exact .inr (htree hbranch)
    obtain ⟨check, hcheck, ⟨shares, normalHit, criticalHit, miss, hsplit, hn, hc, hm, rfl⟩
      | ⟨yes, no, hsplit, hy, hn, rfl⟩⟩ := walk_conditional_eq_ok h
    · have hhit : ∀ {critical : Bool} {branch : Evaluation ℚ},
          ifTrue.walk s split (ctx.critical critical) = .ok branch →
          branch.nested = [] ∨ ProbabilityTree rule branch.nested := fun {critical branch} hw =>
        hbranch (iht hw fun c hmeets =>
          hfits c (.hit critical hcheck (Option.isSome_iff_exists.2 ⟨_, hsplit⟩) hmeets))
      have hmiss := hbranch (ihf hm fun c hmeets => hfits c (.ifFalse hmeets))
      obtain ⟨hrn, hrc, hrm⟩ := (hfits check (.condition hcheck) condition.text).2 shares hsplit
      have hnested : (Evaluation.critical (.ofBranches s.mixing condition.text check shares
          normalHit criticalHit miss)).nested = .root condition.text check ::
            [⟨.normalHit, shares.normalHit, normalHit.nested⟩,
              ⟨.criticalHit, shares.criticalHit, criticalHit.nested⟩,
              ⟨.miss, shares.miss, miss.nested⟩].flatMap NestedBranch.under := by
        simp [NestedBranch.under, Evaluation.nested, CriticalResult.ofBranches,
          Evaluation.nestedUnder]
      rw [hnested]
      refine .graft hrule rfl rfl rfl (by simp) ?_
      simp only [List.forall_mem_cons]
      exact ⟨(hhit hn).imp_right fun h => ⟨h, hrn⟩, (hhit hc).imp_right fun h => ⟨h, hrc⟩,
        hmiss.imp_right fun h => ⟨h, hrm⟩, nofun⟩
    · have hyes := hbranch (iht hy fun c hmeets => hfits c (.ifTrue hcheck hsplit hmeets))
      have hno := hbranch (ihf hn fun c hmeets => hfits c (.ifFalse hmeets))
      obtain ⟨hrt, hrf⟩ := (hfits check (.condition hcheck) condition.text).1 hsplit
      have hnested : (Evaluation.conditional (.ofBranches s.mixing condition.text check yes
          no)).nested = .root condition.text check ::
            [⟨.true, check.successProbability, yes.nested⟩,
              ⟨.false, 1 - check.successProbability, no.nested⟩].flatMap NestedBranch.under := by
        simp [NestedBranch.under, Evaluation.nested, ConditionalResult.ofBranches,
          Evaluation.nestedUnder]
      rw [hnested]
      refine .graft hrule rfl rfl rfl (by simp) ?_
      simp only [List.forall_mem_cons]
      exact ⟨hyes.imp_right fun h => ⟨h, hrt⟩, hno.imp_right fun h => ⟨h, hrf⟩, nofun⟩

end DiceOdds
