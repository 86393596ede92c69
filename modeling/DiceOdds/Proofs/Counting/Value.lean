import DiceOdds.Proofs.Counting.Die
import DiceOdds.Proofs.Counting.Keep
import DiceOdds.Distribution.Clamp
import DiceOdds.Evaluation.Context

/-!
# What a formula is worth on one roll

A formula is evaluated roll by roll: every die shows its faces, the dice of a literal are added,
and operations act on the values of their parts.  Nothing is counted here.

## Why a roll is a list

The roll of a formula holds the dice of its literals in source order.  Each part takes as many
entries from the front as it has literals and leaves the others to the parts after it, so the
rolls of a formula are all choices of a roll for each of its literals.
-/

namespace DiceOdds

/-! ## 1. Values of one literal -/

namespace Pool

/-- The values of the dice. -/
def values? (p : Pool) (roll : PoolRoll) : Option (List Outcome) := roll.mapM p.dieValue?

/-- The sum of the dice. -/
def sum? (p : Pool) (roll : PoolRoll) : Option Outcome := (p.values? roll).bind Outcome.sum?

/-- The sum of the highest or the lowest dice. -/
def kept? (p : Pool) (kind : KeepKind) (count : ℕ) (roll : PoolRoll) : Option Outcome :=
  (p.values? roll).bind (kind.sum? count)

/-- The sum of the dice, each limited by a threshold. -/
def clampedSum? (p : Pool) (name : FunctionName) (threshold : Outcome) (roll : PoolRoll) :
    Option Outcome :=
  (p.values? roll).bind fun vs => Outcome.sum? (vs.map (name.clamp threshold))

end Pool

/-- The result of one operation, if there is one. -/
def Operation.value? (operation : Operation) (a b : Outcome) : Option Outcome :=
  match operation with
  | add => a.add? b
  | sub => a.sub? b
  | mul => a.mul? b
  | div => a.div? b

namespace Node

/-! ## 2. The dice of a formula -/

/-- The dice of a literal. -/
def pool? : Node → Option Pool
  | dice d _ modifier => some ⟨d, modifier⟩
  | _ => none

/-- The dice of all literals, in source order. -/
def pools (node : Node) : List Pool := node.subterms.filterMap pool?

/-- The dice of all literals in a list of nodes. -/
def poolsAll (nodes : List Node) : List Pool := (subtermsAll nodes).filterMap pool?

section Pools

variable (nodes : List Node) (node left right : Node)

@[simp] theorem pools_number (value : Float) : (number value).pools = [] := rfl

@[simp] theorem pools_dice (d : Dice) (id : Option ℕ) (modifier : Option Modifier) :
    (dice d id modifier).pools = [⟨d, modifier⟩] := rfl

@[simp] theorem pools_reference (id : UInt32) (critical : Bool) :
    (reference id critical).pools = [] := rfl

@[simp] theorem pools_keep (kind : KeepKind) (count : UInt32) :
    (keep kind count nodes).pools = poolsAll nodes := rfl

@[simp] theorem pools_comparison (relation : Relation) :
    (comparison relation left right).pools = left.pools ++ right.pools := List.filterMap_append

@[simp] theorem pools_conditional :
    (conditional node left right).pools = node.pools ++ left.pools ++ right.pools :=
  List.filterMap_append.trans (congrArg (· ++ right.pools) List.filterMap_append)

@[simp] theorem pools_double : (double node).pools = node.pools := rfl

@[simp] theorem pools_switch : (switch left right).pools = left.pools ++ right.pools :=
  List.filterMap_append

@[simp] theorem pools_only : (only node).pools = node.pools := rfl

@[simp] theorem pools_binary (operation : Operation) :
    (binary operation left right).pools = left.pools ++ right.pools := List.filterMap_append

@[simp] theorem pools_function (name : FunctionName) :
    (function name nodes).pools = poolsAll nodes := rfl

@[simp] theorem pools_group : (group node).pools = node.pools := rfl

@[simp] theorem poolsAll_nil : poolsAll [] = [] := rfl

@[simp] theorem poolsAll_cons : poolsAll (node :: nodes) = node.pools ++ poolsAll nodes :=
  List.filterMap_append

end Pools

theorem pools_stripGroups (node : Node) : node.stripGroups.pools = node.pools := by
  induction node using stripGroups.induct with
  | case1 inner ih => rw [stripGroups, ih, pools_group]
  | case2 node hnode =>
    rw [stripGroups]
    exact hnode

theorem pools_of_comparison? {node left right : Node} {relation : Relation}
    (h : node.comparison? = some (relation, left, right)) :
    node.pools = left.pools ++ right.pools := by
  rw [← pools_stripGroups]
  unfold comparison? at h
  split at h
  next heq =>
    cases h
    rw [heq, pools_comparison]
  · cases h

/-- The dice of a literal in any number of parentheses. -/
def strippedPool? (node : Node) : Option Pool := node.stripGroups.pool?

/-- The dice from which a keep chooses: those of a literal that is its only item. -/
def onlyPool? : List Node → Option Pool
  | [item] => item.strippedPool?
  | _ => none

/-- The dice that a function limits one by one: those of a literal, if it acts on each die. -/
def eachPool? (name : FunctionName) (target : Node) : Option Pool :=
  if name.perDie then target.strippedPool? else none

theorem eachPool?_eq_some {name : FunctionName} {target : Node} {p : Pool} :
    eachPool? name target = some p ↔ name.perDie = true ∧ target.strippedPool? = some p := by
  unfold eachPool?
  split <;> simp [*]

/-! ## 3. The value on a roll -/

mutual

/-- The value of a formula on one roll of its dice, if there is one; references are looked up in
`given`.  A limit is a number, and what is no arithmetic has no value. -/
def valueOn (given : ℕ → Option Outcome) : Node → Roll → Option Outcome
  | number value, _ => Outcome.ofWeight? value
  | dice d _ modifier, roll => (⟨d, modifier⟩ : Pool).sum? (roll.headD [])
  | reference id _, _ => given id.toNat
  | keep kind count items, roll => match onlyPool? items with
    | some p => p.kept? kind count.toNat (roll.headD [])
    | none => (valuesOn given items roll).bind (kind.sum? count.toNat)
  | binary operation left right, roll =>
    (left.valueOn given (roll.take left.pools.length)).bind fun a =>
      (right.valueOn given (roll.drop left.pools.length)).bind fun b => operation.value? a b
  | function name args, roll => match args with
    | [target, number bound] => (Outcome.ofWeight? bound).bind fun threshold =>
      match eachPool? name target with
      | some p => p.clampedSum? name threshold (roll.headD [])
      | none => (target.valueOn given roll).map (name.clamp threshold)
    | _ => none
  | group inner, roll => inner.valueOn given roll
  | _, _ => none

/-- The values of a list of formulas on one roll of their dice. -/
def valuesOn (given : ℕ → Option Outcome) : List Node → Roll → Option (List Outcome)
  | [], _ => some []
  | node :: rest, roll =>
    (node.valueOn given (roll.take node.pools.length)).bind fun v =>
      (valuesOn given rest (roll.drop node.pools.length)).map (v :: ·)

end

-- the equations are made here, once for everything that unfolds them
attribute [grind =] valueOn valuesOn

/-! ## 4. Arithmetic formulas -/

/-- Formulas made of numbers, dice, references, keeps, parentheses, operations and limits by a
number.  There is no comparison in them, and nothing that depends on a critical hit. -/
inductive Arithmetic : Node → Prop where
  | number (value : Float) : Arithmetic (.number value)
  | dice (d : Dice) (id : Option ℕ) (modifier : Option Modifier) : Arithmetic (.dice d id modifier)
  | reference (id : UInt32) (critical : Bool) : Arithmetic (.reference id critical)
  | keep (kind : KeepKind) (count : UInt32) {items : List Node}
      (h : ∀ item ∈ items, Arithmetic item) : Arithmetic (.keep kind count items)
  | binary (operation : Operation) {left right : Node} (hl : Arithmetic left)
      (hr : Arithmetic right) : Arithmetic (.binary operation left right)
  | function (name : FunctionName) {target : Node} (bound : Float) (h : Arithmetic target) :
      Arithmetic (.function name [target, .number bound])
  | group {inner : Node} (h : Arithmetic inner) : Arithmetic (.group inner)

theorem Arithmetic.stripGroups {node : Node} (h : node.Arithmetic) :
    node.stripGroups.Arithmetic := by
  induction h with
  | number value => exact .number value
  | dice d id modifier => exact .dice d id modifier
  | reference id critical => exact .reference id critical
  | keep kind count h _ => exact .keep kind count h
  | binary operation hl hr _ _ => exact .binary operation hl hr
  | function name bound h _ => exact .function name bound h
  | group _ ih => exact ih

/-- The dice of a literal in parentheses are all the dice that there are. -/
theorem pools_of_strippedPool? {node : Node} {p : Pool} (h : node.strippedPool? = some p) :
    node.pools = [p] := by
  induction node using stripGroups.induct with
  | case1 inner ih => rw [pools_group]; exact ih h
  | case2 node hnode =>
    rw [strippedPool?, stripGroups] at h
    · cases node with
      | dice d id modifier => cases h; rfl
      | _ => cases h
    · exact hnode

theorem poolsAll_of_onlyPool? {items : List Node} {p : Pool} (h : onlyPool? items = some p) :
    poolsAll items = [p] := by
  match items, h with
  | [item], h => rw [poolsAll_cons, pools_of_strippedPool? h]; rfl

end Node

end DiceOdds
