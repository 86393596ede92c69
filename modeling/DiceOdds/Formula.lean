import DiceOdds.Error
import DiceOdds.Formula.Render

/-!
# Formulas

A formula is a tree, together with its registry: the dice literals that a reference can name.

## Why ids are given afterwards

`d_1` means the first dice literal of the formula, wherever it stands.  Literals are numbered in
source order, once the tree is complete, and only in formulas that refer to dice; without a
reference no literal has an id, the registry is empty, and all dice are independent.
-/

namespace DiceOdds

/-! ## 1. Numbering dice literals -/

namespace Node

mutual

/-- Numbers the dice literals in source order, from `next` on; also gives the first number that is
left. -/
def withIds : Node → Nat → Node × Nat
  | number value, next => (number value, next)
  | dice d _ modifier, next => (dice d (some next) modifier, next + 1)
  | reference id critical, next => (reference id critical, next)
  | keep kind count items, next =>
    let (items, next) := withIdsAll items next
    (keep kind count items, next)
  | comparison relation left right, next =>
    let (left, next) := left.withIds next
    let (right, next) := right.withIds next
    (comparison relation left right, next)
  | conditional condition ifTrue ifFalse, next =>
    let (condition, next) := condition.withIds next
    let (ifTrue, next) := ifTrue.withIds next
    let (ifFalse, next) := ifFalse.withIds next
    (conditional condition ifTrue ifFalse, next)
  | binary operation left right, next =>
    let (left, next) := left.withIds next
    let (right, next) := right.withIds next
    (binary operation left right, next)
  | double inner, next =>
    let (inner, next) := inner.withIds next
    (double inner, next)
  | switch normal critical, next =>
    let (normal, next) := normal.withIds next
    let (critical, next) := critical.withIds next
    (switch normal critical, next)
  | only inner, next =>
    let (inner, next) := inner.withIds next
    (only inner, next)
  | function name args, next =>
    let (args, next) := withIdsAll args next
    (function name args, next)
  | group inner, next =>
    let (inner, next) := inner.withIds next
    (group inner, next)

/-- Numbers the dice literals of a list of nodes. -/
def withIdsAll : List Node → Nat → List Node × Nat
  | [], next => ([], next)
  | node :: rest, next =>
    let (node, next) := node.withIds next
    let (rest, next) := withIdsAll rest next
    (node :: rest, next)

end

end Node

/-! ## 2. The registry -/

/-- The dice literals of a formula in source order.  Ids count from `1`. -/
abbrev Registry := List Dice

namespace Registry

/-- The dice with an id. -/
def get? (registry : Registry) (id : Nat) : Option Dice :=
  if id = 0 then none else registry[id - 1]?

/-- The dice with their ids. -/
def withIds (registry : Registry) : List (Nat × Dice) :=
  (List.range' 1 registry.length).zip registry

end Registry

/-! ## 3. Whole formulas -/

/-- A tree and the dice that it can refer to. -/
structure Formula where
  root : Node
  registry : Registry

namespace Formula

/-- Numbers the dice literals if there is a reference to them. -/
def ofNode (root : Node) : Formula :=
  if root.hasReference then ⟨(root.withIds 1).1, root.literals⟩ else ⟨root, []⟩

/-- The formula written by a list of tokens. -/
def ofTokens (ts : List Token) : Except ParseError Formula := (Node.ofTokens ts).map ofNode

/-- The formula written by a text. -/
def ofText (text : String) : Except CalcError Formula :=
  match tokenize text with
  | .error e => .error (.lex e)
  | .ok ts => match ofTokens ts with
    | .error e => .error (.parse e)
    | .ok formula => .ok formula

/-- Whether some value is used more than once. -/
def hasReuse (formula : Formula) : Bool := !formula.registry.isEmpty

end Formula

end DiceOdds
