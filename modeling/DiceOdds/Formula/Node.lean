import DiceOdds.Dice
import DiceOdds.Formula.Operator

/-!
# Formulas as trees

A node is one construct of a formula with its parts.

## Why a modifier belongs to its dice

Rerolling and exploding change how single dice are rolled, and nothing else can be rerolled.  So
a dice literal carries its modifier, and whatever asks for "the dice that this node rolls"
looks at one constructor.

Most questions about a tree ask for the first node in source order that answers them.  `subterms`
lists all nodes in that order, each before its own parts.
-/

namespace DiceOdds

/-- A formula, or a part of one. -/
inductive Node where
  | number (value : Float)
  /-- Dice with their modifier.  Where a formula refers to dice, every literal has an id. -/
  | dice (dice : Dice) (id : Option Nat) (modifier : Option Modifier)
  /-- The value of the dice with this id. -/
  | reference (id : UInt32) (critical : Bool)
  | keep (kind : KeepKind) (count : UInt32) (items : List Node)
  | comparison (relation : Relation) (left right : Node)
  | conditional (condition ifTrue ifFalse : Node)
  | binary (operation : Operation) (left right : Node)
  /-- `#e#`: twice as much on a critical hit. -/
  | double (inner : Node)
  /-- `|a|b|`: `b` instead of `a` on a critical hit. -/
  | switch (normal critical : Node)
  /-- `[e]`: only on a critical hit. -/
  | only (inner : Node)
  | function (name : FunctionName) (args : List Node)
  | group (inner : Node)

instance : Inhabited Node := ⟨.number 0⟩

namespace Node

/-! ## 1. Looking at one node -/

/-- The node inside any number of parentheses. -/
def stripGroups : Node → Node
  | group inner => inner.stripGroups
  | node => node

/-- The comparison inside any number of parentheses. -/
def comparison? (node : Node) : Option (Relation × Node × Node) :=
  match node.stripGroups with
  | comparison relation left right => some (relation, left, right)
  | _ => none

/-- Whether the node is a comparison, up to parentheses. -/
def isComparison (node : Node) : Bool := node.comparison?.isSome

/-- The dice that the node rolls, if it is a dice literal. -/
def literal? : Node → Option Dice
  | dice d _ _ => some d
  | _ => none

/-- The id of a dice literal. -/
def literalId? : Node → Option Nat
  | dice _ id _ => id
  | _ => none

/-- The id of the dice whose value is the value of this node: a literal, or a keep whose only item
is one. -/
def definingId? : Node → Option Nat
  | keep _ _ [item] => item.literalId?
  | node => node.literalId?

/-- Whether the node depends on what happens on a critical hit. -/
def isCriticalWrapper : Node → Bool
  | double _ | switch _ _ | only _ => true
  | _ => false

/-! ## 2. All parts in source order -/

mutual

/-- The node and all its parts, each node before its own parts. -/
def subterms : Node → List Node
  | number value => [number value]
  | dice d id modifier => [dice d id modifier]
  | reference id critical => [reference id critical]
  | keep kind count items => keep kind count items :: subtermsAll items
  | comparison relation left right =>
    comparison relation left right :: (left.subterms ++ right.subterms)
  | conditional condition ifTrue ifFalse =>
    conditional condition ifTrue ifFalse ::
      (condition.subterms ++ ifTrue.subterms ++ ifFalse.subterms)
  | binary operation left right =>
    binary operation left right :: (left.subterms ++ right.subterms)
  | double inner => double inner :: inner.subterms
  | switch normal critical => switch normal critical :: (normal.subterms ++ critical.subterms)
  | only inner => only inner :: inner.subterms
  | function name args => function name args :: subtermsAll args
  | group inner => group inner :: inner.subterms

/-- The nodes of a list and all their parts. -/
def subtermsAll : List Node → List Node
  | [] => []
  | node :: rest => node.subterms ++ subtermsAll rest

end

/-- Whether some part depends on what happens on a critical hit. -/
def hasCriticalWrapper (node : Node) : Bool := node.subterms.any isCriticalWrapper

/-- Whether some dice literal is marked as critical. -/
def hasCriticalDice (node : Node) : Bool := node.subterms.any fun n => n.literal?.any (·.critical)

/-- Whether some part refers to dice. -/
def hasReference (node : Node) : Bool :=
  node.subterms.any fun
    | reference _ _ => true
    | _ => false

/-- All dice literals in source order. -/
def literals (node : Node) : List Dice := node.subterms.filterMap literal?

/-- The first part whose value is the value of the dice with this id. -/
def definition? (node : Node) (id : Nat) : Option Node :=
  node.subterms.find? fun n => n.definingId? = some id

/-- The id of the first dice literal or reference. -/
def leftmostId? (node : Node) : Option Nat :=
  node.subterms.findSome? fun
    | reference id _ => some id.toNat
    | n => n.literalId?

/-! ## 3. Critical dice -/

mutual

/-- The ids of the critical dice that go into the value of a node.  Conditionals, functions and
whatever depends on a critical hit contribute nothing. -/
def criticalIds : Node → List Nat
  | dice d id _ => if d.critical then id.toList else []
  | reference id critical => if critical then [id.toNat] else []
  | keep _ _ items => criticalIdsAll items
  | comparison _ left right => left.criticalIds ++ right.criticalIds
  | binary _ left right => left.criticalIds ++ right.criticalIds
  | group inner => inner.criticalIds
  | _ => []

/-- The ids of the critical dice that go into the values of a list of nodes. -/
def criticalIdsAll : List Node → List Nat
  | [] => []
  | node :: rest => node.criticalIds ++ criticalIdsAll rest

end

mutual

/-- The tree with its first dice literal marked as critical; `none` if there is no literal. -/
def markLeftmost? : Node → Option Node
  | number _ => none
  | reference _ _ => none
  | dice d id modifier => some (dice { d with critical := true } id modifier)
  | keep kind count items => (markLeftmostIn? items).map (keep kind count)
  | comparison relation left right =>
    match left.markLeftmost? with
    | some left => some (comparison relation left right)
    | none => right.markLeftmost?.map (comparison relation left)
  | conditional condition ifTrue ifFalse =>
    match condition.markLeftmost? with
    | some condition => some (conditional condition ifTrue ifFalse)
    | none => match ifTrue.markLeftmost? with
      | some ifTrue => some (conditional condition ifTrue ifFalse)
      | none => ifFalse.markLeftmost?.map (conditional condition ifTrue)
  | binary operation left right =>
    match left.markLeftmost? with
    | some left => some (binary operation left right)
    | none => right.markLeftmost?.map (binary operation left)
  | double inner => inner.markLeftmost?.map double
  | switch normal critical =>
    match normal.markLeftmost? with
    | some normal => some (switch normal critical)
    | none => critical.markLeftmost?.map (switch normal)
  | only inner => inner.markLeftmost?.map only
  | function name args => (markLeftmostIn? args).map (function name)
  | group inner => inner.markLeftmost?.map group

/-- Marks the first dice literal in a list of nodes. -/
def markLeftmostIn? : List Node → Option (List Node)
  | [] => none
  | node :: rest =>
    match node.markLeftmost? with
    | some node => some (node :: rest)
    | none => (markLeftmostIn? rest).map (node :: ·)

end

end Node

end DiceOdds
