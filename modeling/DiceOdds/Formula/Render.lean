import DiceOdds.Decimal.Shortest
import DiceOdds.Formula.Node

/-!
# Formulas as text

`Node.text` writes a tree as a formula.  Nothing is written that would be assumed anyway: a single
die has no count, a range that ends where it is expected to end has no upper end, and the usual
limits are left out.  Groups are nodes of their own, so no parentheses have to be invented.
-/

namespace DiceOdds

/-! ## 1. Dice -/

/-- The lower end, and the upper end if it is not the expected one. -/
def FaceRange.text (range : FaceRange) (expected : UInt32) : String :=
  toString range.min.toNat
    ++ if range.max = expected then "" else "~" ++ toString range.max.toNat

/-- A limit behind its letter, if it is not the usual one. -/
def limitText (letter : String) (limit usual : UInt32) : String :=
  if limit = usual then "" else letter ++ toString limit.toNat

/-- A range behind its letter, if there is one; it is expected to end at the highest face. -/
def rangeText (letter : String) (range : Option FaceRange) (sides : UInt32) : String :=
  match range with
  | some range => letter ++ range.text sides
  | none => ""

/-- A modifier behind dice with so many sides. -/
def Modifier.text (sides : UInt32) : Modifier → String
  | reroll range limit => "r" ++ range.text range.min ++ limitText "e" limit defaultRerollLimit
  | exploding .count success explode limit =>
    rangeText "s" success sides ++ rangeText "x" explode sides
      ++ limitText "l" limit defaultExplodeLimit
  | exploding .sum _ explode limit =>
    rangeText "e" explode sides ++ limitText "l" limit defaultExplodeLimit

/-! ## 2. Trees -/

namespace Node

mutual

/-- The formula that a tree stands for. -/
def text : Node → String
  | number value => Decimal.text value
  | dice d _ modifier => d.text ++ (modifier.map (Modifier.text d.sides)).getD ""
  | reference id critical => diceLetter critical ++ "_" ++ toString id.toNat
  | keep kind count items =>
    kind.text ++ (if count = 1 then "" else toString count.toNat) ++ "(" ++ textAll ";" items ++ ")"
  | comparison relation left right => left.text ++ relation.text ++ right.text
  | conditional condition ifTrue ifFalse =>
    condition.text ++ "?" ++ ifTrue.text ++ ":" ++ ifFalse.text
  | binary operation left right => left.text ++ operation.text ++ right.text
  | double inner => "#" ++ inner.text ++ "#"
  | switch normal critical => "|" ++ normal.text ++ "|" ++ critical.text ++ "|"
  | only inner => "[" ++ inner.text ++ "]"
  | function name args => name.text ++ "(" ++ textAll "," args ++ ")"
  | group inner => "(" ++ inner.text ++ ")"

/-- Formulas with a separator between them. -/
def textAll (separator : String) : List Node → String
  | [] => ""
  | [node] => node.text
  | node :: rest => node.text ++ separator ++ textAll separator rest

end

end Node

end DiceOdds
