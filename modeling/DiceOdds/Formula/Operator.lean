/-!
# Operators

The arithmetic and the comparisons that a formula can write between two values.
-/

namespace DiceOdds

/-- An arithmetic operation. -/
inductive Operation where
  | add
  | sub
  | mul
  | div
deriving DecidableEq, Repr

/-- A comparison. -/
inductive Relation where
  | greater
  | greaterEqual
  | less
  | lessEqual
  | equal
deriving DecidableEq, Repr

def Operation.text : Operation → String
  | add => "+"
  | sub => "-"
  | mul => "*"
  | div => "/"

def Relation.text : Relation → String
  | greater => ">"
  | greaterEqual => ">="
  | less => "<"
  | lessEqual => "<="
  | equal => "="

/-- Whether the relation holds between two values of an ordered type. -/
def Relation.holds {α : Type} [Ord α] (r : Relation) (a b : α) : Bool :=
  match r with
  | greater => (compare a b).isGT
  | greaterEqual => (compare a b).isGE
  | less => (compare a b).isLT
  | lessEqual => (compare a b).isLE
  | equal => (compare a b).isEq

end DiceOdds
