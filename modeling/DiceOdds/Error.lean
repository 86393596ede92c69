import DiceOdds.Distribution.Keep
import DiceOdds.Formula.Parse

/-!
# What can go wrong

A calculation fails for the text of a formula, for its structure, for a value in it, or for its
options.  Each cause is a constructor; `message` words it.
-/

namespace DiceOdds

/-- How many combinations of dice values are enumerated for one formula. -/
def greatestCombinations : Nat := 2000000

/-- Why a formula has no distribution.  Texts name the part of the formula that is to blame. -/
inductive EvalError where
  | conditionNotComparison (condition : String)
  /-- There are no dice with this id. -/
  | unresolvedReference (id : Nat)
  /-- The formula has a reference, but its dice have no ids. -/
  | referenceOutsideReuse (id : Nat)
  | divisionByZero (part : String)
  | nonConstantThreshold (name : FunctionName) (argument : String)
  | overflow (part : String)
  | weightOverflow (part : String)
  | tooManyKeepStates (part : String)
  | tooManyCombinations (count : Float)

/-- A bound that was exceeded, blamed on a part of the formula. -/
def Exceeded.at (e : Exceeded) (part : String) : EvalError :=
  match e with
  | value => .overflow part
  | weight => .weightOverflow part
  | keepStates => .tooManyKeepStates part

/-- The result, with an exceeded bound blamed on a part of the formula.  The text of that part is
only made when it is needed. -/
def orBlame {α : Type} (result : Except Exceeded α) (part : Unit → String) : Except EvalError α :=
  match result with
  | .ok a => .ok a
  | .error e => .error (e.at (part ()))

def EvalError.message : EvalError → String
  | conditionNotComparison condition => "condition must be a comparison: " ++ condition
  | unresolvedReference id => "dice reference d_" ++ toString id ++ " does not name a dice group"
  | referenceOutsideReuse id =>
    "dice reference d_" ++ toString id ++ " used outside dice-reuse mode"
  | divisionByZero part => "division by zero in " ++ part
  | nonConstantThreshold name argument =>
    "threshold of " ++ name.text ++ " must be a constant, got " ++ argument
  | overflow part => "value out of range in " ++ part
  | weightOverflow part => "too many equally likely outcomes to count in " ++ part
  | tooManyKeepStates part =>
    "keeping dice in " ++ part ++ " needs more than "
      ++ toString Distribution.greatestKeepStates ++ " partial results"
  | tooManyCombinations count =>
    "dice reuse needs " ++ Decimal.text count ++ " face combinations, more than the limit of "
      ++ toString greatestCombinations

/-- Why a calculation has no result. -/
inductive CalcError where
  | lex (error : LexError)
  | parse (error : ParseError)
  | eval (error : EvalError)
  /-- The rate of critical hits is no percentage. -/
  | invalidRate (rate : String)

def CalcError.message : CalcError → String
  | lex error => "lex error: " ++ error.message
  | parse error => "parse error: " ++ error.message
  | eval error => "evaluation error: " ++ error.message
  | invalidRate rate =>
    "invalid options: criticalRate must be between 0 and 100, got " ++ rate

end DiceOdds
