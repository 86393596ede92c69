import DiceOdds.Formula.Node
import DiceOdds.Formula.Tokens

/-!
# From tokens to trees

The grammar has one level per binding strength:

    conditional     comparison [ '?' conditional ':' conditional ]
    comparison      additive [ relation additive ]
    additive        multiplicative { ('+' | '-') multiplicative }
    multiplicative  factor { ('*' | '/') factor }
    factor          atom, with a modifier behind it if it is a dice literal
    atom            '#' conditional '#' | '|' conditional '|' conditional '|'
                    | '[' conditional ']' | number | dice | reference
                    | keep '(' conditional { ';' conditional } ')'
                    | function '(' conditional ',' conditional ')' | '(' conditional ')'

## Why the levels take the whole grammar as an argument

Every level is a function of `inner`, the parser for the conditionals nested in it.  Such a
conditional begins behind at least one token, so a parser that is given `n` tokens needs `inner`
only for `n - 1`.  `conditional n` is tied together by recursion on that number; with no token
left there is nothing but the error that an operand is missing.
-/

namespace DiceOdds

/-! ## 1. Errors -/

/-- What a parser was looking for. -/
inductive Expected where
  | operand
  | operator
  | colon
  | openingParenthesis
deriving DecidableEq, Repr

/-- Why a list of tokens is no formula. -/
inductive ParseError where
  | emptyFormula
  | unexpectedToken (expected : Expected) (found : Lexeme) (offset : Nat)
  | unexpectedEnd (expected : Expected)
  | unclosed (opening : Symbol) (offset : Nat)
  | conditionNotComparison (offset : Nat)
  | wrongArity (name : FunctionName) (found : Nat)
  | modifierTarget (offset : Nat)
  | chainedComparison (offset : Nat)
deriving DecidableEq

def Expected.text : Expected → String
  | operand => "a number, dice or '('"
  | operator => "an operator or the end of the formula"
  | colon => quoted ":"
  | openingParenthesis => quoted "("

/-- How many arguments every function takes. -/
def functionArity : Nat := 2

def ParseError.message : ParseError → String
  | emptyFormula => "empty formula"
  | unexpectedToken expected found offset =>
    "expected " ++ expected.text ++ " at position " ++ toString offset ++ ", found " ++ found.text
  | unexpectedEnd expected => "expected " ++ expected.text ++ " but the formula ended"
  | unclosed opening offset =>
    "unclosed " ++ quoted opening.char.toString ++ " opened at position " ++ toString offset
  | conditionNotComparison offset =>
    "condition before '?' at position " ++ toString offset ++ " must be a comparison"
  | wrongArity name found =>
    name.text ++ " takes " ++ toString functionArity ++ " arguments, got " ++ toString found
  | modifierTarget offset =>
    "modifier at position " ++ toString offset ++ " must follow a dice literal"
  | chainedComparison offset =>
    "comparison operators cannot be chained (position " ++ toString offset ++ ")"

/-! ## 2. Modifiers -/

/-- The range with its upper end filled in. -/
def FaceSpec.range (faces : FaceSpec) (highest : UInt32) : FaceRange :=
  ⟨faces.min, faces.max.getD highest⟩

/-- What a written modifier means for dice with so many sides: a reroll without an upper end is
for one face, an explosion or a success without one is for all faces from there on. -/
def ModifierSpec.modifier (sides : UInt32) : ModifierSpec → Modifier
  | reroll faces limit => .reroll (faces.range faces.min) (limit.getD defaultRerollLimit)
  | success faces again limit =>
    .exploding .count (some (faces.range sides)) (again.map (·.range sides))
      (limit.getD defaultExplodeLimit)
  | explode faces limit =>
    .exploding .sum none (some (faces.range sides)) (limit.getD defaultExplodeLimit)

/-! ## 3. The levels of the grammar -/

/-- Reads something from the front of a list of tokens. -/
abbrev Parser (α : Type) := List Token → Except ParseError (α × List Token)

namespace Parser

/-- The error for whatever stands where something else was expected. -/
def unexpected {α : Type} (expected : Expected) : List Token → Except ParseError α
  | [] => .error (.unexpectedEnd expected)
  | t :: _ => .error (.unexpectedToken expected t.lexeme t.offset)

/-- Reads the closing symbol of what was opened at `offset`. -/
def close (symbol opening : Symbol) (offset : Nat) (ts : List Token) :
    Except ParseError (List Token) :=
  match ts with
  | ⟨.symbol found, _⟩ :: rest =>
    if found = symbol then .ok rest else .error (.unclosed opening offset)
  | _ => .error (.unclosed opening offset)

/-- Reads the items behind the first one, as long as separators follow.  There are at most as many
as there are tokens. -/
def itemsAfter (inner : Parser Node) (separator : Symbol) : Nat → Parser (List Node)
  | 0, ts => .ok ([], ts)
  | n + 1, ts =>
    match ts with
    | ⟨.symbol found, _⟩ :: rest =>
      if found = separator then do
        let (item, rest) ← inner rest
        let (items, rest) ← itemsAfter inner separator n rest
        return (item :: items, rest)
      else .ok ([], ts)
    | _ => .ok ([], ts)

/-- Reads items in parentheses, for the owner at `offset`. -/
def items (inner : Parser Node) (separator : Symbol) (offset : Nat) : Parser (List Node) := fun ts =>
  match ts with
  | ⟨.symbol .leftParen, _⟩ :: rest => do
    let (first, rest) ← inner rest
    let (more, rest) ← itemsAfter inner separator rest.length rest
    let rest ← close .rightParen .leftParen offset rest
    return (first :: more, rest)
  | _ => unexpected .openingParenthesis ts

/-- Reads an atom. -/
def atom (inner : Parser Node) : Parser Node
  | [] => .error (.unexpectedEnd .operand)
  | ⟨lexeme, offset⟩ :: rest =>
    match lexeme with
    | .number value => .ok (.number value, rest)
    | .dice d => .ok (.dice d none none, rest)
    | .reference id critical => .ok (.reference id critical, rest)
    | .keep kind count => do
      let (items, rest) ← items inner .semicolon offset rest
      return (.keep kind count items, rest)
    | .function name => do
      let (args, rest) ← items inner .comma offset rest
      if args.length = functionArity then return (.function name args, rest)
      else throw (.wrongArity name args.length)
    | .symbol .leftParen => do
      let (node, rest) ← inner rest
      let rest ← close .rightParen .leftParen offset rest
      return (.group node, rest)
    | .symbol .hash => do
      let (node, rest) ← inner rest
      let rest ← close .hash .hash offset rest
      return (.double node, rest)
    | .symbol .pipe => do
      let (normal, rest) ← inner rest
      let rest ← close .pipe .pipe offset rest
      let (critical, rest) ← inner rest
      let rest ← close .pipe .pipe offset rest
      return (.switch normal critical, rest)
    | .symbol .leftBracket => do
      let (node, rest) ← inner rest
      let rest ← close .rightBracket .leftBracket offset rest
      return (.only node, rest)
    | .modifier _ => .error (.modifierTarget offset)
    | .relation _ => .error (.unexpectedToken .operand lexeme offset)
    | .symbol _ => .error (.unexpectedToken .operand lexeme offset)

/-- Refuses a modifier at the front. -/
def withoutModifier (node : Node) : Parser Node
  | ⟨.modifier _, offset⟩ :: _ => .error (.modifierTarget offset)
  | ts => .ok (node, ts)

/-- Reads an atom, and a modifier behind a dice literal. -/
def factor (inner : Parser Node) : Parser Node := fun ts => do
  let (node, rest) ← atom inner ts
  match node, rest with
  | .dice d id none, ⟨.modifier spec, _⟩ :: rest =>
    withoutModifier (.dice d id (some (spec.modifier d.sides))) rest
  | node, rest => withoutModifier node rest

/-- The operations that bind like a product. -/
def product? : Lexeme → Option Operation
  | .symbol .star => some .mul
  | .symbol .slash => some .div
  | _ => none

/-- The operations that bind like a sum. -/
def sum? : Lexeme → Option Operation
  | .symbol .plus => some .add
  | .symbol .minus => some .sub
  | _ => none

/-- Reads further operands of operations of one binding strength, which group to the left.  There
are at most as many as there are tokens. -/
def chain (operation? : Lexeme → Option Operation) (operand : Parser Node) :
    Nat → Node → Parser Node
  | 0, left, ts => .ok (left, ts)
  | n + 1, left, ts =>
    match ts with
    | [] => .ok (left, [])
    | t :: rest =>
      match operation? t.lexeme with
      | some operation => do
        let (right, rest) ← operand rest
        chain operation? operand n (.binary operation left right) rest
      | none => .ok (left, t :: rest)

/-- Reads products and quotients of factors. -/
def multiplicative (inner : Parser Node) : Parser Node := fun ts => do
  let (left, rest) ← factor inner ts
  chain product? (factor inner) rest.length left rest

/-- Reads sums and differences of products. -/
def additive (inner : Parser Node) : Parser Node := fun ts => do
  let (left, rest) ← multiplicative inner ts
  chain sum? (multiplicative inner) rest.length left rest

/-- Reads at most one comparison. -/
def comparison (inner : Parser Node) : Parser Node := fun ts => do
  let (left, rest) ← additive inner ts
  match rest with
  | ⟨.relation relation, _⟩ :: rest => do
    let (right, rest) ← additive inner rest
    match rest with
    | ⟨.relation _, offset⟩ :: _ => .error (.chainedComparison offset)
    | rest => .ok (.comparison relation left right, rest)
  | rest => .ok (left, rest)

/-- Reads the branches of a conditional, behind its question mark. -/
def branches (inner : Parser Node) (condition : Node) : Parser Node := fun ts => do
  let (ifTrue, rest) ← inner ts
  match rest with
  | ⟨.symbol .colon, _⟩ :: rest => do
    let (ifFalse, rest) ← inner rest
    return (.conditional condition ifTrue ifFalse, rest)
  | rest => unexpected .colon rest

/-- Reads a conditional, or whatever binds more strongly. -/
def level (inner : Parser Node) : Parser Node
  | [] => .error (.unexpectedEnd .operand)
  | t :: ts => do
    let (condition, rest) ← comparison inner (t :: ts)
    match rest with
    | ⟨.symbol .question, _⟩ :: rest =>
      if condition.isComparison then branches inner condition rest
      else .error (.conditionNotComparison t.offset)
    | rest => .ok (condition, rest)

/-- Reads a conditional from at most `n` tokens. -/
def conditional : Nat → Parser Node
  | 0 => fun _ => .error (.unexpectedEnd .operand)
  | n + 1 => level (conditional n)

end Parser

/-- The tree of a whole list of tokens. -/
def Node.ofTokens (ts : List Token) : Except ParseError Node :=
  match ts with
  | [] => .error .emptyFormula
  | ts => do
    let (node, rest) ← Parser.conditional ts.length ts
    match rest with
    | [] => return node
    | t :: _ => throw (.unexpectedToken .operator t.lexeme t.offset)

end DiceOdds
