import DiceOdds.Decimal.Shortest
import DiceOdds.Dice
import DiceOdds.Formula.Operator

/-!
# Tokens

A formula is first cut into tokens.  A token is a lexeme together with the place where it begins,
counted in bytes of the text without blanks.
-/

namespace DiceOdds

/-! ## 1. Lexemes -/

/-- The faces that a modifier names: one face, or two ends. -/
structure FaceSpec where
  min : UInt32
  max : Option UInt32
deriving DecidableEq, Repr

/-- A modifier as it is written, with everything left out that may be left out. -/
inductive ModifierSpec where
  /-- `rX`, `rX~Y`, each with an optional `eZ`. -/
  | reroll (faces : FaceSpec) (limit : Option UInt32)
  /-- `sX`, `sX~Y`, each with an optional `xA` or `xA~B` and an optional `lZ`. -/
  | success (faces : FaceSpec) (explode : Option FaceSpec) (limit : Option UInt32)
  /-- `eX`, `eX~Y`, each with an optional `lZ`. -/
  | explode (faces : FaceSpec) (limit : Option UInt32)
deriving DecidableEq, Repr

/-- Punctuation and arithmetic signs. -/
inductive Symbol where
  | plus
  | minus
  | star
  | slash
  | question
  | colon
  | semicolon
  | comma
  | leftParen
  | rightParen
  | leftBracket
  | rightBracket
  | hash
  | pipe
deriving DecidableEq, Repr

/-- The smallest pieces of a formula. -/
inductive Lexeme where
  | number (value : Float)
  | dice (dice : Dice)
  | reference (id : UInt32) (critical : Bool)
  | keep (kind : KeepKind) (count : UInt32)
  | modifier (spec : ModifierSpec)
  | function (name : FunctionName)
  | relation (relation : Relation)
  | symbol (symbol : Symbol)
deriving DecidableEq

/-- A lexeme and the offset at which it begins. -/
structure Token where
  lexeme : Lexeme
  offset : Nat
deriving DecidableEq

/-! ## 2. How lexemes are named -/

/-- The character of a symbol. -/
def Symbol.char : Symbol → Char
  | plus => '+'
  | minus => '-'
  | star => '*'
  | slash => '/'
  | question => '?'
  | colon => ':'
  | semicolon => ';'
  | comma => ','
  | leftParen => '('
  | rightParen => ')'
  | leftBracket => '['
  | rightBracket => ']'
  | hash => '#'
  | pipe => '|'

/-- The text between single quotes. -/
def quoted (text : String) : String := "'" ++ text ++ "'"

/-- How an error message names a lexeme. -/
def Lexeme.text : Lexeme → String
  | number value => "number " ++ Decimal.text value
  | dice d => "dice " ++ toString d.count.toNat ++ diceLetter d.critical ++ toString d.sides.toNat
  | reference id critical => "reference " ++ diceLetter critical ++ "_" ++ toString id.toNat
  | keep kind count => "keep " ++ quoted (kind.text ++ toString count.toNat)
  | modifier (.reroll ..) => "reroll modifier"
  | modifier (.success ..) => "success-exploding modifier"
  | modifier (.explode ..) => "sum-exploding modifier"
  | function name => "function " ++ quoted name.text
  | relation r => quoted r.text
  | symbol s => quoted s.char.toString

/-- Whether the lexeme is written behind the dice that it changes. -/
def Lexeme.isModifier : Lexeme → Bool
  | modifier _ => true
  | _ => false

/-! ## 3. What can be wrong with a text -/

/-- What can be wrong with dice. -/
inductive DiceFault where
  | incomplete
  | noDice
  | noSides
deriving DecidableEq, Repr

/-- The lexemes that begin with a letter of their own and take numbers. -/
inductive SuffixKind where
  | keep
  | reroll
  | success
  | explode
deriving DecidableEq, Repr

/-- Why a text is no sequence of tokens. -/
inductive LexError where
  | unexpectedCharacter (char : Char) (offset : Nat)
  | malformedDice (fault : DiceFault) (offset : Nat)
  | malformedNumber (offset : Nat)
  | malformedModifier (kind : SuffixKind) (offset : Nat)
  | emptyRange (min max : UInt32) (offset : Nat)
deriving DecidableEq, Repr

def DiceFault.text : DiceFault → String
  | incomplete => "expected a number of sides or '_' and a group id"
  | noDice => "dice count must be at least 1"
  | noSides => "dice need at least one side"

def SuffixKind.text : SuffixKind → String
  | keep => "keep"
  | reroll => "reroll"
  | success => "success-exploding"
  | explode => "sum-exploding"

def LexError.message : LexError → String
  | unexpectedCharacter char offset =>
    "unexpected character " ++ quoted char.toString ++ " at position " ++ toString offset
  | malformedDice fault offset =>
    "malformed dice at position " ++ toString offset ++ ": " ++ fault.text
  | malformedNumber offset => "malformed number at position " ++ toString offset
  | malformedModifier kind offset =>
    "malformed " ++ kind.text ++ " modifier at position " ++ toString offset
  | emptyRange min max offset =>
    "empty range " ++ toString min.toNat ++ "~" ++ toString max.toNat ++ " at position "
      ++ toString offset

end DiceOdds
