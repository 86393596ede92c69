import DiceOdds.Decimal.Reading
import DiceOdds.Formula.Token
import DiceOdds.Text.Blank

/-!
# From text to tokens

A reader takes the characters that are left and gives back what it read together with the rest,
or nothing.  The first character of a token decides which reader is asked.

## Why a reader that fails costs nothing

Readers are functions on the remaining text, so an optional part that does not fit is simply not
taken: `optionally` hands on the text from before the attempt.  That settles every corner where
one token could be read in two ways.  A number too large for a count is no count, so `5d` is the
number `5`, and an `e` without digits behind a reroll is left for the next token.

All characters of a token are ASCII, so counting characters counts bytes as well.
-/

namespace DiceOdds

/-- Reads something from the front of a text. -/
abbrev Reader (α : Type) := List Char → Option (α × List Char)

namespace Reader

/-! ## 1. Parts -/

/-- Reads one given character. -/
def char (expected : Char) : Reader Unit
  | c :: rest => if c = expected then some ((), rest) else none
  | [] => none

/-- Reads one given word. -/
def word (expected : String) : Reader Unit := fun cs =>
  if expected.toList.isPrefixOf cs then some ((), cs.drop expected.length) else none

/-- Reads something if it is there. -/
def optionally {α : Type} (reader : Reader α) : Reader (Option α) := fun cs =>
  match reader cs with
  | some (a, rest) => some (some a, rest)
  | none => some (none, cs)

/-- Reads a marker and what it announces. -/
def after {α : Type} (marker : Char) (reader : Reader α) : Reader α := fun cs => do
  let (_, cs) ← char marker cs
  reader cs

/-- Reads at least one digit. -/
def digits : Reader (List Char) := fun cs =>
  let found := cs.takeWhile Char.isDigit
  if found.isEmpty then none else some (found, cs.dropWhile Char.isDigit)

/-- Reads a whole number below `2 ^ 32`. -/
def nat32 : Reader UInt32 := fun cs => do
  let (found, rest) ← digits cs
  if h : Decimal.natOfDigits found < UInt32.size then
    some (UInt32.ofNatLT (Decimal.natOfDigits found) h, rest)
  else none

/-- Reads `X` or `X~Y`. -/
def faceSpec : Reader FaceSpec := fun cs => do
  let (min, cs) ← nat32 cs
  let (max, cs) ← optionally (after '~' nat32) cs
  some (⟨min, max⟩, cs)

/-- Reads digits, and digits behind a point. -/
def decimal : Reader Float := fun cs => do
  let (whole, cs) ← digits cs
  let (fraction, cs) ← optionally (after '.' digits) cs
  some (Decimal.ofDigits whole (fraction.getD []), cs)

/-- Reads `d` or `D`. -/
def diceLetter : Reader Bool
  | 'd' :: rest => some (false, rest)
  | 'D' :: rest => some (true, rest)
  | _ => none

/-! ## 2. Lexemes -/

/-- Reads `NdM`. -/
def countedDice : Reader Lexeme := fun cs => do
  let (count, cs) ← nat32 cs
  let (critical, cs) ← diceLetter cs
  let (sides, cs) ← nat32 cs
  some (.dice ⟨count, sides, critical⟩, cs)

/-- Reads a number. -/
def number : Reader Lexeme := fun cs => do
  let (value, cs) ← decimal cs
  some (.number value, cs)

/-- Reads `NdM`, or else a number. -/
def numberOrDice : Reader Lexeme := fun cs => countedDice cs <|> number cs

/-- Reads `_N` behind a dice letter. -/
def referenceId (critical : Bool) : Reader Lexeme := fun cs => do
  let (id, cs) ← after '_' nat32 cs
  some (.reference id critical, cs)

/-- Reads `M` behind a dice letter. -/
def singleDie (critical : Bool) : Reader Lexeme := fun cs => do
  let (sides, cs) ← nat32 cs
  some (.dice ⟨1, sides, critical⟩, cs)

/-- Reads what stands behind a dice letter without a count. -/
def diceOrReference (critical : Bool) : Reader Lexeme := fun cs =>
  referenceId critical cs <|> singleDie critical cs

/-- Reads `h` or `l`. -/
def keepKind : Reader KeepKind
  | 'h' :: rest => some (.highest, rest)
  | 'l' :: rest => some (.lowest, rest)
  | _ => none

/-- Reads what stands behind a `k`. -/
def keep : Reader Lexeme := fun cs => do
  let (kind, cs) ← keepKind cs
  let (count, cs) ← optionally nat32 cs
  some (.keep kind (count.getD 1), cs)

/-- Reads what stands behind an `r`. -/
def reroll : Reader Lexeme := fun cs => do
  let (faces, cs) ← faceSpec cs
  let (limit, cs) ← optionally (after 'e' nat32) cs
  some (.modifier (.reroll faces limit), cs)

/-- Reads what stands behind an `s`. -/
def success : Reader Lexeme := fun cs => do
  let (faces, cs) ← faceSpec cs
  let (explode, cs) ← optionally (after 'x' faceSpec) cs
  let (limit, cs) ← optionally (after 'l' nat32) cs
  some (.modifier (.success faces explode limit), cs)

/-- Reads what stands behind an `e`. -/
def explode : Reader Lexeme := fun cs => do
  let (faces, cs) ← faceSpec cs
  let (limit, cs) ← optionally (after 'l' nat32) cs
  some (.modifier (.explode faces limit), cs)

/-- Reads the name of one function. -/
def functionNamed (name : FunctionName) : Reader Lexeme := fun cs => do
  let (_, cs) ← word name.text cs
  some (.function name, cs)

/-- Reads the name of a function, the longer names first. -/
def function : Reader Lexeme := fun cs =>
  functionNamed .minEach cs <|> functionNamed .maxEach cs
    <|> functionNamed .min cs <|> functionNamed .max cs

/-- Reads a relation or a symbol; an equals sign may be written once or twice. -/
def sign : Reader Lexeme
  | '>' :: '=' :: rest => some (.relation .greaterEqual, rest)
  | '<' :: '=' :: rest => some (.relation .lessEqual, rest)
  | '=' :: '=' :: rest => some (.relation .equal, rest)
  | '>' :: rest => some (.relation .greater, rest)
  | '<' :: rest => some (.relation .less, rest)
  | '=' :: rest => some (.relation .equal, rest)
  | '+' :: rest => some (.symbol .plus, rest)
  | '-' :: rest => some (.symbol .minus, rest)
  | '*' :: rest => some (.symbol .star, rest)
  | '/' :: rest => some (.symbol .slash, rest)
  | '?' :: rest => some (.symbol .question, rest)
  | ':' :: rest => some (.symbol .colon, rest)
  | ';' :: rest => some (.symbol .semicolon, rest)
  | ',' :: rest => some (.symbol .comma, rest)
  | '(' :: rest => some (.symbol .leftParen, rest)
  | ')' :: rest => some (.symbol .rightParen, rest)
  | '[' :: rest => some (.symbol .leftBracket, rest)
  | ']' :: rest => some (.symbol .rightBracket, rest)
  | '#' :: rest => some (.symbol .hash, rest)
  | '|' :: rest => some (.symbol .pipe, rest)
  | _ => none

end Reader

/-! ## 3. One token -/

/-- Refuses ranges whose ends are in the wrong order. -/
def FaceSpec.check (faces : FaceSpec) (offset : Nat) : Except LexError Unit :=
  match faces.max with
  | some max => if max < faces.min then .error (.emptyRange faces.min max offset) else .ok ()
  | none => .ok ()

/-- Refuses lexemes that are well formed but mean nothing: no dice, no sides, nothing kept, no
face in a range. -/
def Lexeme.check (offset : Nat) : Lexeme → Except LexError Unit
  | dice d =>
    if d.count = 0 then .error (.malformedDice .noDice offset)
    else if d.sides = 0 then .error (.malformedDice .noSides offset)
    else .ok ()
  | keep _ count => if count = 0 then .error (.malformedModifier .keep offset) else .ok ()
  | modifier (.reroll faces _) => faces.check offset
  | modifier (.success faces explode _) => do
    faces.check offset
    match explode with
    | some range => range.check offset
    | none => .ok ()
  | modifier (.explode faces _) => faces.check offset
  | _ => .ok ()

/-- What was read, or the error that says what should have been there. -/
def orLexError {α : Type} (found : Option α) (error : LexError) : Except LexError α :=
  match found with
  | some a => .ok a
  | none => .error error

/-- Reads the lexeme that begins with `c`. -/
def Lexeme.scan (c : Char) (rest : List Char) (offset : Nat) :
    Except LexError (Lexeme × List Char) :=
  if c.isDigit then orLexError (Reader.numberOrDice (c :: rest)) (.malformedNumber offset)
  else match c with
  | 'd' => orLexError (Reader.diceOrReference false rest) (.malformedDice .incomplete offset)
  | 'D' => orLexError (Reader.diceOrReference true rest) (.malformedDice .incomplete offset)
  | 'k' => orLexError (Reader.keep rest) (.malformedModifier .keep offset)
  | 'r' => orLexError (Reader.reroll rest) (.malformedModifier .reroll offset)
  | 's' => orLexError (Reader.success rest) (.malformedModifier .success offset)
  | 'e' => orLexError (Reader.explode rest) (.malformedModifier .explode offset)
  | 'm' => orLexError (Reader.function (c :: rest)) (.unexpectedCharacter c offset)
  | _ => orLexError (Reader.sign (c :: rest)) (.unexpectedCharacter c offset)

end DiceOdds
