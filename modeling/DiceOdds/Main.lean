import DiceOdds.Decimal.Reading
import DiceOdds.Report.Listing

/-!
# The command line

    diceodds [--crit RATE] [--exact] FORMULA

`--crit` turns critical hits on and gives their rate in percent; `--exact` asks for mixtures that
need no rounding.  All other words, joined by spaces, are the formula.  The exit code is `0` with a
listing on the standard output, `1` if the formula has no result, and `2` if the command line asks
for nothing that can be done.
-/

namespace DiceOdds

/-! ## 1. Commands -/

/-- What a command line asks for. -/
structure Command where
  options : Options Float := .standard
  /-- The words of the formula. -/
  words : List String := []

/-- What is wrong with a command line. -/
inductive UsageError where
  /-- There is no number behind `--crit`. -/
  | noRate
  | noFormula
deriving DecidableEq, Repr

/-- How a command line is refused. -/
def UsageError.message : UsageError → String
  | noRate => "--crit expects a rate in percent"
  | noFormula => "usage: diceodds [--crit RATE] [--exact] <formula>"

namespace Command

/-- Adds the words of a command line to a command, from left to right. -/
def addWords (c : Command) : List String → Except UsageError Command
  | [] => if c.words.isEmpty then .error .noFormula else .ok c
  | "--crit" :: rate :: rest => match Decimal.read? rate with
    | some criticalRate =>
      addWords { c with options := { c.options with criticalEnabled := true, criticalRate } } rest
    | none => .error .noRate
  | ["--crit"] => .error .noRate
  | "--exact" :: rest => addWords { c with options := { c.options with exactMixing := true } } rest
  | word :: rest => addWords { c with words := c.words ++ [word] } rest

/-- The command of a command line. -/
def ofWords (words : List String) : Except UsageError Command := addWords {} words

/-- The text of the formula. -/
def formula (c : Command) : String := String.intercalate " " c.words

/-- Calculates and prints; the result is the exit code. -/
def run (c : Command) : IO UInt32 := do
  match calculate c.formula c.options with
  | .ok report =>
    report.lines.forM IO.println
    return 0
  | .error e =>
    IO.eprintln ("error: " ++ e.message)
    return 1

end Command

/-! ## 2. The program -/

/-- Reads the words of a command line and does what they ask for. -/
def runWords (words : List String) : IO UInt32 := do
  match Command.ofWords words with
  | .ok command => command.run
  | .error e =>
    IO.eprintln e.message
    return 2

end DiceOdds

def main (args : List String) : IO UInt32 := DiceOdds.runWords args
