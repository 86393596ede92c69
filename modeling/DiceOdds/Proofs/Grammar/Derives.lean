import Mathlib
import DiceOdds.Formula.Node
import DiceOdds.Formula.Token

/-!
# The grammar of formulas

Which lists of lexemes are formulas, and which tree they stand for, is said here as a relation,
one constructor for each production.  It knows nothing of how a parser would find the tree: only
lexemes and trees are imported.

Every production belongs to a level, and each level is contained in the next weaker one.
-/

namespace DiceOdds

/-! ## 1. What single lexemes mean -/

/-- The lexeme between the factors of a product. -/
inductive Multiplies : Lexeme → Operation → Prop where
  | star : Multiplies (.symbol .star) .mul
  | slash : Multiplies (.symbol .slash) .div

/-- The lexeme between the terms of a sum. -/
inductive Adds : Lexeme → Operation → Prop where
  | plus : Adds (.symbol .plus) .add
  | minus : Adds (.symbol .minus) .sub

/-- The faces of a modifier as a range, which ends at `last` where no end is written. -/
inductive Spans (last : UInt32) : FaceSpec → FaceRange → Prop where
  | closed (low high : UInt32) : Spans last ⟨low, some high⟩ ⟨low, high⟩
  | toLast (low : UInt32) : Spans last ⟨low, none⟩ ⟨low, last⟩

/-- The limit of a modifier, the usual one where none is written. -/
inductive Limits (usual : UInt32) : Option UInt32 → UInt32 → Prop where
  | written (limit : UInt32) : Limits usual (some limit) limit
  | leftOut : Limits usual none usual

/-- What a modifier makes of dice with so many sides.  A reroll is for the one face that it names,
explosions and successes are for all faces from there on, unless an end is written. -/
inductive Modifies (sides : UInt32) : ModifierSpec → Modifier → Prop where
  | reroll {faces : FaceSpec} {range : FaceRange} {written : Option UInt32} {limit : UInt32}
      (hrange : Spans faces.min faces range) (hlimit : Limits 1 written limit) :
      Modifies sides (.reroll faces written) (.reroll range limit)
  | success {faces : FaceSpec} {range : FaceRange} {written : Option UInt32} {limit : UInt32}
      (hrange : Spans sides faces range) (hlimit : Limits 5 written limit) :
      Modifies sides (.success faces none written) (.exploding .count (some range) none limit)
  | explodingSuccess {faces again : FaceSpec} {range more : FaceRange} {written : Option UInt32}
      {limit : UInt32} (hrange : Spans sides faces range) (hmore : Spans sides again more)
      (hlimit : Limits 5 written limit) :
      Modifies sides (.success faces (some again) written)
        (.exploding .count (some range) (some more) limit)
  | explode {faces : FaceSpec} {range : FaceRange} {written : Option UInt32} {limit : UInt32}
      (hrange : Spans sides faces range) (hlimit : Limits 5 written limit) :
      Modifies sides (.explode faces written) (.exploding .sum none (some range) limit)

/-! ## 2. Productions -/

/-- The levels of the grammar, the strongest binding first. -/
inductive Level where
  | atom
  | factor
  | multiplicative
  | additive
  | comparison
  | conditional
deriving DecidableEq, Repr

/-- The words of further items, a separator before each of them. -/
def separated (separator : Symbol) (parts : List (List Lexeme × Node)) : List Lexeme :=
  parts.flatMap fun part => .symbol separator :: part.1

/-- The word is derived from a level of the grammar, with this tree. -/
inductive Derives : Level → List Lexeme → Node → Prop where
  | number (value : Float) : Derives .atom [.number value] (.number value)
  | dice (d : Dice) : Derives .atom [.dice d] (.dice d none none)
  | reference (id : UInt32) (critical : Bool) :
      Derives .atom [.reference id critical] (.reference id critical)
  | keep (kind : KeepKind) (count : UInt32) {u : List Lexeme} {a : Node}
      {parts : List (List Lexeme × Node)} (ha : Derives .conditional u a)
      (hparts : ∀ part ∈ parts, Derives .conditional part.1 part.2) :
      Derives .atom
        (.keep kind count :: .symbol .leftParen ::
          (u ++ separated .semicolon parts ++ [.symbol .rightParen]))
        (.keep kind count (a :: parts.map (·.2)))
  | function (name : FunctionName) {u v : List Lexeme} {a b : Node}
      (ha : Derives .conditional u a) (hb : Derives .conditional v b) :
      Derives .atom
        (.function name :: .symbol .leftParen ::
          (u ++ .symbol .comma :: v ++ [.symbol .rightParen]))
        (.function name [a, b])
  | group {u : List Lexeme} {a : Node} (ha : Derives .conditional u a) :
      Derives .atom (.symbol .leftParen :: (u ++ [.symbol .rightParen])) (.group a)
  | double {u : List Lexeme} {a : Node} (ha : Derives .conditional u a) :
      Derives .atom (.symbol .hash :: (u ++ [.symbol .hash])) (.double a)
  | switch {u v : List Lexeme} {a b : Node} (ha : Derives .conditional u a)
      (hb : Derives .conditional v b) :
      Derives .atom
        (.symbol .pipe :: (u ++ .symbol .pipe :: (v ++ [.symbol .pipe]))) (.switch a b)
  | only {u : List Lexeme} {a : Node} (ha : Derives .conditional u a) :
      Derives .atom (.symbol .leftBracket :: (u ++ [.symbol .rightBracket])) (.only a)
  | ofAtom {u : List Lexeme} {a : Node} (ha : Derives .atom u a) : Derives .factor u a
  | modified (d : Dice) {spec : ModifierSpec} {modifier : Modifier}
      (hm : Modifies d.sides spec modifier) :
      Derives .factor [.dice d, .modifier spec] (.dice d none (some modifier))
  | ofFactor {u : List Lexeme} {a : Node} (ha : Derives .factor u a) : Derives .multiplicative u a
  | product {u v : List Lexeme} {a b : Node} {x : Lexeme} {operation : Operation}
      (ha : Derives .multiplicative u a) (hx : Multiplies x operation)
      (hb : Derives .factor v b) :
      Derives .multiplicative (u ++ x :: v) (.binary operation a b)
  | ofMultiplicative {u : List Lexeme} {a : Node} (ha : Derives .multiplicative u a) :
      Derives .additive u a
  | sum {u v : List Lexeme} {a b : Node} {x : Lexeme} {operation : Operation}
      (ha : Derives .additive u a) (hx : Adds x operation)
      (hb : Derives .multiplicative v b) : Derives .additive (u ++ x :: v) (.binary operation a b)
  | ofAdditive {u : List Lexeme} {a : Node} (ha : Derives .additive u a) : Derives .comparison u a
  | comparison (relation : Relation) {u v : List Lexeme} {a b : Node}
      (ha : Derives .additive u a) (hb : Derives .additive v b) :
      Derives .comparison (u ++ .relation relation :: v) (.comparison relation a b)
  | ofComparison {u : List Lexeme} {a : Node} (ha : Derives .comparison u a) :
      Derives .conditional u a
  | conditional {u v w : List Lexeme} {c a b : Node} (hc : Derives .comparison u c)
      (hcond : c.isComparison = true) (ha : Derives .conditional v a)
      (hb : Derives .conditional w b) :
      Derives .conditional (u ++ .symbol .question :: (v ++ .symbol .colon :: w))
        (.conditional c a b)

/-- No word is empty. -/
theorem Derives.ne_nil {l : Level} {w : List Lexeme} {a : Node} (h : Derives l w a) : w ≠ [] := by
  induction h with
  | ofAtom _ ih | ofFactor _ ih | ofMultiplicative _ ih | ofAdditive _ ih | ofComparison _ ih =>
    exact ih
  | product | sum | comparison | conditional => simp
  | _ => exact List.cons_ne_nil _ _

end DiceOdds
