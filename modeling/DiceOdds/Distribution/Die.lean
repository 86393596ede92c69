import DiceOdds.Dice
import DiceOdds.Distribution.Sum

/-!
# One die

The distribution of a single die: plain, rerolled or exploding, possibly limited to some faces.

## Why a chain is built from its last roll

A die that may roll again up to `limit` times is seen as `limit + 1` rolls of which some may go
unused, so that every level of the chain counts the same elementary outcomes: a face that ends
the chain has the whole weight of the level below, a face that goes on passes that level's
weights through.  `grow` puts one roll in front of a level.  Only the first roll can be limited
to some faces, so only the last application of `grow` sees the limit.
-/

namespace DiceOdds.Distribution

variable {W : Type} [Weight W]

/-! ## 1. Plain dice -/

/-- The faces `1, …, sides`. -/
def faces (sides : Nat) : List Nat := List.range' 1 sides

/-- One die limited to the faces that `accept` admits, each with weight `1`. -/
def ofFaces (sides : Nat) (accept : Nat → Bool) : Distribution W :=
  ofList (((faces sides).filter accept).map fun face : Nat => (Outcome.ofInt face, 1))

/-- The faces `1, …, sides`, each with weight `1`. -/
def uniform (sides : Nat) : Distribution W := ofFaces sides fun _ => true

/-- The sum of `count` dice. -/
def dicePool (count sides : Nat) : Except Exceeded (Distribution W) :=
  (uniform sides).sumOfCopies count

/-! ## 2. Chains of rolls -/

/-- A die that may roll again: what a face is worth, which faces roll again, and whether the
face counts as well when it does. -/
structure Chain where
  sides : Nat
  value : Nat → Outcome
  again : Nat → Bool
  keepsFace : Bool

namespace Chain

/-- The last roll, limited to the faces that `accept` admits. -/
def lastRoll (c : Chain) (accept : Nat → Bool) : Distribution W :=
  ofList (((faces c.sides).filter accept).map fun face => (c.value face, 1))

/-- Adds what follows one face of the new first roll; `below` is the total of the level. -/
def addFace (c : Chain) (level : Distribution W) (below : W) (out : Distribution W) (face : Nat) :
    Except Exceeded (Distribution W) :=
  if c.again face then
    if c.keepsFace then do return out.addScaled (← level.shift (c.value face)) 1
    else .ok (out.addScaled level 1)
  else .ok (out.add (c.value face) below)

/-- Puts one roll, limited to the faces that `accept` admits, in front of a level. -/
def grow (c : Chain) (accept : Nat → Bool) (level : Distribution W) :
    Except Exceeded (Distribution W) := do
  let next ← ((faces c.sides).filter accept).foldlM (c.addFace level level.total) empty
  next.checkWeights

/-- Puts `n` unlimited rolls in front of a level. -/
def growTimes (c : Chain) : Nat → Distribution W → Except Exceeded (Distribution W)
  | 0, level => .ok level
  | n + 1, level => do growTimes c n (← c.grow (fun _ => true) level)

/-- A die with a single face shows it on every roll, so nothing has to be counted. -/
def single (c : Chain) (limit : Nat) (accept : Nat → Bool) : Except Exceeded (Distribution W) :=
  if accept 1 then
    let rolls := if c.keepsFace && c.again 1 then limit + 1 else 1
    match (c.value 1).times? rolls with
    | some total => .ok (point total 1)
    | none => .error .value
  else .ok empty

/-- The whole chain with at most `limit` further rolls, its first roll limited to the faces that
`accept` admits. -/
def run (c : Chain) (limit : Nat) (accept : Nat → Bool) : Except Exceeded (Distribution W) :=
  if c.sides = 1 then c.single limit accept
  else match limit with
    | 0 => .ok (c.lastRoll accept)
    | n + 1 => do c.grow accept (← c.growTimes n (c.lastRoll fun _ => true))

end Chain

/-! ## 3. Rerolled and exploding dice -/

/-- One die rolled again while its face is in `range`, at most `limit` times; the last roll
stands, and has to be a face that `accept` admits. -/
def rerolled (sides : Nat) (range : FaceRange) (limit : Nat) (accept : Nat → Bool) :
    Except Exceeded (Distribution W) := do
  let chain : Chain :=
    { sides, value := fun face => Outcome.ofInt face, again := range.contains, keepsFace := false }
  let all ← chain.run limit fun _ => true
  return all.filter fun value => accept (value.hundredths / 100).toNat

/-- What a face of an exploding die is worth. -/
def faceValue (kind : ExplodeKind) (success : Option FaceRange) (face : Nat) : Outcome :=
  match kind with
  | .sum => Outcome.ofInt face
  | .count => if success.any (·.contains face) then 1 else 0

/-- One exploding die: faces in `explode` are followed by another roll, at most `limit` times.
The first roll has to be a face that `accept` admits. -/
def exploding (sides : Nat) (kind : ExplodeKind) (success explode : Option FaceRange)
    (limit : Nat) (accept : Nat → Bool) : Except Exceeded (Distribution W) :=
  let chain : Chain :=
    { sides, value := faceValue kind success,
      again := fun face => explode.any (·.contains face), keepsFace := true }
  chain.run limit accept

end DiceOdds.Distribution
