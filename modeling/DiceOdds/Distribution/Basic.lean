import DiceOdds.Outcome
import Std.Data.TreeMap

/-!
# Distributions

A distribution gives a weight to each of finitely many outcomes.

## Why a map of positive weights

`weightOf` is the whole content of a distribution: an outcome that is not stored has weight `0`,
and `add` never stores anything that is not positive.  So the stored outcomes are the ones that
can happen, and two ways of counting the same rolls agree as soon as they agree on `weightOf`.
Outcomes are kept in ascending order; every sum over a distribution runs in that order, from
the left, which fixes the last bit of a sum of doubles.
-/

namespace DiceOdds

/-- A weight for each outcome that can happen. -/
structure Distribution (W : Type) where
  weights : Std.TreeMap Outcome W

/-- A bound that a computation with distributions ran into. -/
inductive Exceeded where
  /-- An outcome left the grid. -/
  | value
  /-- A total grew past every finite weight. -/
  | weight
  /-- Keeping needed more partial results than are allowed. -/
  | keepStates
deriving DecidableEq, Repr

namespace Distribution

variable {W : Type} [Weight W]

/-! ## 1. Building -/

/-- Nothing can happen. -/
def empty : Distribution W := ⟨∅⟩

instance : Inhabited (Distribution W) := ⟨empty⟩

/-- Adds to the weight of an outcome; what is not a positive weight adds nothing. -/
def add (d : Distribution W) (value : Outcome) (weight : W) : Distribution W :=
  if 0 < weight then ⟨d.weights.alter value fun old => some (old.getD 0 + weight)⟩ else d

/-- The distribution of a list of weighted outcomes; equal outcomes are merged. -/
def ofList (entries : List (Outcome × W)) : Distribution W :=
  entries.foldl (fun d (value, weight) => d.add value weight) empty

/-- A single outcome. -/
def point (value : Outcome) (weight : W) : Distribution W := empty.add value weight

/-- Success counts as `1`, failure as `0`. -/
def bernoulli (success failure : W) : Distribution W := (empty.add 1 success).add 0 failure

/-! ## 2. Looking -/

/-- The weight of an outcome. -/
def weightOf (d : Distribution W) (value : Outcome) : W := d.weights.getD value 0

@[simp] theorem weightOf_empty (x : Outcome) : (empty : Distribution W).weightOf x = 0 := by
  simp [weightOf, empty]

/-- Adding changes one weight only, and only if what is added is positive. -/
theorem weightOf_add (d : Distribution W) (value x : Outcome) (weight : W) :
    (d.add value weight).weightOf x =
      if 0 < weight ∧ value = x then d.weightOf x + weight else d.weightOf x := by
  unfold add weightOf
  by_cases h : 0 < weight
  · by_cases e : value = x
    · subst e
      simp [h, Std.TreeMap.getD_eq_getD_getElem?]
    · simp [h, e, Std.TreeMap.getD_alter]
  · simp [h]

/-- The outcomes with their weights, ascending. -/
def toList (d : Distribution W) : List (Outcome × W) := d.weights.toList

/-- The number of different outcomes. -/
def size (d : Distribution W) : Nat := d.weights.size

/-- Whether nothing can happen. -/
def isEmpty (d : Distribution W) : Bool := d.weights.isEmpty

/-- The sum of all weights. -/
def total (d : Distribution W) : W := Weight.sum (d.toList.map (·.2))

/-- The mean outcome; `0` if the total is `0`. -/
def average (d : Distribution W) : W :=
  if d.total == 0 then 0
  else Weight.sum (d.toList.map fun (value, weight) => value.toWeight * weight) / d.total

/-- The least outcome. -/
def min? (d : Distribution W) : Option Outcome := d.toList.head?.map (·.1)

/-- The greatest outcome. -/
def max? (d : Distribution W) : Option Outcome := d.toList.getLast?.map (·.1)

/-- The outcome, if there is only one. -/
def point? (d : Distribution W) : Option Outcome :=
  match d.toList with
  | [(value, _)] => some value
  | _ => none

/-- The weights by the text of their outcomes; of two outcomes with one text the greater stays. -/
def record (d : Distribution W) : Std.TreeMap String W :=
  d.toList.foldl (fun map (value, weight) => map.insert value.text weight) ∅

/-! ## 3. Changing outcomes -/

/-- Replaces each outcome; outcomes that meet add their weights. -/
def map (d : Distribution W) (f : Outcome → Outcome) : Distribution W :=
  d.toList.foldl (fun out (value, weight) => out.add (f value) weight) empty

/-- Replaces each outcome by a function that may fail; the least failing outcome decides. -/
def tryMap {ε : Type} (d : Distribution W) (f : Outcome → Except ε Outcome) :
    Except ε (Distribution W) :=
  d.toList.foldlM (fun out (value, weight) => do return out.add (← f value) weight) empty

/-- Moves all outcomes by one amount. -/
def shift (d : Distribution W) (amount : Outcome) : Except Exceeded (Distribution W) :=
  d.tryMap fun value => match value.add? amount with
    | some moved => .ok moved
    | none => .error .value

/-- Keeps only some outcomes. -/
def filter (d : Distribution W) (keep : Outcome → Bool) : Distribution W :=
  ⟨d.weights.filter fun value _ => keep value⟩

/-! ## 4. Changing weights -/

/-- Adds another distribution, its weights multiplied by a factor. -/
def addScaled (d other : Distribution W) (factor : W) : Distribution W :=
  other.toList.foldl (fun out (value, weight) => out.add value (weight * factor)) d

/-- Multiplies all weights by a factor. -/
def scaled (d : Distribution W) (factor : W) : Distribution W := empty.addScaled d factor

/-- What is left of `d` when `other` is taken away, up to a billionth of a weight. -/
def subtract (d other : Distribution W) : Distribution W :=
  let least : W := 1 / ((1000000000 : Nat) : W)
  d.toList.foldl (fun out (value, weight) =>
    let rest := weight - other.weightOf value
    if least < rest then out.add value rest else out) empty

/-- Rounds every weight to a whole number; outcomes that are left with nothing disappear. -/
def rounded (d : Distribution W) : Distribution W :=
  d.toList.foldl (fun out (value, weight) => out.add value (Weight.round weight)) empty

/-- The distribution itself, unless its total is no longer finite. -/
def checkWeights (d : Distribution W) : Except Exceeded (Distribution W) :=
  if Weight.isFinite d.total then .ok d else .error .weight

end Distribution

end DiceOdds
