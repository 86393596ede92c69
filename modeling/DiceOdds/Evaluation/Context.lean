import DiceOdds.Distribution.Mixture
import DiceOdds.Formula

/-!
# What an evaluation depends on

`Settings` stay the same for a whole calculation; a `Context` says in which of several readings a
part of the formula is evaluated.
-/

namespace DiceOdds

variable {W : Type} [Weight W]

/-! ## 1. Settings -/

/-- What holds for the whole formula. -/
structure Settings (W : Type) where
  registry : Registry := []
  /-- The rate of critical hits in percent; critical hits are off without one. -/
  rate : Option W := none
  mixing : Mixing := .rounded

/-- The number of faces that are critical on a die, the highest ones: the rate's share of all
faces, rounded. -/
def criticalFaces (rate : W) (sides : Nat) : Nat :=
  let share := ((sides : W) * rate) / ((100 : Nat) : W)
  let faces := match Weight.nearest? share with
    | some n => n.toNat
    | none => if 0 < share then sides else 0
  min faces sides

/-- The next number of 32 bits; after the greatest one comes `0`. -/
def next32 (n : Nat) : Nat := (n + 1) % 0x100000000

/-- The lowest critical face of a die; with no critical face, one above the highest.  Above the
highest face of the widest die there is no number of 32 bits: its threshold is `0` then. -/
def criticalThreshold (rate : W) (sides : Nat) : Nat := next32 (sides - criticalFaces rate sides)

/-- The probability of a critical hit where no die decides about it. -/
def rateProbability (rate : W) : W := rate / ((100 : Nat) : W)

/-! ## 2. Contexts -/

/-- Values that are fixed for dice with ids, the latest first. -/
abbrev Pins := List (Nat × Outcome)

/-- How a part of a formula is read. -/
structure Context where
  /-- What the formula says about critical hits applies. -/
  criticalBranch : Bool := false
  /-- Critical dice show only faces that are not critical. -/
  restrictCritical : Bool := false
  /-- Dice with ids have these values. -/
  pinned : Option Pins := none

namespace Context

/-- The same reading, on a critical hit or not. -/
def critical (ctx : Context) (criticalBranch : Bool) : Context := { ctx with criticalBranch }

/-- The same reading, without critical faces. -/
def restricted (ctx : Context) : Context := { ctx with restrictCritical := true }

/-- The same reading, with dice that are rolled. -/
def unpinned (ctx : Context) : Context := { ctx with pinned := none }

/-- The fixed value of the dice that a node defines, in a reading with fixed values. -/
def pinnedValue? (ctx : Context) (node : Node) : Option (Except EvalError Outcome) :=
  match ctx.pinned, node.definingId? with
  | some pins, some id => some <| match pins.lookup id with
    | some value => .ok value
    | none => .error (.unresolvedReference id)
  | _, _ => none

end Context

/-- Whether a face may be shown: critical dice may be limited to faces below the threshold. -/
def Settings.admits (s : Settings W) (ctx : Context) (dice : Dice) : Nat → Bool :=
  match s.rate with
  | some rate =>
    if ctx.restrictCritical && dice.critical then
      let threshold := criticalThreshold rate dice.sides.toNat
      fun face => face < threshold
    else fun _ => true
  | none => fun _ => true

end DiceOdds
