import DiceOdds.Distribution.Basic

/-!
# Independent values

`combine` is the weighted cross product of two independent values, `convolve` their sum, and
`sumOfCopies` the sum of many independent copies of one value.

## Why repeated squaring

The sum of `n` copies needs one convolution for each binary digit of `n` and one for each `1`
among them.  The base is squared only while digits are left, so no sum is ever formed that
exceeds the sum of all copies; an outcome off the grid on the way means that the result would
be off the grid too.
-/

namespace DiceOdds.Distribution

variable {W : Type} [Weight W]

/-- The distribution of `op a b` for independent `a` and `b`; the first failing pair, in ascending
order of `a` and then of `b`, decides. -/
def combine {ε : Type} (x y : Distribution W) (op : Outcome → Outcome → Except ε Outcome) :
    Except ε (Distribution W) :=
  let right := y.toList
  x.toList.foldlM (fun out (a, wa) =>
    right.foldlM (fun out (b, wb) => do return out.add (← op a b) (wa * wb)) out) empty

/-- The distribution of the sum of two independent values. -/
def convolve (x y : Distribution W) : Except Exceeded (Distribution W) := do
  let sums ← x.combine y fun a b => match a.add? b with
    | some sum => .ok sum
    | none => .error .value
  sums.checkWeights

/-- `sum` plus `n` more copies of `base`. -/
def addCopies (sum base : Distribution W) (n : Nat) : Except Exceeded (Distribution W) := do
  if _h : n = 0 then return sum
  else
    let sum ← if n % 2 = 1 then sum.convolve base else .ok sum
    if n / 2 = 0 then return sum
    else addCopies sum (← base.convolve base) (n / 2)
termination_by n
decreasing_by omega

/-- The distribution of the sum of `n` independent copies. -/
def sumOfCopies (d : Distribution W) (n : Nat) : Except Exceeded (Distribution W) :=
  addCopies (point 0 1) d n

end DiceOdds.Distribution
