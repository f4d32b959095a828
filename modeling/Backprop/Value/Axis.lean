import Backprop.Value.Arithmetic
/-!
Operations on the axes of arrays: sums along axes, new and removed axes, and transposition.
-/

namespace Backprop

namespace Value

/-- One axis of an array with `rank` axes. An array without axes has an axis `0` to sum along. -/
def axisAmong (rank : Nat) (i : Int) : Except Error (List Nat) :=
  match locate rank i with
  | some k => .ok [k]
  | Option.none => if rank = 0 ∧ (i = 0 ∨ i = -1) then .ok [] else .error .badValue

/-- The axes to sum along: all of them, one, or a tuple of distinct ones. -/
def sumAxes (rank : Nat) : Value → Except Error (List Nat)
  | none => .ok (List.range rank)
  | tuple l => do
    let axes ← l.mapM fun v => do
      match locate rank (← v.axisNumber) with
      | some k => return k
      | Option.none => throw Error.badValue
    if axes.eraseDups.length = axes.length then return axes else throw .badValue
  | v => do axisAmong rank (← v.axisNumber)

/-- The sum of an array along axes, in the element type that sums are held in. Rounded numbers are
added run by run. -/
def sumElements (a : TypedArray) (axes : List Nat) (keep : Bool) : TypedArray :=
  let t := a.elementType.accumulator
  let rounded :=
    match t with
    | .float _ | .complex _ => true
    | _ => false
  ⟨t, if rounded then (a.convertTo t).sumRuns t.addRun t.zero axes keep
    else (a.convertTo t).sumAlong t.add t.zero axes keep⟩

/-- The sum of values from the first one on; without a value it is the plain zero. -/
def total : List Value → Except Error Value
  | [] => .ok (int 0)
  | v :: l => l.foldlM Value.add v

def sumValues (t : Tensor Value) (axes : List Nat) (keep : Bool) : Except Error Cells := do
  let totals := Tensor.ofFn (t.shape.reduce axes keep) fun i => total (t.fibre axes keep i)
  return .values (← totals.collectM)

/-- The sum along axes. -/
def sum (v axis keep : Value) : Except Error Value := do
  let keep ← keep.flag
  let c ← v.cells
  let axes ← sumAxes c.rank axis
  match c with
  | .elements a => return (sumElements a axes keep).collapse
  | .values t => return (← sumValues t axes keep).collapse
  | .texts _ => throw .operandType

/-- A new axis of length one before axis `i` of the result. -/
def insertAxis (v : Value) (i : Int) : Except Error Value := do
  let c ← v.cells
  match locate (c.rank + 1) i with
  | some k =>
    if c.rank < Shape.maximalRank then return (c.rearrange (Tensor.insertAxis k)).toValue
    else throw .badValue
  | Option.none => throw .badValue

/-- Removes an axis of length one. -/
def removeAxis (v : Value) (i : Int) : Except Error Value := do
  let c ← v.cells
  match locate c.rank i with
  | some k =>
    if c.shape.getD k 0 = 1 then return (c.rearrange (Tensor.removeAxis k)).toValue
    else throw .badValue
  | Option.none => throw .badValue

/-- Exchanges the last two axes. -/
def swapLast (v : Value) : Except Error Value := do
  if !v.isTyped then throw .noAxes
  let c ← v.cells
  if 2 ≤ c.rank then return (c.rearrange Tensor.swapLast).toValue else throw .badValue

/-- Reverses the order of the axes; a typed scalar has none to reverse. -/
def transpose (v : Value) : Except Error Value := do
  if v.isScalar then return v
  if !v.isTyped then throw .noAxes
  return ((← v.cells).rearrange Tensor.transpose).toValue

end Value

end Backprop
