import Backprop.Value.Cells
import Backprop.Value.Whole
import Backprop.Tensor.Selection
/-!
Values as indices: places, ranges with a step, new axes, the axes in between, arrays of places and
masks. What every item is gets settled before any of them is held against the shape of the array.
-/

namespace Backprop

namespace Value

/-- A bound of a range: absent or a whole number. -/
def bound : Value → Except SelectionError (Option Int)
  | none => .ok Option.none
  | v =>
    match v.index? with
    | some n => .ok (some n)
    | Option.none => .error .badBound

/-- The bounds of a range. The step comes first and is not zero. -/
def bounds (start stop step : Value) : Except SelectionError Bounds := do
  let step := (← step.bound).getD 1
  if step = 0 then throw .zeroStep
  return ⟨← start.bound, ← stop.bound, step⟩

/-- A place that has to fit into a machine word. -/
def placeItem (n : Int) : Except Error IndexItem :=
  if fitsWord n then .ok (.place n)
  else if (ElementType.uint .w64).holds n then .error .overflow
  else .error .outOfRange

/-- An array used as an index: places or a mask. -/
def arrayItem : Cells → Except Error IndexItem
  | .elements ⟨.bool, e⟩ => .ok (.mask e)
  | .elements ⟨.int _, e⟩ =>
    if e.rank = 0 then placeItem (e.get []).toInt else .ok (.places (e.map (·.toInt)))
  | .elements ⟨.uint w, e⟩ =>
    if e.rank = 0 then placeItem (e.get []).toNat
    else .ok (.places (e.map fun n => if w = .w64 then n.toInt else n.toNat))
  | _ => .error .outOfRange

/-- A list used as an index. One without entries holds no places, whatever it is a list of. -/
def listItem (c : Cells) : Except Error IndexItem :=
  if c.shape.size = 0 then .ok (.places (.ofFn c.shape fun _ => 0)) else arrayItem c

/-- What one item of an index stands for. -/
def indexItem (v : Value) : Except Error IndexItem :=
  match v with
  | int n => placeItem n
  | none => .ok .newAxis
  | ellipsis => .ok .between
  | slice a b c => .ok (.range (bounds a b c))
  | list _ | tuple _ => do listItem (← v.cells)
  | v => do arrayItem (← v.cells)

/-- The items of an index as they come. The axes in between are meant once. -/
def indexItems (seenBetween : Bool) : List Value → Except Error (List IndexItem)
  | [] => .ok []
  | v :: l => do
    let i ← indexItem v
    if seenBetween && i.isBetween then throw .outOfRange
    return i :: (← indexItems (seenBetween || i.isBetween) l)

/-- What an index selects from an array of shape `s`: the index has one item, or is a tuple of them. -/
def selection (s : Shape) (index : Value) : Except Error Selection := do
  let items ←
    match index with
    | tuple l => indexItems false l
    | v => indexItems false [v]
  match Selection.ofItems s items with
  | .ok sel => return sel
  | .error .outOfRange => throw .outOfRange
  | .error .zeroStep => throw .badValue
  | .error .badBound => throw .operandType

end Value

end Backprop
