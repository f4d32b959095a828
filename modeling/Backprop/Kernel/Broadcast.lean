import Backprop.Value.Axis
import Backprop.Value.Zero
/-!
Undoing broadcasting: a derivative in the shape of a result is summed down to the shape of an
operand, and a derivative of fewer axes is stretched up to it.
-/

namespace Backprop.Kernel

/-- The axes at which the target has length one and the array does not. -/
def stretchedAxes (target current : Shape) : List Nat :=
  (target.zip current).zipIdx.filterMap fun ((m, n), axis) =>
    if m = 1 && n != 1 then some axis else none

def axisTuple (axes : List Nat) : Value := .tuple (axes.map fun k => .int (Int.ofNat k))

/-- The derivative `d` in the shape of `like`. -/
def unbroadcast (d like : Value) : Except Error Value := do
  let target := like.shape
  if d.shape = target then return d
  if d.shape.length < target.length then return ← (← like.zerosLike).add d
  let extra := d.shape.length - target.length
  let d ← if extra = 0 then pure d else d.sum (axisTuple (List.range extra)) (.bool false)
  let axes := stretchedAxes target d.shape
  if axes.isEmpty then return d else d.sum (axisTuple axes) (.bool true)

end Backprop.Kernel
