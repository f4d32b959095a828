import Backprop.Value.Axis
/-!
The entries of an array under another shape. The shape is given by one length or by a sequence of
them, of which one may be left open as a negative number.
-/

namespace Backprop

namespace Value

/-- The lengths that a value asks for: those that it lists, or a single one. -/
def lengths (v : Value) : Except Error (List Int) := do
  let items? : Option (List Value) :=
    match v with
    | list l | tuple l => some l
    | text s => some (s.toList.map fun c => text (String.ofList [c]))
    | bytes l => some (l.map fun b => int b.toNat)
    | array a =>
      match a.entries.rank with
      | 0 => Option.none
      | 1 => some (a.entries.toList.map fun x => scalar ⟨a.elementType, x⟩)
      | _ => some (List.replicate (a.shape.headD 0) Value.none)
    | objects [_] l => some l
    | _ => Option.none
  match items? with
  | some items =>
    if Shape.maximalRank < items.length then throw .badValue
    items.mapM axisLength
  | Option.none => return [← v.axisLength]

/-- The shape with these lengths for `size` entries. What is known of it is counted in machine words,
axis by axis. -/
def shapeFor (size : Nat) (lengths : List Int) : Except Error Shape := do
  let known := lengths.filter (0 ≤ ·)
  let count ← known.foldlM (fun (p : Nat) n =>
    if fitsWord (p * n) then pure (p * n.toNat) else throw Error.badValue) 1
  match lengths.length - known.length with
  | 0 => if count = size then return known.map Int.toNat else throw .badValue
  | 1 =>
    if count = 0 || size % count != 0 then throw .badValue
    return lengths.map fun n => if n < 0 then size / count else n.toNat
  | _ => throw .badValue

/-- The bytes that one entry takes. -/
def entrySize : Cells → Nat
  | .elements a => a.elementType.bytes
  | .texts _ | .values _ => 8

/-- Whether the lengths apart from empty axes can be counted in bytes. -/
def isAddressable (c : Cells) (s : Shape) : Bool :=
  fitsWord ((s.filter (· != 0)).foldl (· * ·) (entrySize c) : Nat)

/-- The same entries under another shape. A typed scalar stays one if it gets no axes. -/
def reshape (v s : Value) : Except Error Value := do
  if !v.isTyped then throw .noAxes
  if s.isNone then return v
  let c ← v.cells
  let shape ← shapeFor c.shape.size (← s.lengths)
  if !isAddressable c shape then throw .badValue
  let r := c.rearrange fun t => (t.reshape? shape).getD t
  return if v.isScalar then r.collapse else r.toValue

end Value

end Backprop
