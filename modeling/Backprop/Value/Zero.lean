import Backprop.Value.Code
/-!
Zeros to accumulate derivatives in: an array of the shape of a value, in doubles or in an element
type that holds them and the value's entries.
-/

namespace Backprop

namespace Value

/-- Zeros of a kind joined with doubles. -/
def zerosOf (s : Shape) : CellKind → Except Error Value
  | .elements t =>
    let t := t.join .float64
    .ok (array ⟨t, .ofFn s fun _ => t.zero⟩)
  | .values => .ok (objects s (List.replicate s.size (int 0)))
  | .texts => .error .operandType

/-- What is wrong with a dictionary as a description of entries: each of its values has to be a
sequence, and a pair or a triple. -/
def descriptionError : List (Value × Value) → Error
  | [] => .operandType
  | (_, v) :: _ =>
    match v with
    | tuple [_, _] | tuple [_, _, _] => .operandType
    | text _ | bytes _ | list _ | tuple _ | dict _ => .badValue
    | array a => if a.entries.rank = 0 then .operandType else .badValue
    | objects s _ => if s.isEmpty then .operandType else .badValue
    | _ => .operandType

/-- All zeros, in the shape of a value. Numbers have no axes; a text without axes names the kind of its
entries, and nothing at all stands for a double. -/
def zerosLike : Value → Except Error Value
  | array a => zerosOf a.shape (.elements a.elementType)
  | objects s _ => zerosOf s .values
  | scalar s => zerosOf [] (.elements s.elementType)
  | none | bool _ | int _ | float _ => zerosOf [] (.elements .float64)
  | complex _ => zerosOf [] (.elements .complex128)
  | text s =>
    match CellKind.ofCode? s with
    | some kind => zerosOf [] kind
    | Option.none => .error .operandType
  | bytes l =>
    match CellKind.ofCode? (String.ofList (l.map fun b => Char.ofNat b.toNat)) with
    | some kind => zerosOf [] kind
    | Option.none => .error .operandType
  | dict entries => .error (descriptionError entries)
  | _ => .error .operandType

end Value

end Backprop
