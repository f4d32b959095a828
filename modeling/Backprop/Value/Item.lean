import Backprop.Value.Arithmetic
import Backprop.Value.Index
import Backprop.Value.Key
/-!
Items of values: entries and parts of arrays, elements and ranges of sequences, and entries of
dictionaries. `scatterAdd` is the reverse of reading an array: what was read from a position is
added back to it, as often as it was read.
-/

namespace Backprop

namespace Value

/-- The entries of an array that an index selects; a place on every axis selects one entry. -/
def selectFrom (c : Cells) (index : Value) : Except Error Value := do
  let sel ← selection c.shape index
  let r := c.rearrange (Tensor.gather sel.shape sel.source)
  return if sel.isEntry then r.collapse else r.toValue

/-- An element of a sequence, or the range of it that a slice asks for. -/
def fromSequence {α : Type} (l : List α) (element : α → Value) (range : List α → Value) :
    Value → Except Error Value
  | slice a b c =>
    match bounds a b c with
    | .ok b => .ok (range ((b.stride l.length).pick l))
    | .error .zeroStep => .error .badValue
    | .error _ => .error .operandType
  | v =>
    match v.index? with
    | some i =>
      match (locate l.length i).bind (l[·]?) with
      | some x => .ok (element x)
      | Option.none => .error .outOfRange
    | Option.none => .error .operandType

/-- The rows of an array. -/
def rowsOf (c : Cells) : Except Error (List Value) :=
  match c.shape with
  | [] => .error .operandType
  | n :: _ => (List.range n).mapM fun k => selectFrom c (int (Int.ofNat k))

/-- The items that a value runs through: those of a sequence, the keys of a dictionary, the rows of
an array. -/
def items : Value → Except Error (List Value)
  | list l | tuple l => .ok l
  | text s => .ok (s.toList.map fun c => text (String.ofList [c]))
  | bytes l => .ok (l.map fun b => int b.toNat)
  | dict l => .ok (l.map (·.1))
  | array a => rowsOf (.elements a)
  | objects s l => rowsOf (.ofValues s l)
  | node _ => .error .iteratedNode
  | _ => .error .operandType

/-- The item of a value at an index. -/
def item (v index : Value) : Except Error Value :=
  match v with
  | array a => selectFrom (.elements a) index
  | objects s l => selectFrom (.ofValues s l) index
  | scalar s => (selectFrom (.elements s.toArray) index).mapError fun _ => .outOfRange
  | text s =>
    let one (c : Char) : Value := text (String.ofList [c])
    fromSequence s.toList one (fun l => text (String.ofList l)) index
  | bytes l => fromSequence l (fun b => int b.toNat) bytes index
  | list l => fromSequence l id list index
  | tuple l => fromSequence l id tuple index
  | dict l =>
    if index.isKey then
      match l.find? fun (k, _) => sameKey k index with
      | some (_, x) => .ok x
      | Option.none => .error .missingKey
    else .error .operandType
  | _ => .error .operandType

/-- A value as an element. -/
def asElement (t : ElementType) (v : Value) : Except Error t.Carrier :=
  match v.plainNumber? with
  | some (.int n) => if t.holds n then .ok (t.ofInt n) else .error .overflow
  | some (.float x) => .ok (t.ofFloat x)
  | some (.complex z) =>
    match t with
    | .complex p => .ok (ElementType.ofComplex (.complex p) z)
    | _ => .error .operandType
  | Option.none => .error .operandType

/-- A computation with one more value added, brought back to the element type `t`. -/
def addValue (t : ElementType) (total : Except Error t.Carrier) (term : Value) :
    Except Error t.Carrier := do
  asElement t (← (t.plain (← total)).add term)

/-- Adds terms to elements at the places where they were selected from. Terms of a wider type are
added in that type, and the sum is cut down to an element again. -/
def scatterElements (a : TypedArray) (sel : Selection) : Cells → Except Error Value
  | .elements t =>
    let u := a.elementType.join t.elementType
    let terms := (t.convertTo u).broadcastTo sel.shape
    let add (x : a.elementType.Carrier) (y : u.Carrier) : a.elementType.Carrier :=
      u.convert a.elementType (u.add (a.elementType.convert u x) y)
    .ok (array ⟨a.elementType, a.entries.addAt add sel.source terms⟩)
  | .values t => do
    let totals := (a.entries.map Except.ok).addAt (addValue a.elementType) sel.source
      (t.broadcastTo sel.shape)
    return array ⟨a.elementType, ← totals.collectM⟩
  | .texts _ => .error .operandType

/-- Adds terms to values at the places where they were selected from. -/
def scatterValues (t : Tensor Value) (sel : Selection) (terms : Tensor Value) : Except Error Value := do
  let add (total : Except Error Value) (term : Value) : Except Error Value := do
    (← total).add term
  let totals := (t.map Except.ok).addAt add sel.source (terms.broadcastTo sel.shape)
  return (Cells.values (← totals.collectM)).toValue

/-- Adds the entries of `terms`, stretched to what the index selects, back to where they were
selected from. -/
def scatterAdd (base index terms : Value) : Except Error Value := do
  if !base.isTypedArray then throw .operandType
  let terms ← terms.cells
  let c ← base.cells
  let sel ← selection c.shape index
  if Shape.broadcast? terms.shape sel.shape != some sel.shape then throw .badValue
  match c with
  | .elements a => scatterElements a sel terms
  | .texts t | .values t => scatterValues t sel terms.toValues

end Value

end Backprop
