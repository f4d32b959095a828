import Backprop.Value.Number
/-!
The arrays that values stand for. Nested lists of equal lengths are rows, and what their leaves have in
common decides the entries: elements of one type, texts, or values of any kind.
-/

namespace Backprop

/-- The entries of an array. -/
inductive Cells where
  /-- Elements of one type. -/
  | elements (a : TypedArray)
  /-- Texts, which no arithmetic of elements takes. -/
  | texts (t : Tensor Value)
  /-- Values of any kind. -/
  | values (t : Tensor Value)

/-- What entries have in common. -/
inductive CellKind where
  | elements (t : ElementType)
  | texts
  | values

def CellKind.join : CellKind → CellKind → CellKind
  | elements s, elements t => elements (s.join t)
  | values, _ | _, values => values
  | _, _ => texts

def TypedArray.ofEntry {t : ElementType} (x : t.Carrier) : TypedArray := ⟨t, .single x⟩

namespace ElementType

/-- An element as a plain value. -/
def plain : (t : ElementType) → t.Carrier → Value
  | .bool, b => .bool b
  | .int _, n => .int n.toInt
  | .uint _, n => .int n.toNat
  | .float _, x => .float x
  | .complex _, z => .complex z

/-- A plain number as an element. -/
def ofNumber (t : ElementType) : Number → t.Carrier
  | .int n => t.ofInt n
  | .float x => t.ofFloat x
  | .complex z => t.ofComplex z

/-- The element that a leaf of a list is converted to. -/
def ofLeaf (t : ElementType) : Value → t.Carrier
  | .array a => a.elementType.convert t (a.entries.get [])
  | .scalar s => s.elementType.convert t s.entry
  | v =>
    match v.number? with
    | some n => t.ofNumber n
    | none => t.zero

end ElementType

namespace Value

/-- The plain number that a number stands for, typed or not. -/
def plainNumber? : Value → Option Number
  | scalar s => (s.elementType.plain s.entry).number?
  | v => v.number?

/-- The least element type, starting from 64 bits, that holds a whole number. -/
def kindOfWhole (n : Int) : CellKind :=
  if ElementType.int64.holds n then .elements .int64
  else if (ElementType.uint .w64).holds n then .elements (.uint .w64)
  else .values

/-- The kind of a value that is no list and no array. -/
def cellKind : Value → CellKind
  | bool _ => .elements .bool
  | int n => kindOfWhole n
  | float _ => .elements .float64
  | complex _ => .elements .complex128
  | scalar s => .elements s.elementType
  | text _ | bytes _ => .texts
  | _ => .values

/-- A leaf of a list as an entry among values. -/
def ofLeaf : Value → Value
  | array a => a.elementType.plain (a.entries.get [])
  | v => v

end Value

/-- Rows of leaves. An entry of an array is a leaf without axes, and the kinds are those of the leaves
as they come; an empty list has none. -/
structure Rows where
  shape : Shape
  kinds : List CellKind
  leaves : List Value

/-- Rows of one shape side by side along a new first axis. -/
def Rows.stack : List Rows → Except Error Rows
  | [] => .ok ⟨[0], [], []⟩
  | first :: rest =>
    let rows := first :: rest
    if rest.all (·.shape == first.shape) then
      .ok ⟨rows.length :: first.shape, rows.flatMap (·.kinds), rows.flatMap (·.leaves)⟩
    else .error .badValue

/-- The array of these rows; without a leaf it holds doubles. -/
def Rows.toCells (r : Rows) : Except Error Cells :=
  let kind : CellKind :=
    match r.kinds with
    | [] => .elements .float64
    | k :: rest => rest.foldl CellKind.join k
  let array? :=
    match kind with
    | .elements t => (Tensor.ofList? r.shape (r.leaves.map t.ofLeaf)).map fun e => Cells.elements ⟨t, e⟩
    | .texts => (Tensor.ofList? r.shape (r.leaves.map Value.ofLeaf)).map .texts
    | .values => (Tensor.ofList? r.shape (r.leaves.map Value.ofLeaf)).map .values
  match array? with
  | some c => .ok c
  | none => .error .badValue

namespace Cells

def shape : Cells → Shape
  | elements a => a.shape
  | texts t | values t => t.shape

def rank (c : Cells) : Nat := c.shape.length

/-- The entries as plain values. -/
def toValues : Cells → Tensor Value
  | elements a => a.entries.map a.elementType.plain
  | texts t | values t => t

def toValue : Cells → Value
  | elements a => .array a
  | texts t | values t => .objects t.shape t.toList

/-- An array without axes stands for its one entry. -/
def collapse : Cells → Value
  | elements a => a.collapse
  | texts t | values t =>
    match t.shape, t.toList with
    | [], [v] => v
    | s, l => .objects s l

/-- The entries in another arrangement. -/
def rearrange (f : {α : Type} → [Inhabited α] → Tensor α → Tensor α) : Cells → Cells
  | elements a => elements ⟨a.elementType, f a.entries⟩
  | texts t => texts (f t)
  | values t => values (f t)

end Cells

/-- The array with these values in row-major order. -/
def Cells.ofValues (s : Shape) (l : List Value) : Cells :=
  values ((Tensor.ofList? s l).getD (.ofFn s fun _ => .none))

namespace Value

mutual

/-- A value as rows of leaves. -/
def rows : Value → Except Error Rows
  | list l | tuple l => do Rows.stack (← rowsEach l)
  | array a =>
    .ok ⟨a.shape, [.elements a.elementType], a.entries.toList.map fun x => array (.ofEntry x)⟩
  | objects s l => .ok ⟨s, [.values], l⟩
  | v => .ok ⟨[], [v.cellKind], [v]⟩

def rowsEach : List Value → Except Error (List Rows)
  | [] => .ok []
  | v :: l => do return (← rows v) :: (← rowsEach l)

end

/-- The array that a value stands for. -/
def cells : Value → Except Error Cells
  | array a => .ok (.elements a)
  | scalar s => .ok (.elements s.toArray)
  | objects s l => .ok (.ofValues s l)
  | v => do (← v.rows).toCells

/-- The array of elements that a value stands for. -/
def toArray (v : Value) : Except Error TypedArray := do
  match ← v.cells with
  | .elements a => return a
  | _ => throw .operandType

mutual

/-- How deeply arrays and lists are nested in a value. -/
def depth : Value → Nat
  | list l | tuple l | objects _ l => depthEach l + 1
  | _ => 0

def depthEach : List Value → Nat
  | [] => 0
  | v :: l => max (depth v) (depthEach l)

end

end Value

/-- The results of an array of computations, in row-major order. -/
def Tensor.collectM {α ε : Type} [Inhabited α] (t : Tensor (Except ε α)) : Except ε (Tensor α) := do
  let l ← t.toList.mapM id
  return (Tensor.ofList? t.shape l).getD (.ofFn t.shape fun _ => default)

end Backprop
