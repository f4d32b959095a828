import Backprop.Element.Arithmetic
import Backprop.Tensor.Basic
import Backprop.Graph.Reference
/-!
Values: what a constant of a graph can be, and what an operation takes and returns. Plain numbers
have no element type; arrays and typed scalars have one.
-/

namespace Backprop

structure TypedArray where
  elementType : ElementType
  entries : Tensor elementType.Carrier

structure TypedScalar where
  elementType : ElementType
  entry : elementType.Carrier

inductive Value where
  | none
  | bool (b : Bool)
  | int (n : Int)
  | float (x : Float)
  | complex (z : Complex)
  | text (s : String)
  | bytes (bs : List UInt8)
  | list (items : List Value)
  | tuple (items : List Value)
  | dict (entries : List (Value × Value))
  | slice (start stop step : Value)
  | ellipsis
  | array (a : TypedArray)
  | scalar (s : TypedScalar)
  /-- An array whose entries are values and not elements. -/
  | objects (shape : Shape) (items : List Value)
  | node (n : NodeRef)
  /-- An object of a type that is neither data nor a node. -/
  | foreign (typeName : String)

/-- Keyword arguments in the order they were given. -/
abbrev Keywords := List (String × Value)

/-- Entries with distinct keys: of several values for one key the last counts, where the key was
first. -/
def lastOfEach {α β : Type} (same : α → α → Bool) (l : List (α × β)) : List (α × β) :=
  l.foldl (fun m (k, v) =>
    if m.any fun p => same p.1 k then m.map fun p => if same p.1 k then (p.1, v) else p
    else m ++ [(k, v)]) []

namespace TypedArray

def shape (a : TypedArray) : Shape := a.entries.shape

/-- The entries as elements of the given type. -/
def convertTo (t : ElementType) (a : TypedArray) : Tensor t.Carrier :=
  if h : a.elementType = t then h ▸ a.entries
  else a.entries.map (a.elementType.convert t)

/-- An array without axes stands for its one entry. -/
def collapse (a : TypedArray) : Value :=
  if a.shape = [] then .scalar ⟨a.elementType, a.entries.get []⟩ else .array a

end TypedArray

def TypedScalar.toArray (s : TypedScalar) : TypedArray := ⟨s.elementType, .single s.entry⟩

def ElementType.name : ElementType → String
  | .bool => "bool"
  | .int w => s!"int{w.bits}"
  | .uint w => s!"uint{w.bits}"
  | .float p => s!"float{8 * p.bytes}"
  | .complex p => s!"complex{16 * p.bytes}"

namespace ElementType

def all : List ElementType :=
  [.bool, .int .w8, .int .w16, .int .w32, .int .w64, .uint .w8, .uint .w16, .uint .w32, .uint .w64,
    .float .half, .float .single, .float .double, .complex .single, .complex .double]

def ofName? (name : String) : Option ElementType := all.find? (·.name == name)

end ElementType

namespace Value

instance : Inhabited Value := ⟨none⟩

def isNone : Value → Bool
  | none => true
  | _ => false

/-- The plain whole number zero, which stands for "nothing accumulated". A zero of another kind is
a derivative like any other. -/
def isZero : Value → Bool
  | int n => n == 0
  | _ => false

def node? : Value → Option NodeRef
  | node n => some n
  | _ => Option.none

def typeName : Value → String
  | none => "NoneType"
  | bool _ => "bool"
  | int _ => "int"
  | float _ => "float"
  | complex _ => "complex"
  | text _ => "str"
  | bytes _ => "bytes"
  | list _ => "list"
  | tuple _ => "tuple"
  | dict _ => "dict"
  | slice .. => "slice"
  | ellipsis => "ellipsis"
  | array _ | objects .. => "ndarray"
  | scalar s => s.elementType.name
  | node _ => "Node"
  | foreign name => name

/-- The lengths of an array's axes; other values have no axes. -/
def shape : Value → Shape
  | array a => a.shape
  | objects s _ => s
  | _ => []

/-- Bytes of storage that a value is counted with. -/
def byteSize : Value → Nat
  | array a => a.elementType.bytes * a.shape.size
  | scalar s => s.elementType.bytes
  | objects s _ => 8 * s.size
  | bool _ => 1
  | int _ | float _ => 8
  | complex _ => 16
  | _ => 0

/-- Whether a value is moved when a net is placed on a device: arrays are, scalars and options stay. -/
def isMovable : Value → Bool
  | array _ | objects .. => true
  | _ => false

end Value

end Backprop
