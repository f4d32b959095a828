import Backprop.Value.Cells
/-!
How values take part in arithmetic with arrays. A typed operand keeps its element type; a plain
number takes the other operand's type as far as its kind allows; anything else is read as an array.
-/

namespace Backprop

inductive Operand where
  | typed (a : TypedArray)
  | whole (n : Int)
  | real (x : Float)
  | complex (z : Complex)
  | texts (t : Tensor Value)
  | values (t : Tensor Value)

namespace Value

def toOperand : Value → Except Error Operand
  | int n => .ok (.whole n)
  | float x => .ok (.real x)
  | complex z => .ok (.complex z)
  | v => do
    match ← v.cells with
    | .elements a => return .typed a
    | .texts t => return .texts t
    | .values t => return .values t

/-- Whether arithmetic with this value is arithmetic on arrays. -/
def isTyped : Value → Bool
  | array _ | scalar _ | objects .. => true
  | _ => false

/-- Whether a value is a single number, typed or plain. -/
def isPoint : Value → Bool
  | bool _ | int _ | float _ | complex _ | scalar _ => true
  | _ => false

end Value

namespace ElementType

/-- The type in which elements of this type meet a plain whole number. -/
def withWhole : ElementType → ElementType
  | .bool => .int64
  | t => t

/-- The type in which elements of this type meet a plain real number. -/
def withReal : ElementType → ElementType
  | .bool | .int _ | .uint _ => .float64
  | t => t

/-- The type in which elements of this type meet a plain complex number. -/
def withComplex : ElementType → ElementType
  | .bool | .int _ | .uint _ => .complex128
  | .float p | .complex p => .complex (.ofComplex p)

end ElementType

namespace Operand

def shape : Operand → Shape
  | typed a => a.shape
  | texts t | values t => t.shape
  | whole _ | real _ | complex _ => []

def isTexts : Operand → Bool
  | texts _ => true
  | _ => false

def isValues : Operand → Bool
  | values _ => true
  | _ => false

/-- The element type of an operation on two operands, at least one of which is typed. -/
def common : Operand → Operand → ElementType
  | typed a, typed b => a.elementType.join b.elementType
  | typed a, whole _ | whole _, typed a => a.elementType.withWhole
  | typed a, real _ | real _, typed a => a.elementType.withReal
  | typed a, complex _ | complex _, typed a => a.elementType.withComplex
  | _, _ => .complex128

/-- The operand's entries in the given type. A plain whole number must be within its range. -/
def convertTo (t : ElementType) : Operand → Except Error (Tensor t.Carrier)
  | typed a => .ok (a.convertTo t)
  | whole n => if t.holds n then .ok (.single (t.ofInt n)) else .error .overflow
  | real x => .ok (.single (t.ofFloat x))
  | complex z => .ok (.single (t.ofComplex z))
  | texts _ | values _ => .error .operandType

/-- Whether a plain whole number is within the range of a type. Any number will do for a machine word,
which takes part by way of doubles if it has to. -/
def isWithin (t : ElementType) : Operand → Bool
  | whole n => t = .int64 || t.holds n
  | _ => true

/-- The operand's entries as values. -/
def toValues : Operand → Tensor Value
  | typed a => a.entries.map a.elementType.plain
  | whole n => .single (.int n)
  | real x => .single (.float x)
  | complex z => .single (.complex z)
  | texts t | values t => t

end Operand

end Backprop
