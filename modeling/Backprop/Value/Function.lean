import Backprop.Value.Arithmetic
/-!
Functions of one value, entry by entry. Whole numbers and truth values are brought to the least
floating-point type that suits their width first, so the results are always typed. Values that are no
elements have a sign only.
-/

namespace Backprop

namespace Value

/-- A function given on real and on complex numbers. -/
structure Elementary where
  real : Float → Float
  complex : Complex → Complex

namespace Elementary

def exp : Elementary := ⟨Float.exp, Complex.exp⟩
def log : Elementary := ⟨Float.log, Complex.log⟩
def sqrt : Elementary := ⟨Float.sqrt, Complex.sqrt⟩
def tanh : Elementary := ⟨Float.tanh, Complex.tanh⟩

/-- The function on elements of a floating-point type; other types are converted first. -/
def onElement (f : Elementary) : (t : ElementType) → t.Carrier → t.Carrier
  | .float p, x => p.round (f.real x)
  | .complex p, z => (f.complex z).map p.round
  | _, x => x

end Elementary

/-- The function of every entry. -/
def applyElementary (f : Elementary) (v : Value) : Except Error Value := do
  match ← v.cells with
  | .elements a =>
    let t := a.elementType.inexact
    return TypedArray.collapse ⟨t, (a.convertTo t).map (f.onElement t)⟩
  | .values t => if t.shape.size = 0 then return objects t.shape [] else throw .operandType
  | .texts _ => throw .operandType

def exp : Value → Except Error Value := applyElementary .exp
def log : Value → Except Error Value := applyElementary .log
def sqrt : Value → Except Error Value := applyElementary .sqrt
def tanh : Value → Except Error Value := applyElementary .tanh

/-- The sign of a number that is ordered with zero. -/
def numberSign : Number → Except Error Int
  | .int n => .ok n.sign
  | .float x =>
    if 0 < x then .ok 1 else if x < 0 then .ok (-1) else if x == 0 then .ok 0
    else .error .operandType
  | .complex _ => .error .operandType

/-- The sign of a value as a plain number. -/
def signOf (v : Value) : Except Error Value := do
  match v.plainNumber? with
  | some n => return int (← numberSign n)
  | Option.none => throw .operandType

/-- The sign of every entry. -/
def sign (v : Value) : Except Error Value := do
  match ← v.cells with
  | .elements a =>
    match a.elementType.sign? with
    | some f => return TypedArray.collapse ⟨a.elementType, a.entries.map f⟩
    | Option.none => throw .operandType
  | .values t => return (Cells.ofValues t.shape (← t.toList.mapM signOf)).collapse
  | .texts _ => throw .operandType

end Value

end Backprop
