import Backprop.Number.Complex
/-!
Element types of arrays: truth values, signed and unsigned integers of fixed width, and real and
complex floating-point numbers. `ElementType.join` is the least type that both operands of an
operation are brought to.
-/

namespace Backprop

/-- Widths of integer elements. -/
inductive Width where
  | w8 | w16 | w32 | w64
deriving DecidableEq, Repr

/-- Precisions of floating-point elements. -/
inductive Precision where
  | half | single | double
deriving DecidableEq, Repr

inductive ElementType where
  | bool
  | int (w : Width)
  | uint (w : Width)
  | float (p : Precision)
  | complex (p : Precision)
deriving DecidableEq, Repr

namespace Width

def bits : Width → Nat
  | w8 => 8
  | w16 => 16
  | w32 => 32
  | w64 => 64

def max (a b : Width) : Width := if a.bits ≤ b.bits then b else a

/-- The next larger width, if there is one. -/
def wider? : Width → Option Width
  | w8 => some w16
  | w16 => some w32
  | w32 => some w64
  | w64 => none

end Width

namespace Precision

def rank : Precision → Nat
  | half => 0
  | single => 1
  | double => 2

def max (a b : Precision) : Precision := if a.rank ≤ b.rank then b else a

/-- The least precision that keeps whole numbers of this width apart well enough to compute with. -/
def ofWidth : Width → Precision
  | .w8 => half
  | .w16 => single
  | .w32 | .w64 => double

/-- Complex numbers start at single precision. -/
def ofComplex (p : Precision) : Precision := max single p

def bytes : Precision → Nat
  | half => 2
  | single => 4
  | double => 8

end Precision

namespace ElementType

/-- What an element of this type is. Integers are machine words; floating-point elements are held
as doubles that are representable in their precision. -/
abbrev Carrier : ElementType → Type
  | .bool => Bool
  | .int w => BitVec w.bits
  | .uint w => BitVec w.bits
  | .float _ => Float
  | .complex _ => Complex

def int64 : ElementType := .int .w64
def float64 : ElementType := .float .double
def complex128 : ElementType := .complex .double

/-- Bytes that one element occupies. -/
def bytes : ElementType → Nat
  | .bool => 1
  | .int w | .uint w => w.bits / 8
  | .float p => p.bytes
  | .complex p => 2 * p.bytes

/-- The precision an element type has as a floating-point operand. -/
def precision : ElementType → Precision
  | .bool => .half
  | .int w | .uint w => .ofWidth w
  | .float p | .complex p => p

/-- The least signed type that holds both a signed and an unsigned type, a double if none does. -/
def joinSigns (signed unsigned : Width) : ElementType :=
  if unsigned.bits < signed.bits then .int signed
  else match unsigned.wider? with
    | some w => .int w
    | none => .float .double

/-- The least element type that both operands convert to. -/
def join : ElementType → ElementType → ElementType
  | .bool, b => b
  | a, .bool => a
  | .int v, .int w => .int (v.max w)
  | .uint v, .uint w => .uint (v.max w)
  | .int v, .uint w => joinSigns v w
  | .uint v, .int w => joinSigns w v
  | .complex p, b => .complex (p.max (.ofComplex b.precision))
  | a, .complex p => .complex (p.max (.ofComplex a.precision))
  | .float p, b => .float (p.max b.precision)
  | a, .float p => .float (p.max a.precision)

/-- The type in which elements of this type are summed: small integers are widened. -/
def accumulator : ElementType → ElementType
  | .bool => int64
  | .int _ => int64
  | .uint _ => .uint .w64
  | t => t

/-- The type of a real function's results on elements of this type. -/
def inexact : ElementType → ElementType
  | .complex p => .complex p
  | t => .float t.precision

/-- The type of a quotient of elements of this type: whole numbers give doubles. -/
def quotient : ElementType → ElementType
  | .bool | .int _ | .uint _ => float64
  | t => t

end ElementType

end Backprop
