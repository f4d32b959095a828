import Backprop.Element.Type
import Backprop.Number.ComplexFunction
/-!
Arithmetic on single elements. Machine words wrap around, floating-point results are rounded to
the precision of their type, and truth values add by disjunction and multiply by conjunction. An
operation that an element type does not have is `none`.
-/

namespace Backprop

namespace Precision

def format : Precision → BinaryFormat
  | half => .half
  | single => .single
  | double => .double

/-- The nearest number of this precision. -/
def round : Precision → Float → Float
  | double, x => x
  | p, x => p.format.nearest x

end Precision

namespace ElementType

instance : (t : ElementType) → Inhabited t.Carrier
  | .bool => ⟨false⟩
  | .int _ => ⟨0⟩
  | .uint _ => ⟨0⟩
  | .float _ => ⟨0⟩
  | .complex _ => ⟨⟨0, 0⟩⟩

def zero : (t : ElementType) → t.Carrier
  | .bool => false
  | .int _ => 0
  | .uint _ => 0
  | .float _ => 0
  | .complex _ => ⟨0, 0⟩

/-- A whole number as an element; words keep its low bits. -/
def ofInt : (t : ElementType) → Int → t.Carrier
  | .bool, n => n != 0
  | .int w, n => BitVec.ofInt w.bits n
  | .uint w, n => BitVec.ofInt w.bits n
  | .float p, n => p.round (doubleOfInt n)
  | .complex p, n => .ofReal (p.round (doubleOfInt n))

/-- The whole number an element stands for, if its type holds whole numbers only. -/
def toInt? : (t : ElementType) → t.Carrier → Option Int
  | .bool, b => some (if b then 1 else 0)
  | .int _, n => some n.toInt
  | .uint _, n => some (n.toNat : Int)
  | .float _, _ => none
  | .complex _, _ => none

/-- Whether a whole number can be held exactly or, by a floating-point type, rounded. -/
def holds (t : ElementType) (n : Int) : Bool :=
  match t with
  | .bool => n == 0 || n == 1
  | .int w => -Int.pow 2 (w.bits - 1) ≤ n && n < Int.pow 2 (w.bits - 1)
  | .uint w => 0 ≤ n && n < Int.pow 2 w.bits
  | .float _ | .complex _ => (doubleOfInt n).isFinite

/-- A real number as an element of a floating-point type. -/
def ofFloat : (t : ElementType) → Float → t.Carrier
  | .bool, x => x != 0
  | .int w, x => BitVec.ofInt w.bits x.toInt64.toInt
  | .uint w, x => BitVec.ofInt w.bits x.toInt64.toInt
  | .float p, x => p.round x
  | .complex p, x => .ofReal (p.round x)

/-- A complex number as an element; a real type keeps its real part. -/
def ofComplex : (t : ElementType) → Complex → t.Carrier
  | .complex p, z => z.map p.round
  | t, z => t.ofFloat z.re

/-- An element as an element of another type. -/
def convert : (source target : ElementType) → source.Carrier → target.Carrier
  | .bool, t, b => t.ofInt (if b then 1 else 0)
  | .int _, t, n => t.ofInt n.toInt
  | .uint _, t, n => t.ofInt n.toNat
  | .float _, t, x => t.ofFloat x
  | .complex _, t, z => t.ofComplex z

def add : (t : ElementType) → t.Carrier → t.Carrier → t.Carrier
  | .bool, a, b => a || b
  | .int _, a, b => a + b
  | .uint _, a, b => a + b
  | .float p, a, b => p.round (a + b)
  | .complex p, a, b => a.add p.round b

def sub? : (t : ElementType) → Option (t.Carrier → t.Carrier → t.Carrier)
  | .bool => none
  | .int _ => some fun a b => a - b
  | .uint _ => some fun a b => a - b
  | .float p => some fun a b => p.round (a - b)
  | .complex p => some fun a b => a.sub p.round b

def mul : (t : ElementType) → t.Carrier → t.Carrier → t.Carrier
  | .bool, a, b => a && b
  | .int _, a, b => a * b
  | .uint _, a, b => a * b
  | .float p, a, b => p.round (a * b)
  | .complex p, a, b => a.mul p.round b

/-- Product as it is taken along arrays: complex products have one rounding less there. -/
def arrayMul : (t : ElementType) → t.Carrier → t.Carrier → t.Carrier
  | .complex p, a, b => a.mulFused p.round b
  | t, a, b => t.mul a b

/-- Quotient of floating-point elements; other types are converted first. -/
def div? : (t : ElementType) → Option (t.Carrier → t.Carrier → t.Carrier)
  | .bool => none
  | .int _ => none
  | .uint _ => none
  | .float p => some fun a b => p.round (a / b)
  | .complex p => some fun a b => a.div p.round b

/-- The power of a word by repeated squaring. -/
def wordPower {n : Nat} (x : BitVec n) (k : Nat) : BitVec n :=
  if k = 0 then 1
  else
    let h := wordPower (x * x) (k / 2)
    if k % 2 = 1 then x * h else h
termination_by k

/-- Power of elements. Words are raised to exponents that are not negative; truth values are
converted first. -/
def pow? : (t : ElementType) → Option (t.Carrier → t.Carrier → t.Carrier)
  | .bool => none
  | .int _ => some fun a b => wordPower a b.toNat
  | .uint _ => some fun a b => wordPower a b.toNat
  | .float p => some fun a b => p.round (Float.pow a b)
  | .complex p => some fun a b => (a.pow b).map p.round

/-- Power with an exponent that stays the same along an array: simple exponents are taken by simpler
operations, which differ from a power at negative zero and negative infinity. -/
def steadyPow? : (t : ElementType) → Option (t.Carrier → t.Carrier → t.Carrier)
  | .float .half => pow? (.float .half)
  | .float p => some fun a b =>
    p.round <|
      if b == -1 then 1 / a
      else if b == 0 then 1
      else if b == 0.5 then a.sqrt
      else if b == 1 then a
      else if b == 2 then a * a
      else Float.pow a b
  | t => t.pow?

/-- Whether a power with this exponent stays within the type. -/
def isExponent : (t : ElementType) → t.Carrier → Bool
  | .int _, b => 0 ≤ b.toInt
  | _, _ => true

def neg? : (t : ElementType) → Option (t.Carrier → t.Carrier)
  | .bool => none
  | .int _ => some fun a => -a
  | .uint _ => some fun a => -a
  | .float _ => some fun a => -a
  | .complex _ => some Complex.neg

/-- The sign as an element: minus one, zero or one, and NaN for NaN. -/
def floatSign (x : Float) : Float :=
  if x.isNaN then x else if 0 < x then 1 else if x < 0 then -1 else 0

def sign? : (t : ElementType) → Option (t.Carrier → t.Carrier)
  | .bool => none
  | .int w => some fun a => BitVec.ofInt w.bits a.toInt.sign
  | .uint _ => some fun a => if a = 0 then 0 else 1
  | .float _ => some floatSign
  | .complex p => some fun a => a.sign.map p.round

def isPositive : (t : ElementType) → t.Carrier → Bool
  | .bool, a => a
  | .int _, a => 0 < a.toInt
  | .uint _, a => a != 0
  | .float _, a => 0 < a
  | .complex _, a => a.gt ⟨0, 0⟩

def isNegative : (t : ElementType) → t.Carrier → Bool
  | .bool, _ => false
  | .int _, a => a.toInt < 0
  | .uint _, _ => false
  | .float _, a => a < 0
  | .complex _, a => Complex.gt ⟨0, 0⟩ a

/-- Whether an element counts as true. -/
def isTrue : (t : ElementType) → t.Carrier → Bool
  | .bool, a => a
  | .int _, a => a != 0
  | .uint _, a => a != 0
  | .float _, a => a != 0
  | .complex _, a => !a.isZero

end ElementType

end Backprop
