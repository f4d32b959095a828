import Backprop.Error
/-!
Arithmetic on plain numbers: whole numbers without bounds, doubles and complex numbers. The operand
of the lesser kind is converted to the other's; truth values count as zero and one. A quotient is
never whole, division by zero and results that leave the range of doubles by a power are errors.
-/

namespace Backprop

inductive Number where
  | int (n : Int)
  | float (x : Float)
  | complex (z : Complex)

namespace Number

def toValue : Number → Value
  | int n => .int n
  | float x => .float x
  | complex z => .complex z

/-- A whole number as a double. -/
def floatOfInt (n : Int) : Except Error Float :=
  let x := doubleOfInt n
  if x.isFinite then .ok x else .error .overflow

def toComplex : Number → Except Error Complex
  | int n => (floatOfInt n).map .ofReal
  | float x => .ok (.ofReal x)
  | complex z => .ok z

/-- Both operands in the greater of their two kinds. -/
inductive Pair where
  | int (m n : Int)
  | float (x y : Float)
  | complex (z w : Complex)

def pair : Number → Number → Except Error Pair
  | int m, int n => .ok (.int m n)
  | float x, float y => .ok (.float x y)
  | int m, float y => (floatOfInt m).map fun x => .float x y
  | float x, int n => (floatOfInt n).map fun y => .float x y
  | a, b => do return .complex (← a.toComplex) (← b.toComplex)

def add (a b : Number) : Except Error Number := do
  match ← pair a b with
  | .int m n => return int (m + n)
  | .float x y => return float (x + y)
  | .complex z w => return complex (z.add id w)

def sub (a b : Number) : Except Error Number := do
  match ← pair a b with
  | .int m n => return int (m - n)
  | .float x y => return float (x - y)
  | .complex z w => return complex (z.sub id w)

def mul (a b : Number) : Except Error Number := do
  match ← pair a b with
  | .int m n => return int (m * n)
  | .float x y => return float (x * y)
  | .complex z w => return complex (z.mul id w)

/-- The quotient of whole numbers is the double nearest to the exact quotient. -/
def div (a b : Number) : Except Error Number := do
  match ← pair a b with
  | .int m n =>
    if n = 0 then throw .divisionByZero
    let q := doubleOfQuotient ((m < 0) != (n < 0)) m.natAbs n.natAbs
    if q.isFinite then return float q else throw .overflow
  | .float x y => if y == 0 then throw .divisionByZero else return float (x / y)
  | .complex z w => if w.isZero then throw .divisionByZero else return complex (z.quotient w)

/-- A power of complex numbers. One that vanishes has no reciprocal, and an infinite angle has no
direction; both are reported like a division by zero. -/
def complexPow (z w : Complex) : Except Error Number := do
  if z.isZero && !w.isZero && (w.im != 0 || w.re < 0) then throw .divisionByZero
  let p ←
    match Complex.smallExponent? 100 w with
    | some n =>
      let p := z.powNat n.natAbs
      if 0 ≤ n then pure p
      else if p.isZero then throw .divisionByZero
      else pure (Complex.quotient ⟨1, 0⟩ p)
    | none =>
      if z.isZero then pure ⟨0, 0⟩
      else
        let (size, angle) := Complex.powPolar z w
        if angle.isInf then throw .divisionByZero else pure (.ofPolar size angle)
  if p.re.isInf || p.im.isInf then throw .overflow
  return complex p

/-- A power of doubles: complex for a negative base with a fractional exponent. -/
def floatPow (x y : Float) : Except Error Number := do
  if x == 0 && y < 0 && y.isFinite then throw .divisionByZero
  if x < 0 && x.isFinite && y.isFinite && y != y.floor then complexPow (.ofReal x) (.ofReal y)
  else
    let p := Float.pow x y
    if p.isInf && x.isFinite && y.isFinite then throw .overflow
    return float p

/-- A whole power of a whole number is whole when the exponent is not negative. -/
def pow (a b : Number) : Except Error Number := do
  match ← pair a b with
  | .int m n =>
    if 0 ≤ n then return int (Int.pow m n.toNat)
    else floatPow (← floatOfInt m) (← floatOfInt n)
  | .float x y => floatPow x y
  | .complex z w => complexPow z w

def neg : Number → Number
  | int n => int (-n)
  | float x => float (-x)
  | complex z => complex z.neg

/-- The magnitude; that of a complex number must be within the range of doubles. -/
def abs : Number → Except Error Number
  | int n => .ok (int n.natAbs)
  | float x => .ok (float x.abs)
  | complex z =>
    if z.abs.isInf && z.re.isFinite && z.im.isFinite then .error .overflow
    else .ok (float z.abs)

/-- Whether a number is above zero; complex numbers are not ordered. -/
def isPositive : Number → Except Error Bool
  | int n => .ok (0 < n)
  | float x => .ok (0 < x)
  | complex _ => .error .operandType

/-- Whether a number is below zero. -/
def isNegative : Number → Except Error Bool
  | int n => .ok (n < 0)
  | float x => .ok (x < 0)
  | complex _ => .error .operandType

end Number

/-- The number that a plain value stands for. -/
def Value.number? : Value → Option Number
  | .bool b => some (.int (if b then 1 else 0))
  | .int n => some (.int n)
  | .float x => some (.float x)
  | .complex z => some (.complex z)
  | _ => Option.none

/-- Whether a value counts as true: nothing, zero and what is empty do not. An array counts as its only
entry. -/
def Value.truth : Value → Except Error Bool
  | .none => .ok false
  | .bool b => .ok b
  | .int n => .ok (n != 0)
  | .float x => .ok (x != 0)
  | .complex z => .ok !z.isZero
  | .text s => .ok (s != "")
  | .bytes l => .ok !l.isEmpty
  | .list l | .tuple l => .ok !l.isEmpty
  | .dict l => .ok !l.isEmpty
  | .scalar s => .ok (s.elementType.isTrue s.entry)
  | .array a =>
    match a.entries.toList with
    | [x] => .ok (a.elementType.isTrue x)
    | _ => .error .badValue
  | .objects _ [v] => v.truth
  | .objects _ _ => .error .badValue
  | .slice .. | .ellipsis | .node _ | .foreign _ => .ok true

end Backprop
