import Backprop.Number.Fused
/-!
Complex numbers in rectangular form. Operations take the rounding `r` that follows every
elementary step, so one definition serves both precisions.
-/

namespace Backprop

structure Complex where
  re : Float
  im : Float

namespace Complex

def ofReal (x : Float) : Complex := ⟨x, 0⟩

def isZero (z : Complex) : Bool := z.re == 0 && z.im == 0

def neg (z : Complex) : Complex := ⟨-z.re, -z.im⟩

def map (f : Float → Float) (z : Complex) : Complex := ⟨f z.re, f z.im⟩

variable (r : Float → Float)

def add (a b : Complex) : Complex := ⟨r (a.re + b.re), r (a.im + b.im)⟩

def sub (a b : Complex) : Complex := ⟨r (a.re - b.re), r (a.im - b.im)⟩

def mul (a b : Complex) : Complex :=
  ⟨r (r (a.re * b.re) - r (a.im * b.im)), r (r (a.re * b.im) + r (a.im * b.re))⟩

/-- The product with one rounding less in each part: the second product of a part is rounded, and the
first is added to it as it is. -/
def mulFused (a b : Complex) : Complex :=
  ⟨r (fusedMulAdd a.re b.re (-r (a.im * b.im))), r (fusedMulAdd a.re b.im (r (a.im * b.re)))⟩

/-- The quotient, scaled by the larger part of the divisor so that no square overflows. A zero
divisor divides each part by the sum of its two magnitudes. -/
def div (a b : Complex) : Complex :=
  if b.im.abs <= b.re.abs then
    if b.re == 0 && b.im == 0 then ⟨r (a.re / b.re.abs), r (a.im / b.re.abs)⟩
    else
      let ratio := r (b.im / b.re)
      let scale := r (1 / r (b.re + r (b.im * ratio)))
      ⟨r (r (a.re + r (a.im * ratio)) * scale), r (r (a.im - r (a.re * ratio)) * scale)⟩
  else
    let ratio := r (b.re / b.im)
    let scale := r (1 / r (b.im + r (b.re * ratio)))
    ⟨r (r (r (a.re * ratio) + a.im) * scale), r (r (r (a.im * ratio) - a.re) * scale)⟩

/-- The reciprocal, scaled like a quotient. -/
def reciprocal (a : Complex) : Complex :=
  if a.im.abs <= a.re.abs then
    let ratio := r (a.im / a.re)
    let den := r (a.re + r (a.im * ratio))
    ⟨r (1 / den), r (-ratio / den)⟩
  else
    let ratio := r (a.re / a.im)
    let den := r (r (a.re * ratio) + a.im)
    ⟨r (ratio / den), r (-1 / den)⟩

/-- The quotient by a nonzero divisor, dividing by the scaled divisor itself and not multiplying
by its reciprocal. -/
def quotient (a b : Complex) : Complex :=
  if b.im.abs <= b.re.abs then
    let ratio := b.im / b.re
    let den := b.re + b.im * ratio
    ⟨(a.re + a.im * ratio) / den, (a.im - a.re * ratio) / den⟩
  else if b.re.abs <= b.im.abs then
    let ratio := b.re / b.im
    let den := b.re * ratio + b.im
    ⟨(a.re * ratio + a.im) / den, (a.im * ratio - a.re) / den⟩
  else ⟨0.0 / 0.0, 0.0 / 0.0⟩

/-- The absolute value, computed without overflow of the squares. -/
def abs (z : Complex) : Float :=
  let a := z.re.abs
  let b := z.im.abs
  if a.isInf || b.isInf then 1.0 / 0.0
  else
    let big := if a < b then b else a
    let small := if a < b then a else b
    if big == 0 then big + small
    else big * Float.sqrt (1 + (small / big) * (small / big))

/-- The power by repeated squaring, from the lowest bit of the exponent. -/
def powNat (z : Complex) (n : Nat) : Complex :=
  go (Nat.log2 n + 1) n z ⟨1, 0⟩
where
  go : Nat → Nat → Complex → Complex → Complex
    | 0, _, _, acc => acc
    | steps + 1, n, square, acc =>
      let acc := if n % 2 = 1 then acc.mul id square else acc
      go steps (n / 2) (square.mul id square) acc

/-- The number of this absolute value and argument. -/
def ofPolar (size angle : Float) : Complex := ⟨size * angle.cos, size * angle.sin⟩

/-- The absolute value and the argument of a power. -/
def powPolar (a b : Complex) : Float × Float :=
  let size := a.abs
  let angle := Float.atan2 a.im a.re
  let power := Float.pow size b.re
  let phase := angle * b.re
  if b.im == 0 then (power, phase)
  else (power / Float.exp (angle * b.im), phase + b.im * Float.log size)

/-- An exponent is small when it is a real whole number of magnitude at most `bound`. -/
def smallExponent? (bound : Float) (b : Complex) : Option Int :=
  if b.im == 0 && b.re == b.re.floor && b.re.abs <= bound then
    let n : Nat := b.re.abs.toUInt64.toNat
    some (if b.re < 0 then -(n : Int) else n)
  else none

/-- The number of absolute value one in the same direction, and zero at zero. An infinite number lies
in the direction of its infinite part. -/
def sign (z : Complex) : Complex :=
  let size := z.abs
  if size.isNaN then ⟨size, size⟩
  else if size.isInf then
    if z.re.isInf then
      if z.im.isInf then ⟨0.0 / 0.0, 0.0 / 0.0⟩ else ⟨if 0 < z.re then 1 else -1, 0⟩
    else ⟨0, if 0 < z.im then 1 else -1⟩
  else if size == 0 then ⟨0, 0⟩
  else ⟨z.re / size, z.im / size⟩

/-- Larger real part, or equal real parts and larger imaginary part. A larger real part does not
count beside an undefined imaginary part. -/
def gt (a b : Complex) : Bool :=
  (b.re < a.re && !a.im.isNaN && !b.im.isNaN) || (a.re == b.re && b.im < a.im)

end Complex

end Backprop
