import Backprop.Number.Complex
/-!
Functions of complex numbers. Each keeps clear of overflow and cancellation in between, and has a
value at the infinities wherever a limit exists, with the signs of zeros kept. Where the real part
settles the result, an undefined imaginary part does not spoil it.

* `Complex.exp` and `Complex.log` carry `Complex.pow` beyond small whole exponents.
-/

namespace Backprop

namespace Complex

def largestDouble : Float := 1.7976931348623157e308
def leastNormal : Float := 2.2250738585072014e-308
def roundingUnit : Float := 2.220446049250313e-16
def undefined : Float := 0.0 / 0.0
def unbounded : Float := 1.0 / 0.0

def isNegative (x : Float) : Bool := !x.isNaN && x.toBits >>> 63 == 1

/-- The magnitude of `x` with the sign of `y`. A number without a sign counts as positive. -/
def withSign (x y : Float) : Float := if isNegative y then -x.abs else x.abs

/-- Sine and cosine, the least magnitudes standing for their own sine. -/
def sineCosine (x : Float) : Float × Float :=
  if leastNormal < x.abs then (x.sin, x.cos) else (x, 1)

/-- The exponential of a finite number. A large real part is brought in by steps, so that a small
sine or cosine keeps the result within range. -/
def expFinite (z : Complex) : Complex :=
  let step := 709.0
  let scale := Float.exp step
  let (s, c) := sineCosine z.im
  let once := step < z.re
  let s := if once then s * scale else s
  let c := if once then c * scale else c
  let re := if once then z.re - step else z.re
  let twice := step < re
  let s := if twice then s * scale else s
  let c := if twice then c * scale else c
  let re := if twice then re - step else re
  let m := if step < re then largestDouble else Float.exp re
  ⟨m * c, m * s⟩

/-- The exponential. Where it vanishes with an undefined angle, the sign of the imaginary zero is
that of `angleSign`. -/
def expSigned (angleSign : Float) (z : Complex) : Complex :=
  if z.re.isNaN then ⟨undefined, if z.im == 0 then z.im else undefined⟩
  else if z.re.isInf then
    let size := if z.re < 0 then 0 else unbounded
    if z.im == 0 then ⟨size, z.im⟩
    else if z.im.isFinite then
      let (s, c) := sineCosine z.im
      ⟨withSign size c, withSign size s⟩
    else if z.re < 0 then ⟨0, withSign 0 (if z.im.isNaN then angleSign else z.im)⟩
    else ⟨size, undefined⟩
  else if z.im.isFinite then expFinite z
  else ⟨undefined, undefined⟩

def exp (z : Complex) : Complex := expSigned 0 z

/-- The logarithm of `1 + x`, accurate for small `x`. -/
def logOnePlus (x : Float) : Float :=
  let u := 1 + x
  if u == 1 then x else u.log * (x / (u - 1))

/-- The logarithm of the absolute value of a number with parts of magnitude `x` and `y ≤ x`. Near
absolute value one it is taken from how far the square is from one. -/
def logSize (x y : Float) : Float :=
  let ln2 := 0.6931471805599453
  if largestDouble / 2 < x then (abs ⟨x / 2, y / 2⟩).log + ln2
  else if x < leastNormal && y < leastNormal then
    (abs ⟨x * 9007199254740992.0, y * 9007199254740992.0⟩).log - 53 * ln2
  else if x == 1 then logOnePlus (y * y) / 2
  else if 1 < x && x < 2 && y < 1 then
    let d := (x - 1) * (x + 1)
    logOnePlus (if roundingUnit <= y then d + y * y else d) / 2
  else if x < 1 && 0.5 <= x && y < roundingUnit / 2 then logOnePlus ((x - 1) * (x + 1)) / 2
  else if x < 1 && 0.5 <= x && 0.5 <= x * x + y * y then logOnePlus (squaresLessOne x y) / 2
  else (abs ⟨x, y⟩).log

/-- The logarithm: that of the absolute value, and the angle. -/
def log (z : Complex) : Complex :=
  let x := z.re.abs
  let y := z.im.abs
  if z.re.isNaN || z.im.isNaN then
    ⟨if x.isInf || y.isInf then unbounded else undefined, undefined⟩
  else
    let angle := Float.atan2 z.im z.re
    if z.isZero then ⟨-unbounded, angle⟩
    else ⟨if x < y then logSize y x else logSize x y, angle⟩

/-- The square root in the right half-plane of a number whose parts are finite and not zero. Numbers
near the ends of the range are brought in by a factor of four or more first. -/
def sqrtFinite (z : Complex) : Complex :=
  let quarter := largestDouble / 4
  let x := z.re.abs
  let y := z.im.abs
  let large := quarter < x || quarter < y
  let small := x < 2 * leastNormal && y < 2 * leastNormal
  let factor := if large then 0.25 else if small then 18014398509481984.0 else 1
  let back := if large then 2 else if small then 7.450580596923828125e-9 else 1
  let re := if large && x <= quarter && x < 4 * leastNormal then 0 else z.re * factor
  let im := z.im * factor
  let d := abs ⟨re, im⟩
  -- the larger part is a root, and the product of both parts gives the other without cancellation
  let root := Float.sqrt (0.5 * (if 0 < re then d + re else d - re))
  let other := if large && im.abs < 2 then (im / root).abs else (0.5 * (im / root)).abs * back
  let root := root * back
  if 0 < re then ⟨root, withSign other z.im⟩ else ⟨other, withSign root z.im⟩

/-- The square root in the right half-plane. -/
def sqrt (z : Complex) : Complex :=
  if z.im.isInf then ⟨unbounded, z.im⟩
  else if z.re.isInf then
    if z.re < 0 then ⟨if z.im.isNaN then undefined else 0, withSign unbounded z.im⟩
    else ⟨z.re, if z.im.isNaN then undefined else withSign 0 z.im⟩
  else if z.re.isNaN || z.im.isNaN then ⟨undefined, undefined⟩
  else if z.im == 0 then
    if z.re < 0 then ⟨0, withSign (-z.re).sqrt z.im⟩ else ⟨z.re.sqrt.abs, withSign 0 z.im⟩
  else if z.re == 0 then
    let y := z.im.abs
    let root := if 2 * leastNormal <= y then (0.5 * y).sqrt else 0.5 * (2 * y).sqrt
    ⟨root, withSign root z.im⟩
  else sqrtFinite z

/-- The hyperbolic tangent of a finite number. Far from the imaginary axis the real part is one and
the imaginary part fades exponentially. -/
def tanhFinite (z : Complex) : Complex :=
  let far := 354.0
  let (s, c) := sineCosine z.im
  let x := z.re.abs
  if far < x then
    let rest := x - far
    let scale := Float.exp (2 * far)
    ⟨withSign 1 z.re, 4 * s * c / scale / (if far < rest then scale else Float.exp (2 * rest))⟩
  else
    let sh := if leastNormal < x then z.re.sinh else z.re
    let ch := if leastNormal < x then z.re.cosh else 1
    let den := if c.abs * roundingUnit < sh.abs then sh * sh + c * c else c * c
    ⟨sh * ch / den, s * c / den⟩

def tanh (z : Complex) : Complex :=
  if z.re.isFinite && z.im.isFinite then tanhFinite z
  else if z.re.isInf then
    let side :=
      if z.im.isFinite && 1 < z.im.abs then
        let (s, c) := sineCosine z.im
        s * c
      else z.im
    ⟨withSign 1 z.re, withSign 0 side⟩
  else if z.im == 0 then z
  else ⟨if z.re == 0 then z.re else undefined, undefined⟩

/-- The unit with the sign of an infinity, and zero with the sign of another number. -/
def boxed (x : Float) : Float := withSign (if x.isInf then 1 else 0) x

/-- Zero in place of an undefined number. -/
def settled (x : Float) : Float := if x.isNaN then 0 else x

/-- The product, infinite also where both parts come out undefined although a factor, or the product
of two parts, is infinite. -/
def mulUnbounded (a b : Complex) : Complex :=
  let p := a.mul id b
  if p.re.isNaN && p.im.isNaN then
    let infinite (z : Complex) : Bool := z.re.isInf || z.im.isInf
    let crossed := (a.re * b.re).isInf || (a.im * b.im).isInf || (a.re * b.im).isInf
      || (a.im * b.re).isInf
    if infinite a || infinite b then
      let (a₁, b₁) := if infinite a then (a.map boxed, b.map settled) else (a, b)
      let (a₂, b₂) := if infinite b₁ then (a₁.map settled, b₁.map boxed) else (a₁, b₁)
      (a₂.mul id b₂).map (unbounded * ·)
    else if crossed then ((a.map settled).mul id (b.map settled)).map (unbounded * ·)
    else p
  else p

/-- The power as the exponential of a product with the logarithm. -/
def powExponential (a b : Complex) : Complex :=
  let l := a.log
  let known := !(b.re.isNaN || b.im.isNaN || l.re.isNaN || l.im.isNaN)
  -- an angle that is undefined for the first time here counts as negative
  expSigned (if known then -0.0 else 0) (b.mulUnbounded l)

/-- The power, exact in the number of multiplications for small whole exponents. A zero base
yields zero for a positive real part of the exponent and is undefined otherwise. -/
def pow (a b : Complex) : Complex :=
  if b.isZero then ⟨1, 0⟩
  else if a.isZero then
    if 0 < b.re then ⟨0, 0⟩ else ⟨undefined, undefined⟩
  else match smallExponent? 99 b with
    | some 1 => a
    | some 2 => a.mul id a
    | some 3 => a.mul id (a.mul id a)
    | some n =>
      let p := a.powNat n.natAbs
      if n < 0 then div id ⟨1, 0⟩ p else p
    | none => powExponential a b

end Complex

end Backprop
