import Backprop.Number.Binary
/-!
Sums of products that are rounded once. Doubles are taken apart into whole numbers of units, the sum
is exact, and only the result is brought back to the nearest double.
-/

namespace Backprop

/-- The exact number `units * 2 ^ exponent`. -/
structure Scaled where
  units : Int
  exponent : Int

namespace Scaled

def one : Scaled := ⟨1, 0⟩

def neg (a : Scaled) : Scaled := ⟨-a.units, a.exponent⟩

def mul (a b : Scaled) : Scaled := ⟨a.units * b.units, a.exponent + b.exponent⟩

/-- The units of a number measured in a smaller or equal unit. -/
def unitsAt (a : Scaled) (exponent : Int) : Int :=
  a.units * (1 <<< (a.exponent - exponent).toNat : Nat)

def add (a b : Scaled) : Scaled :=
  let e := min a.exponent b.exponent
  ⟨a.unitsAt e + b.unitsAt e, e⟩

/-- The nearest double. -/
def toFloat (a : Scaled) : Float :=
  if 0 ≤ a.exponent then
    doubleOfQuotient (a.units < 0) (a.units.natAbs <<< a.exponent.toNat) 1
  else doubleOfQuotient (a.units < 0) a.units.natAbs (1 <<< (-a.exponent).toNat)

end Scaled

def Parts.toScaled (p : Parts) : Scaled := ⟨if p.negative then -p.units else p.units, p.exponent⟩

/-- The double nearest to `a * b + c`. -/
def fusedMulAdd (a b c : Float) : Float :=
  match Parts.ofFloat? a, Parts.ofFloat? b, Parts.ofFloat? c with
  | some x, some y, some z =>
    let s := (x.toScaled.mul y.toScaled).add z.toScaled
    -- the sign of an exact zero is that of the plain operations
    if s.units = 0 then a * b + c else s.toFloat
  | some _, some _, none => c
  | _, _, _ => a * b + c

/-- The double nearest to `a * a + b * b - 1`, for finite numbers. -/
def squaresLessOne (a b : Float) : Float :=
  match Parts.ofFloat? a, Parts.ofFloat? b with
  | some x, some y =>
    let x := x.toScaled
    let y := y.toScaled
    (((x.mul x).add (y.mul y)).add Scaled.one.neg).toFloat
  | _, _ => a * a + b * b - 1

end Backprop
