/-!
Binary floating-point formats. A finite number is a whole number of units, and a unit is a power
of two. A quotient is rounded to the nearest representable number, a tie to the even one.

* `BinaryFormat.round` gives the units and the unit's exponent of the rounded quotient.
* `Parts.ofFloat?` takes a double apart, and `doubleOfQuotient` puts the nearest one together.
-/

namespace Backprop

/-- The quotient rounded to the nearest natural number, a tie to the even one. -/
def roundDiv (num den : Nat) : Nat :=
  let q := num / den
  let r := num % den
  if 2 * r < den then q
  else if den < 2 * r then q + 1
  else q + q % 2

/-- A format of `digits` significant bits whose least unit is `2 ^ least`, and in which every
magnitude from `2 ^ limit` on is infinite. -/
structure BinaryFormat where
  digits : Nat
  least : Int
  limit : Int

namespace BinaryFormat

def half : BinaryFormat := ⟨11, -24, 16⟩
def single : BinaryFormat := ⟨24, -149, 128⟩
def double : BinaryFormat := ⟨53, -1074, 1024⟩

/-- The exponent of the unit in which `num / den` is measured. -/
def unitExponent (f : BinaryFormat) (num den : Nat) : Int :=
  let k : Int := (num.log2 : Int) - (den.log2 : Int)
  -- the quotient lies in `[2 ^ (k - 1), 2 ^ (k + 1))`
  let below := if 0 ≤ k then num < den <<< k.toNat else num <<< (-k).toNat < den
  let top := if below then k - 1 else k
  max (top - (f.digits - 1 : Nat)) f.least

/-- The units and the exponent of the unit nearest to `num / den`. -/
def round (f : BinaryFormat) (num den : Nat) : Nat × Int :=
  if num = 0 then (0, f.least)
  else
    let e := f.unitExponent num den
    if 0 ≤ e then (roundDiv num (den <<< e.toNat), e)
    else (roundDiv (num <<< (-e).toNat) den, e)

end BinaryFormat

/-- A finite number as sign, units and exponent of the unit. -/
structure Parts where
  negative : Bool
  units : Nat
  exponent : Int

/-- The parts of a finite double; infinities and NaN have none. -/
def Parts.ofFloat? (x : Float) : Option Parts :=
  let bits : Nat := x.toBits.toNat
  let field : Nat := (bits >>> 52) % 2048
  let low : Nat := bits % (1 <<< 52)
  let negative := bits >>> 63 == 1
  if field = 2047 then none
  else if field = 0 then some ⟨negative, low, -1074⟩
  else some ⟨negative, low + (1 <<< 52), (field : Int) - 1075⟩

/-- The magnitude as a quotient of natural numbers. -/
def Parts.quotient (p : Parts) : Nat × Nat :=
  if 0 ≤ p.exponent then (p.units <<< p.exponent.toNat, 1)
  else (p.units, 1 <<< (-p.exponent).toNat)

/-- The double whose exponent field and fraction, read as one number, are `magnitude`. -/
def signedDouble (negative : Bool) (magnitude : Nat) : Float :=
  Float.ofBits (.ofNat (magnitude + if negative then (1 <<< 63) else 0))

def infinity (negative : Bool) : Float := signedDouble negative (2047 <<< 52)

/-- The double with this sign nearest to `num / den`. -/
def doubleOfQuotient (negative : Bool) (num den : Nat) : Float :=
  let (m, e) := BinaryFormat.double.round num den
  -- with the units of a normal number, their leading bit carries into the exponent field
  signedDouble negative (min (((e + 1074).toNat <<< 52) + m) (2047 <<< 52))

/-- The double nearest to an integer, infinite when out of range. -/
def doubleOfInt (n : Int) : Float := doubleOfQuotient (n < 0) n.natAbs 1

/-- The nearest number of a format that a double holds. -/
def BinaryFormat.nearest (f : BinaryFormat) (x : Float) : Float :=
  match Parts.ofFloat? x with
  | none => x
  | some p =>
    let (num, den) := p.quotient
    let (m, e) := f.round num den
    let rounded : Parts := ⟨p.negative, m, e⟩
    let (num', den') := rounded.quotient
    let limit := 1 <<< f.limit.toNat
    if num' < limit * den' then doubleOfQuotient p.negative num' den'
    else infinity p.negative

end Backprop
