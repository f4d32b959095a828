import Backprop.Number.Binary
/-!
The shortest decimal text of a floating-point number: the fewest digits that round back to it, and
of those the nearest. `Decimal.shortest` finds the digits, `floatText` writes them down.
-/

namespace Backprop

/-- The decimal number `digits * 10 ^ exponent`. -/
structure Decimal where
  digits : Nat
  exponent : Int

namespace Decimal

/-- The least `p` with `num / den < 10 ^ p`, for a positive quotient. -/
def magnitude (num den : Nat) : Int :=
  if den ≤ num then ((Nat.toDigits 10 (num / den)).length : Int)
  else
    let d := (Nat.toDigits 10 (den / num)).length
    if den ≤ num * Nat.pow 10 (d - 1) then 2 - (d : Int) else 1 - (d : Int)

/-- Whether `digits * 10 ^ exponent ≤ num / den`. -/
def le (d : Decimal) (num den : Nat) : Bool :=
  if 0 ≤ d.exponent then d.digits * Nat.pow 10 d.exponent.toNat * den ≤ num
  else d.digits * den ≤ num * Nat.pow 10 (-d.exponent).toNat

/-- Whether `num / den ≤ digits * 10 ^ exponent`. -/
def ge (d : Decimal) (num den : Nat) : Bool :=
  if 0 ≤ d.exponent then num ≤ d.digits * Nat.pow 10 d.exponent.toNat * den
  else num * Nat.pow 10 (-d.exponent).toNat ≤ d.digits * den

/-- The quotient divided by a power of ten, rounded down. -/
def floorScaled (num den : Nat) (exponent : Int) : Nat :=
  if 0 ≤ exponent then num / (den * Nat.pow 10 exponent.toNat)
  else num * Nat.pow 10 (-exponent).toNat / den

/-- The quotient divided by a power of ten, rounded to the nearest number, a tie to the even one. -/
def roundScaled (num den : Nat) (exponent : Int) : Nat :=
  if 0 ≤ exponent then roundDiv num (den * Nat.pow 10 exponent.toNat)
  else roundDiv (num * Nat.pow 10 (-exponent).toNat) den

/-- The two quotients halfway to the neighbouring numbers of the format, and the quotient itself
between them, over one denominator. Below a power of two the neighbour is half as far away. -/
def bounds (f : BinaryFormat) (units : Nat) (exponent : Int) : Nat × Nat × Nat × Nat :=
  let low :=
    if units = 1 <<< (f.digits - 1) ∧ f.least < exponent then 4 * units - 1 else 4 * units - 2
  let e := exponent - 2
  if 0 ≤ e then
    let s := e.toNat
    (low <<< s, (4 * units) <<< s, (4 * units + 2) <<< s, 1)
  else (low, 4 * units, 4 * units + 2, 1 <<< (-e).toNat)

/-- The shortest decimal that rounds to `units * 2 ^ exponent`, for positive units: the number of
digits grows until a neighbour of the value on that decimal grid reads back. -/
def shortest (f : BinaryFormat) (units : Nat) (exponent : Int) : Decimal :=
  let (lo, v, hi, den) := bounds f units exponent
  let p := magnitude v den
  let readsBack (d : Decimal) : Bool :=
    if units % 2 = 0 then d.ge lo den && d.le hi den
    else !d.le lo den && !d.ge hi den
  let candidate (k : Nat) : Option Decimal :=
    let e := p - k
    let near : Decimal := ⟨roundScaled v den e, e⟩
    let down : Decimal := ⟨floorScaled v den e, e⟩
    let up : Decimal := ⟨floorScaled v den e + 1, e⟩
    if readsBack near then some near
    else if readsBack down then some down
    else if readsBack up then some up
    else none
  ((List.range 17).findSome? fun k => candidate (k + 1)).getD ⟨roundScaled v den (p - 17), p - 17⟩

end Decimal

/-- Decimal digits of an exponent, at least two. -/
def exponentDigits (n : Nat) : String := if n < 10 then s!"0{n}" else toString n

/-- The text of a number of this format: positional from `1e-4` up to below `1e16`, always with a
point there, and with an exponent outside that range. -/
def floatTextIn (f : BinaryFormat) (x : Float) : String :=
  match Parts.ofFloat? x with
  | none => if x.isNaN then "nan" else if x < 0 then "-inf" else "inf"
  | some p =>
    let sign := if p.negative then "-" else ""
    if p.units = 0 then sign ++ "0.0"
    else
      let (num, den) := p.quotient
      let (units, exponent) := f.round num den
      let d := Decimal.shortest f units exponent
      let ds := Nat.toDigits 10 d.digits
      -- trailing zeros carry no information; the point is restored below
      let kept := (ds.reverse.dropWhile (· == '0')).reverse
      let point : Int := (ds.length : Int) + d.exponent
      let body :=
        if -4 < point ∧ point ≤ 16 then
          if point ≤ 0 then
            "0." ++ String.ofList (List.replicate (-point).toNat '0' ++ kept)
          else
            let n := point.toNat
            let whole := (kept ++ List.replicate (n - kept.length) '0').take n
            let rest := kept.drop n
            String.ofList whole ++ "." ++ (if rest.isEmpty then "0" else String.ofList rest)
        else
          let tail := kept.drop 1
          let e := point - 1
          String.ofList (kept.take 1) ++ (if tail.isEmpty then "" else "." ++ String.ofList tail)
            ++ "e" ++ (if e < 0 then "-" else "+") ++ exponentDigits e.natAbs
      sign ++ body

def floatText : Float → String := floatTextIn .double

end Backprop
