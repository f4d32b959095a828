import Backprop.Number.Decimal
/-!
Decimal text of a fixed precision, and reading decimal text.

* `scientificText` rounds to a number of significant digits, a tie to the even last digit.
* `readDecimal` gives the double nearest to the number that a text denotes.
-/

namespace Backprop

/-- Digits with a point after the first one, and an exponent. -/
def scientificDigits (count : Nat) (digits : Nat) (exponent : Int) : String :=
  let ds := Nat.toDigits 10 digits
  let ds := List.replicate (count - ds.length) '0' ++ ds
  String.ofList (ds.take 1) ++ "." ++ String.ofList (ds.drop 1) ++ "e"
    ++ (if exponent < 0 then "-" else "+") ++ exponentDigits exponent.natAbs

/-- The text of a number with `count` significant digits and an exponent. -/
def scientificText (count : Nat) (x : Float) : String :=
  match Parts.ofFloat? x with
  | none => if x.isNaN then "nan" else if x < 0 then "-inf" else "inf"
  | some p =>
    let body :=
      if p.units = 0 then scientificDigits count 0 0
      else
        let (num, den) := p.quotient
        let e := Decimal.magnitude num den
        let d := Decimal.roundScaled num den (e - count)
        -- rounding up may carry into one more digit
        if d = Nat.pow 10 count then scientificDigits count (Nat.pow 10 (count - 1)) e
        else scientificDigits count d (e - 1)
    (if p.negative then "-" else "") ++ body

/-- The value of decimal digits. -/
def digitsValue (cs : List Char) : Nat := cs.foldl (fun n c => 10 * n + (c.toNat - 48)) 0

/-- A sign, if there is one, and what follows it. -/
def splitSign : List Char → Bool × List Char
  | '-' :: cs => (true, cs)
  | '+' :: cs => (false, cs)
  | cs => (false, cs)

/-- The number that unsigned decimal text denotes: digits with a point, and an exponent. -/
def readUnsigned (negative : Bool) (cs : List Char) : Float :=
  let mantissa := cs.takeWhile (· != 'e')
  let (down, power) := splitSign ((cs.dropWhile (· != 'e')).drop 1)
  let whole := mantissa.takeWhile (· != '.')
  let fraction := (mantissa.dropWhile (· != '.')).drop 1
  let power : Int := if down then -(digitsValue power : Int) else digitsValue power
  let exponent := power - fraction.length
  let units := digitsValue (whole ++ fraction)
  if 0 ≤ exponent then doubleOfQuotient negative (units * Nat.pow 10 exponent.toNat) 1
  else doubleOfQuotient negative units (Nat.pow 10 (-exponent).toNat)

/-- The number that a decimal text denotes. -/
def readDecimal (s : String) : Float :=
  let (negative, cs) := splitSign ((s.trimAscii.copy.toLower.toList).filter (· != '_'))
  match String.ofList cs with
  | "nan" => 0.0 / 0.0
  | "inf" | "infinity" => infinity negative
  | _ => readUnsigned negative cs

end Backprop
