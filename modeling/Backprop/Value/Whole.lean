import Backprop.Value.Number
/-!
Whole numbers read from values: axes, flags, lengths and counts. A typed whole number, or an array
without axes that holds one, serves as well as a plain one; each use has its own limits.
-/

namespace Backprop

/-- A number that a machine word of 64 bits holds. -/
def fitsWord (n : Int) : Bool := ElementType.int64.holds n

/-- A number that half a machine word holds. -/
def fitsHalfWord (n : Int) : Bool := (ElementType.int .w32).holds n

namespace Value

/-- A whole number that is not a truth value, plain or typed. -/
def wholeNumber? : Value → Option Int
  | int n => some n
  | scalar ⟨.int _, n⟩ => some n.toInt
  | scalar ⟨.uint _, n⟩ => some n.toNat
  | array ⟨.int _, e⟩ => if e.rank = 0 then some (e.get []).toInt else Option.none
  | array ⟨.uint _, e⟩ => if e.rank = 0 then some (e.get []).toNat else Option.none
  | _ => Option.none

/-- A whole number, where a plain truth value is one too. -/
def index? : Value → Option Int
  | bool b => some (if b then 1 else 0)
  | v => v.wholeNumber?

/-- A whole number that names an axis. -/
def axisNumber (v : Value) : Except Error Int :=
  match v.wholeNumber? with
  | some n =>
    if !fitsWord n then .error .overflow else if fitsHalfWord n then .ok n else .error .badValue
  | Option.none => .error .operandType

/-- A flag given as a truth value or a whole number. -/
def flag : Value → Except Error Bool
  | scalar ⟨.bool, b⟩ => .ok b
  | v =>
    match v.index? with
    | some n => if fitsHalfWord n then .ok (n != 0) else .error .overflow
    | Option.none => .error .operandType

/-- The length of an axis. -/
def axisLength (v : Value) : Except Error Int :=
  match v.wholeNumber? with
  | some n => if fitsWord n then .ok n else .error .badValue
  | Option.none => .error .operandType

/-- The number of times that something is repeated. -/
def repeatCount (v : Value) : Except Error Int :=
  match v.index? with
  | some n => if fitsWord n then .ok n else .error .overflow
  | Option.none => .error .operandType

end Value

end Backprop
