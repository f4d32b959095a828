import Backprop.Element.Sum
import Backprop.Tensor.Product
import Backprop.Value.Operator
import Backprop.Value.Sequence
/-!
The arithmetic of values: the operators, functions that stay within the element type, and the matrix
product.
-/

namespace Backprop

namespace Operator

def add : Operator where
  plain := Number.add
  typed := fun _ x y => entrywise (t := x.common y) (ElementType.add _) x y
  sequences := fun a b => (a.append? b).map .ok

def sub : Operator where
  plain := Number.sub
  typed := fun _ x y => entrywise? (ElementType.sub? (x.common y)) x y

def mul : Operator where
  plain := Number.mul
  typed := fun points x y =>
    let t := x.common y
    entrywise (t := t) (if points then t.mul else t.arrayMul) x y
  sequences := Value.repetition?

/-- The quotient, which is no whole number. A single typed number is divided only by, and divides only,
plain whole numbers within the range of its type. -/
def div : Operator where
  plain := Number.div
  typed := fun points x y =>
    let t := x.common y
    if points && !(x.isWithin t && y.isWithin t) then .error .overflow
    else entrywise? (ElementType.div? t.quotient) x y

/-- The element type in which powers are taken: truth values count as small integers. -/
def powType : ElementType → ElementType
  | .bool => .int .w8
  | t => t

/-- Whether every row of a power along arrays has one exponent: the exponent is a single number or is
stretched along the last axis that is longer than one. -/
def isSteady (base exponent : Shape) : Bool :=
  exponent.isEmpty ||
    !base.isEmpty && base != exponent &&
      match Shape.broadcast? base exponent with
      | some s =>
        let missing := s.length - exponent.length
        match s.zipIdx.reverse.find? fun (n, _) => n != 1 with
        | some (_, k) => k < missing || exponent.getD (k - missing) 1 = 1
        | none => true
      | none => false

/-- A power that an array takes by a simpler operation when the exponent is this plain number: the
square root, which keeps the sign of a zero, and for complex entries the reciprocal and the square. -/
def shortPower (a : TypedArray) (y : Operand) : Option TypedArray :=
  match a, y with
  | ⟨.float p, e⟩, .real x =>
    if x == 0.5 then some ⟨.float p, e.map fun a => p.round a.sqrt⟩ else none
  | ⟨.complex p, e⟩, .real x =>
    if x == 0.5 then some ⟨.complex p, e.map fun a => a.sqrt.map p.round⟩ else none
  | ⟨.complex p, e⟩, .whole n =>
    if n = -1 then some ⟨.complex p, e.map (Complex.reciprocal p.round)⟩
    else if n = 2 then some ⟨.complex p, e.map fun a => a.mulFused p.round a⟩
    else none
  | _, _ => none

/-- A power entry by entry. Whole numbers cannot have negative exponents. -/
def powEntries (points : Bool) (x y : Operand) : Except Error Value := do
  let t := powType (x.common y)
  let base ← x.convertTo t
  let exponent ← y.convertTo t
  match Shape.broadcast? base.shape exponent.shape with
  | some s =>
    if s.size != 0 && !exponent.toList.all t.isExponent then throw .badValue
    let steady := !points && isSteady base.shape exponent.shape
    entrywise? (if steady then t.steadyPow? else t.pow?) x y
  | none => throw .badValue

def pow : Operator where
  plain := Number.pow
  typed := fun points x y =>
    match x with
    | .typed a =>
      match if points then none else shortPower a y with
      | some r => .ok r.collapse
      | none => powEntries points x y
    | _ => powEntries points x y

end Operator

namespace Value

def add : Value → Value → Except Error Value := Operator.add.apply
def sub : Value → Value → Except Error Value := Operator.sub.apply
def mul : Value → Value → Except Error Value := Operator.mul.apply
def div : Value → Value → Except Error Value := Operator.div.apply
def pow : Value → Value → Except Error Value := Operator.pow.apply

mutual

/-- A function of plain numbers and of typed arrays, taken entry by entry on arrays of values. -/
def mapNumbers (plain : Number → Except Error Number)
    (typed : TypedArray → Except Error TypedArray) : Value → Except Error Value
  | array a => (typed a).map TypedArray.collapse
  | scalar s => (typed s.toArray).map TypedArray.collapse
  | objects s l => do return (Cells.ofValues s (← mapEach plain typed l)).collapse
  | v =>
    match v.number? with
    | some n => (plain n).map Number.toValue
    | Option.none => .error .operandType

def mapEach (plain : Number → Except Error Number)
    (typed : TypedArray → Except Error TypedArray) : List Value → Except Error (List Value)
  | [] => .ok []
  | v :: l => do return (← mapNumbers plain typed v) :: (← mapEach plain typed l)

end

def negEntries (a : TypedArray) : Except Error TypedArray :=
  match a.elementType.neg? with
  | some f => .ok ⟨a.elementType, a.entries.map f⟩
  | Option.none => .error .operandType

def neg : Value → Except Error Value := mapNumbers (fun n => .ok n.neg) negEntries

def absEntries : TypedArray → TypedArray
  | ⟨.bool, e⟩ => ⟨.bool, e⟩
  | ⟨.int w, e⟩ => ⟨.int w, e.map fun n => if n.toInt < 0 then -n else n⟩
  | ⟨.uint w, e⟩ => ⟨.uint w, e⟩
  | ⟨.float p, e⟩ => ⟨.float p, e.map Float.abs⟩
  | ⟨.complex p, e⟩ => ⟨.float p, e.map fun z => p.round z.abs⟩

def abs : Value → Except Error Value := mapNumbers Number.abs fun a => .ok (absEntries a)

/-- A property of plain numbers and of elements. -/
structure Comparison where
  plain : Number → Except Error Bool
  typed : (t : ElementType) → t.Carrier → Bool

namespace Comparison

def ofEntries (c : Comparison) (a : TypedArray) : Value :=
  TypedArray.collapse ⟨.bool, a.entries.map (c.typed a.elementType)⟩

mutual

/-- Whether a property holds, entry by entry. -/
def apply (c : Comparison) : Value → Except Error Value
  | array a => .ok (c.ofEntries a)
  | scalar s => .ok (c.ofEntries s.toArray)
  | objects s l => do
    match Tensor.ofList? s (← c.applyEach l) with
    | some e => return TypedArray.collapse ⟨.bool, e⟩
    | Option.none => throw .badValue
  | v =>
    match v.number? with
    | some n => (c.plain n).map bool
    | Option.none => .error .operandType

def applyEach (c : Comparison) : List Value → Except Error (List Bool)
  | [] => .ok []
  | v :: l => do return (← (← c.apply v).truth) :: (← c.applyEach l)

end

end Comparison

/-- Whether a number is above zero, entry by entry. -/
def isPositive : Value → Except Error Value :=
  Comparison.apply ⟨Number.isPositive, ElementType.isPositive⟩

/-- Whether a number is below zero, entry by entry. -/
def isNegative : Value → Except Error Value :=
  Comparison.apply ⟨Number.isNegative, ElementType.isNegative⟩

/-- The sum of the products of pairs of values. -/
def dot : List (Value × Value) → Except Error Value
  | [] => .ok (bool false)
  | (x, y) :: l => do l.foldlM (fun s (a, b) => do s.add (← a.mul b)) (← x.mul y)

/-- The matrix product of operands that both have axes. -/
def productOf (x y : Operand) : Except Error Value :=
  if x.isValues || y.isValues then
    match Tensor.product? dot x.toValues y.toValues with
    | some r => do return (Cells.values (← r.collectM)).collapse
    | Option.none => .error .badValue
  else
    match x, y with
    | .typed a, .typed b =>
      let t := a.elementType.join b.elementType
      -- one row times one column, each of them with or without an axis of its own
      let vectors := a.shape.reverse.getD 1 1 = 1 && (b.shape.length = 1 || b.shape.getLastD 1 = 1)
      match Tensor.product? (t.dot vectors) (a.convertTo t) (b.convertTo t) with
      | some r => .ok (TypedArray.collapse ⟨t, r⟩)
      | Option.none => .error .badValue
    | .texts _, _ | _, .texts _ => .error .operandType
    | _, _ => .error .badValue

/-- The matrix product, of which at least one operand is an array. -/
def matmul (a b : Value) : Except Error Value := do
  if a.isTypedArray || b.isTypedArray then productOf (← a.toOperand) (← b.toOperand) else throw .operandType

end Value

end Backprop
