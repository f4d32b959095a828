import Backprop.Value.Operand
/-!
Binary operators on values. Plain numbers compute exactly as `Number` says; as soon as an operand is
typed the operation is done entry by entry on broadcast arrays. Arrays of values apply the operator
to their entries, which may be arrays again.
-/

namespace Backprop

structure Operator where
  /-- The operation on plain numbers. -/
  plain : Number → Number → Except Error Number
  /-- The operation on elements. Single numbers, as the flag says, round differently from arrays. -/
  typed : Bool → Operand → Operand → Except Error Value
  /-- The operation on sequences, where it has a meaning of its own. -/
  sequences : Value → Value → Option (Except Error Value) := fun _ _ => none

namespace Operator

/-- An operation on entries that are values, after broadcasting. -/
def overValues (f : Value → Value → Except Error Value) (x y : Tensor Value) : Except Error Value :=
  match Tensor.zipWith? f x y with
  | some r => do return (Cells.values (← r.collectM)).collapse
  | none => .error .badValue

/-- The operation on values that hold arrays of values to at most the given depth. -/
def applyWithin (op : Operator) : Nat → Value → Value → Except Error Value
  | depth, a, b =>
    match op.sequences a b with
    | some r => r
    | none =>
      if a.isTyped || b.isTyped then do
        let x ← a.toOperand
        let y ← b.toOperand
        if x.isValues || y.isValues then
          match depth with
          | 0 => throw .operandType
          | depth + 1 => overValues (op.applyWithin depth) x.toValues y.toValues
        else if x.isTexts || y.isTexts then throw .operandType
        else op.typed (a.isPoint && b.isPoint) x y
      else
        match a.number?, b.number? with
        | some m, some n => (op.plain m n).map Number.toValue
        | _, _ => .error .operandType

def apply (op : Operator) (a b : Value) : Except Error Value :=
  op.applyWithin (a.depth + b.depth + 1) a b

/-- An operation on two operands, entry by entry in type `t`, with results of type `u`. -/
def entrywise {t u : ElementType} (f : t.Carrier → t.Carrier → u.Carrier) (a b : Operand) :
    Except Error Value := do
  match Tensor.zipWith? f (← a.convertTo t) (← b.convertTo t) with
  | some r => return TypedArray.collapse ⟨u, r⟩
  | none => throw .badValue

/-- An operation that the element type may lack. -/
def entrywise? {t : ElementType} (f : Option (t.Carrier → t.Carrier → t.Carrier))
    (a b : Operand) : Except Error Value :=
  match f with
  | some f => entrywise f a b
  | none => .error .operandType

end Operator

end Backprop
