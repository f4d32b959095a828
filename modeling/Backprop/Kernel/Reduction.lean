import Backprop.Kernel.Arithmetic
import Backprop.Text.Template
import Backprop.Value.Item
/-!
Sums and means along axes with their derivatives: every reduced entry gets the derivative of the
entry it was counted in, divided by the number of reduced entries for a mean.
-/

namespace Backprop.Kernel

/-- An axis counted modulo the rank: a whole number, or a remainder that names no axis. A text is a
template that the rank is written into, which leaves a text. -/
def axisRemainder (rank : Nat) : Value → Except Error (Option Int)
  | .text s => templateRemainder Text.textForms s.toList
  | .bytes l => templateRemainder ('b' :: Text.textForms) (l.map fun b => Char.ofNat b.toNat)
  | .scalar ⟨.bool, b⟩ => .ok (some ((if b then 1 else 0) % (rank : Int)))
  | v =>
    match v.index? with
    | some n => .ok (some (n % (rank : Int)))
    | none =>
      match v.plainNumber? with
      | some (.float _) => .ok none
      | _ => .error .operandType
where
  templateRemainder (forms cs : List Char) : Except Error (Option Int) :=
    match Text.fillTemplate forms cs with
    | .written => .ok none
    | .misused => .error .operandType
    | .malformed => .error .badValue

/-- The axes that a value names among `rank`, counted modulo the rank; without axes the numbers
stay as they are. What names no axis is listed as none. -/
def axisNumbers (axis : Value) (rank : Nat) : Except Error (List (Option Int)) :=
  match axis with
  | .none => .ok ((List.range rank).map fun k => some (Int.ofNat k))
  | v => do
    -- one axis stands for itself, and anything else lists axes
    let items ←
      match v with
      | .bool _ | .int _ => pure [v]
      | v => v.items
    items.mapM fun item => if rank = 0 then .ok item.index? else axisRemainder rank item

/-- A number that has to be there. -/
def namedAxis : Option Int → Except Error Int
  | some k => .ok k
  | none => .error .operandType

/-- The number of entries that are reduced to one, at least one. -/
def reducedSize (s : Shape) (axis : Value) : Except Error Nat := do
  let sizes ← (← axisNumbers axis s.length).mapM fun axis => do
    match (locate s.length (← namedAxis axis)).bind (s[·]?) with
    | some n => return n
    | none => throw Error.outOfRange
  return max (sizes.foldl (· * ·) 1) 1

/-- The derivative of a reduction, stretched back to the shape of what was reduced. -/
def expandReduced (dy like axis keep : Value) : Except Error Value := do
  let rank := like.shape.length
  let dy ←
    if !(← keep.truth) && rank != 0 then do
      let axes ← (← axisNumbers axis rank).mapM namedAxis
      (axes.mergeSort fun a b => a ≤ b).foldlM (fun d k => d.insertAxis k) dy
    else pure dy
  (← like.zerosLike).add dy

def axisParameter := optional "axis" .none
def keepParameter := optional "keepdims" (.bool false)

def sumForward : Kernel := ternaryKernel operandA axisParameter keepParameter Value.sum

def sumBackward : Kernel :=
  quaternaryKernel operandA derivative axisParameter keepParameter fun a dy axis keep => do
    return derivatives [← expandReduced dy a axis keep]

def meanForward : Kernel :=
  ternaryKernel operandA axisParameter keepParameter fun a axis keep => do
    let n ← reducedSize a.shape axis
    (← a.sum axis keep).div (.int n)

def meanBackward : Kernel :=
  quaternaryKernel operandA derivative axisParameter keepParameter fun a dy axis keep => do
    let n ← reducedSize a.shape axis
    return derivatives [← (← expandReduced dy a axis keep).div (.int n)]

end Backprop.Kernel
