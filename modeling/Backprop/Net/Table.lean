import Backprop.Schedule.Slot
import Backprop.Value.Arithmetic
/-!
The variable table: for every slot a value and a derivative. Nothing as a value means that the slot
is empty, and the plain zero as a derivative that nothing was accumulated.

* A contribution with a position waits until the derivative is read; waiting contributions are then
  added in ascending order of position, whatever order they came in.
* A contribution without a position is added at once, after the waiting ones.
-/

namespace Backprop

/-- Where a contribution comes from: the consuming instruction and the argument position. -/
structure Position where
  instruction : Nat
  argument : Nat
deriving DecidableEq, Repr

/-- Earlier instructions come first, and earlier arguments of one instruction. -/
def Position.lt (a b : Position) : Bool :=
  a.instruction < b.instruction || (a.instruction == b.instruction && a.argument < b.argument)

structure Variable where
  info : SlotInfo
  value : Value := .none
  der : Value := .int 0
  /-- Contributions that wait to be added, in the order they came in. -/
  parts : List (Position × Value) := []

/-- The bytes of a variable: its value, its derivative and what waits for it. -/
def Variable.byteSize (v : Variable) : Nat :=
  v.value.byteSize + (if v.der.isZero then 0 else v.der.byteSize)
    + v.parts.foldl (fun n (_, der) => n + der.byteSize) 0

structure VariableTable where
  entries : Array Variable
  /-- The addition of derivatives. -/
  addition : Value → Value → Except Error Value := Value.add

/-- Changes to a table. What was done before a failure stays done. -/
abbrev TableM := EStateM Error VariableTable

namespace VariableTable

def ofSlots (slots : List SlotInfo) : VariableTable where
  entries := (slots.map fun info => { info }).toArray

def size (t : VariableTable) : Nat := t.entries.size

/-- A total with one more contribution; the first contribution is taken as it is. -/
def accumulated (addition : Value → Value → Except Error Value) (total der : Value) :
    Except Error Value :=
  if total.isZero then .ok der else addition total der

/-- Puts a contribution in its place, behind those of the same position. -/
def insertPart (p : Position × Value) : List (Position × Value) → List (Position × Value)
  | [] => [p]
  | q :: rest => if p.1.lt q.1 then p :: q :: rest else q :: insertPart p rest

/-- Contributions in ascending order of position, those of one position in the order they came in. -/
def sortParts (parts : List (Position × Value)) : List (Position × Value) :=
  parts.foldl (fun sorted p => insertPart p sorted) []

/-- A derivative together with its waiting contributions. -/
def folded (addition : Value → Value → Except Error Value) (v : Variable) : Except Error Value :=
  (sortParts v.parts).foldlM (fun total (_, der) => accumulated addition total der) v.der

/-- The variable of a slot. -/
def at? (t : VariableTable) (slot : Slot) : Option Variable :=
  (locate t.size slot).bind fun k => t.entries[k]?

def modify (t : VariableTable) (slot : Slot) (f : Variable → Variable) : VariableTable :=
  match locate t.size slot with
  | some k => { t with entries := t.entries.modify k f }
  | none => t

/-- The variable of a slot, which has to exist. -/
def lookup (slot : Slot) : TableM Variable := do
  match (← get).at? slot with
  | some v => return v
  | none => throw .outOfRange

def update (slot : Slot) (f : Variable → Variable) : TableM Unit := do
  let _ ← lookup slot
  modifyGet fun t => ((), t.modify slot f)

/-- The result of a computation that may fail. -/
def ofExcept {α : Type} : Except Error α → TableM α
  | .ok x => pure x
  | .error e => throw e

def putValue (slot : Slot) (x : Value) : TableM Unit := update slot fun v => { v with value := x }

def getValue (slot : Slot) : TableM Value := do return (← lookup slot).value

def hasValue (slot : Slot) : TableM Bool := do return !(← lookup slot).value.isNone

def release (slot : Slot) : TableM Unit := putValue slot .none

/-- Reads a derivative, adding what waits for it. -/
def getDer (slot : Slot) : TableM Value := do
  let v ← lookup slot
  if v.parts.isEmpty then return v.der
  let total ← ofExcept (folded (← get).addition v)
  update slot fun v => { v with der := total, parts := [] }
  return total

/-- Overwrites a derivative; what waited for it is dropped. -/
def setDer (slot : Slot) (der : Value) : TableM Unit :=
  update slot fun v => { v with der, parts := [] }

def releaseDer (slot : Slot) : TableM Unit := setDer slot (.int 0)

/-- Adds a contribution to a derivative, at once or when the derivative is read. -/
def accumulate (slot : Slot) (der : Value) (position : Option Position) : TableM Unit := do
  match position with
  | some p => update slot fun v => { v with parts := v.parts ++ [(p, der)] }
  | none =>
    let total ← getDer slot
    let total ← ofExcept (accumulated (← get).addition total der)
    update slot fun v => { v with der := total }

/-- Prepares one slot for the next evaluation: persistent values stay, everything else goes, except
that persistent derivatives may be kept. -/
def resetSlot (keepDers : Bool) (slot : Slot) : TableM Unit := do
  if !(← lookup slot).info.persistent then
    release slot
    releaseDer slot
  else if keepDers then
    let _ ← getDer slot
  else releaseDer slot

/-- Prepares every slot for the next evaluation. -/
def reset (keepDers : Bool) : TableM Unit := do
  (List.range (← get).size).forM fun k => resetSlot keepDers k

/-- The slots that hold a value. -/
def liveSlots (t : VariableTable) : List Nat :=
  (t.entries.toList.zipIdx.filter fun (v, _) => !v.value.isNone).map (·.2)

/-- The bytes that all values and derivatives occupy. -/
def liveBytes (t : VariableTable) : Nat :=
  t.entries.foldl (fun n v => n + v.byteSize) 0

end VariableTable

end Backprop
