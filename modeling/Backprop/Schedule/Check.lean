import Backprop.Schedule.Basic
import Backprop.Graph.Workspace
/-!
Structural laws of a schedule, checked in this order:

* slots are stored where their index says, and instructions and names refer to slots that exist;
* an instruction stands where its index says and reads only what is written before it;
* the backward list is the reversed list of the instructions that require a gradient;
* every node has a name, and no two nodes share one.
-/

namespace Backprop

namespace Schedule

def slotExists (s : Schedule) (slot : Slot) : Bool := 0 ≤ slot && slot < s.slots.length

def checkSlots (s : Schedule) : Except Error Unit := do
  s.slots.zipIdx.forM fun (info, position) =>
    if info.index = position then .ok ()
    else .error (.slotMisplaced info.name position info.index)
  s.forward.forM fun i =>
    (i.reads ++ i.outputs).forM fun slot =>
      if s.slotExists slot then .ok () else .error (.slotOutOfRange i.name slot)
  s.names.forM fun (name, slot) =>
    if s.slotExists slot then .ok () else .error (.nameOutOfRange name slot)

/-- Checks instructions from a step on, given the slots that hold a value by then. -/
def checkOrder (available : List Slot) (step : Nat) : List Instruction → Except Error Unit
  | [] => .ok ()
  | i :: rest => do
    if i.index ≠ step then throw (.outOfPosition i.name)
    let missing := i.reads.filter fun slot => !available.contains slot
    if !missing.isEmpty then throw (.readsUnwritten i.name missing)
    checkOrder (available ++ i.outputs) (step + 1) rest

def checkBackward (s : Schedule) : Except Error Unit :=
  let expected := (s.forward.reverse.filter (·.requiresGradient)).map (·.index)
  if s.backward.map (·.index) = expected then .ok () else .error .backwardMismatch

/-- Checks the names of nodes, given the names met before. -/
def checkNames (name : NodeRef → Option String) (seen : List String) :
    List NodeRef → Except Error Unit
  | [] => .ok ()
  | n :: rest =>
    match name n with
    | none => .error (.unnamedNode n)
    | some s => if seen.contains s then .error (.nameReused s) else checkNames name (s :: seen) rest

/-- Checks a schedule against the names that its nodes have. -/
def check (s : Schedule) (ws : Workspace) : Except Error Unit := do
  s.checkSlots
  checkOrder s.leafSlots 0 s.forward
  s.checkBackward
  checkNames ws.name [] s.nodes

end Schedule

end Backprop
