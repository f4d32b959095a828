import Backprop.Schedule.Release
import Backprop.Registry
/-!
Schedules: what a net needs to evaluate a graph. A forward instruction runs an operation on slots
and constants and writes slots; the backward list holds the instructions on the way to a gradient,
in reverse.
-/

namespace Backprop

inductive Arg where
  | slot (s : Slot)
  | const (v : Value)

namespace Arg

def slot? : Arg → Option Slot
  | slot s => some s
  | const _ => none

def isConst : Arg → Bool
  | slot _ => false
  | const _ => true

end Arg

structure Instruction where
  /-- The place in the forward list. -/
  index : Nat
  handle : Nat
  name : String
  operation : Operation
  args : List Arg
  kwargs : List (String × Arg)
  /-- The slot written by each output of the operation. -/
  outputs : List Slot
  /-- The positional arguments whose derivatives are accumulated, with their slots. -/
  gradientPositions : List (Nat × Slot) := []
  requiresGradient : Bool := false
  devicePlacement : Bool := false

namespace Instruction

def kind (i : Instruction) : String := i.operation.kind

/-- The slots read, positional arguments first. -/
def reads (i : Instruction) : List Slot :=
  i.args.filterMap Arg.slot? ++ i.kwargs.filterMap fun (_, a) => a.slot?

def hasConstants (i : Instruction) : Bool :=
  i.args.any Arg.isConst || i.kwargs.any fun (_, a) => a.isConst

end Instruction

structure Schedule where
  nodes : List NodeRef
  forward : List Instruction
  backward : List Instruction
  slots : List SlotInfo
  /-- The slot that each name stands for. -/
  names : List (String × Slot)
  terminals : List Slot
  release : ReleasePlan
  /-- The naming mode it was compiled with. -/
  naming : String

namespace Schedule

def slotOf (s : Schedule) (name : String) : Except Error Slot :=
  match s.names.lookup name with
  | some slot => .ok slot
  | none => .error (.noVariable name)

/-- Names and slots of a kind, in slot order; of two slots with one name the later counts. -/
def slotsOfKind (s : Schedule) (kind : SlotKind) : List (String × Slot) :=
  let all := (s.slots.filter (·.kind = kind)).map fun i => (i.name, i.index)
  ((all.map (·.1)).eraseDups).filterMap fun name =>
    (all.reverse.lookup name).map fun slot => (name, slot)

def inputSlots (s : Schedule) : List (String × Slot) := s.slotsOfKind .input

def paramSlots (s : Schedule) : List (String × Slot) := s.slotsOfKind .param

/-- The slots that hold a value before the first instruction. -/
def leafSlots (s : Schedule) : List Slot :=
  ((s.slots.filter (·.kind ≠ .op)).map (·.index)).eraseDups

/-- The numbers of live values after each forward step, and after each backward step if asked. -/
def liveProfile (s : Schedule) (withBackward : Bool) : List Nat :=
  let released := if withBackward then s.release.forward else s.release.forwardOnly
  let (sizes, live) := Backprop.liveProfile (s.forward.map (·.outputs)) released s.leafSlots
  if withBackward then
    sizes ++ (Backprop.liveProfile (s.backward.map fun _ => []) s.release.backwardValues live).1
  else sizes

end Schedule

end Backprop
