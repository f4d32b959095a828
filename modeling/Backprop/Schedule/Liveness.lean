import Backprop.Schedule.Basic
/-!
Which instruction uses a slot last, and which one writes it.
-/

namespace Backprop

/-- The last step at which an instruction has a property. -/
def lastStep (l : List Instruction) (p : Instruction → Bool) : Option Nat :=
  (l.zipIdx.filter fun (i, _) => p i).getLast?.map (·.2)

/-- The last step that reads a slot. -/
def lastUse (l : List Instruction) (s : Slot) : Option Nat := lastStep l fun i => i.reads.contains s

/-- The last step that has a slot among its outputs. -/
def producerOf (l : List Instruction) (s : Slot) : Option Nat :=
  lastStep l fun i => i.outputs.contains s

/-- Adds the uses that the instruction lists make of a slot to its description. -/
def SlotInfo.withUses (info : SlotInfo) (forward backward : List Instruction) : SlotInfo :=
  { info with
    lastForwardUse := lastUse forward info.index
    lastBackwardUse := lastUse backward info.index
    producer := producerOf forward info.index
    producerBackward := producerOf backward info.index }

end Backprop
