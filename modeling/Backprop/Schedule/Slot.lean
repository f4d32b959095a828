/-!
Slots: the places in which a net keeps values and derivatives. A slot is described by what it holds
and by the instructions that write and last read it.
-/

namespace Backprop

/-- The number of a slot. Compiled schedules number their slots from zero. -/
abbrev Slot := Int

inductive SlotKind where
  | input | param | op
deriving DecidableEq, Repr

namespace SlotKind

def name : SlotKind → String
  | input => "input"
  | param => "param"
  | op => "op"

def ofName? (s : String) : Option SlotKind := [input, param, op].find? (·.name == s)

end SlotKind

structure SlotInfo where
  index : Slot
  name : String
  handle : Nat
  kind : SlotKind
  /-- Which output of its node the slot holds. -/
  output : Nat := 0
  /-- The value outlives evaluations. -/
  persistent : Bool := false
  /-- Value and derivative are kept to be read afterwards. -/
  retained : Bool := false
  requiresGradient : Bool := false
  devicePlacement : Bool := false
  /-- The last forward instruction that reads the slot. -/
  lastForwardUse : Option Nat := none
  /-- The last backward instruction, counted in backward order, that reads the slot. -/
  lastBackwardUse : Option Nat := none
  /-- The forward instruction that writes the slot. -/
  producer : Option Nat := none
  /-- The backward instruction, counted in backward order, whose outputs the slot is among. -/
  producerBackward : Option Nat := none
deriving DecidableEq, Repr

namespace SlotInfo

/-- Whether the storage can be given back once nobody needs it. -/
def reclaimable (s : SlotInfo) : Bool := !(s.persistent || s.retained)

/-- The forward instruction after which no forward instruction needs the value: its last reader, or
its producer when nobody reads it. -/
def lastForwardNeed (s : SlotInfo) : Option Nat := s.lastForwardUse.or s.producer

end SlotInfo

end Backprop
