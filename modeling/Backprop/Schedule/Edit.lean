import Backprop.Schedule.Compile
/-!
Changes to a compiled schedule. Nothing is checked here: a changed schedule may break the laws, which
`Schedule.check` reports.
-/

namespace Backprop

namespace Schedule

/-- The backward list with its instructions as they stand in the forward list now. -/
def refreshBackward (s : Schedule) : Schedule :=
  { s with backward := s.backward.map fun i =>
      (s.forward.find? (·.handle == i.handle)).getD i }

/-- Reverses the forward list; places and indices agree afterwards. -/
def reverseForward (s : Schedule) : Schedule :=
  refreshBackward { s with
    forward := s.forward.reverse.zipIdx.map fun (i, k) => { i with index := k } }

/-- Reverses the forward list; every instruction keeps its index. -/
def swapForward (s : Schedule) : Schedule := { s with forward := s.forward.reverse }

def reverseBackward (s : Schedule) : Schedule := { s with backward := s.backward.reverse }

def dropBackward (s : Schedule) : Schedule := { s with backward := s.backward.dropLast }

/-- Changes the instruction at a place of the forward list. -/
def editInstruction (s : Schedule) (place : Int) (f : Instruction → Instruction) :
    Except Error Schedule :=
  match locate s.forward.length place with
  | some k => .ok (refreshBackward { s with forward := s.forward.modify k f })
  | none => .error .outOfRange

def setArgs (s : Schedule) (place : Int) (slots : List Slot) : Except Error Schedule :=
  s.editInstruction place fun i => { i with args := slots.map Arg.slot }

def setOutputs (s : Schedule) (place : Int) (slots : List Slot) : Except Error Schedule :=
  s.editInstruction place fun i => { i with outputs := slots }

/-- Exchanges two slot descriptions. -/
def swapSlots (s : Schedule) (a b : Int) : Except Error Schedule :=
  match locate s.slots.length a, locate s.slots.length b with
  | some i, some j =>
    match s.slots[i]?, s.slots[j]? with
    | some x, some y => .ok { s with slots := (s.slots.set i y).set j x }
    | _, _ => .error .outOfRange
  | _, _ => .error .outOfRange

/-- Lets a name stand for a slot. -/
def setTarget (s : Schedule) (name : String) (slot : Slot) : Schedule :=
  { s with names := enterName s.names name slot }

/-- The node at a place of the order. -/
def nodeAt (s : Schedule) (place : Int) : Except Error NodeRef :=
  match (locate s.nodes.length place).bind fun k => s.nodes[k]? with
  | some n => .ok n
  | none => .error .outOfRange

end Schedule

end Backprop
