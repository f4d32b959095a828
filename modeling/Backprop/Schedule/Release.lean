import Backprop.Schedule.Slot
import Backprop.Error
/-!
The reclamation plan: which slots can be given back right after each instruction.

* `forwardOnly` holds when no backward pass follows, `forward` when one does.
* `liveProfile` counts the values alive after each step of a plan.
-/

namespace Backprop

structure ReleasePlan where
  forwardOnly : List (List Slot) := []
  forward : List (List Slot) := []
  backwardValues : List (List Slot) := []
  backwardDers : List (List Slot) := []
deriving DecidableEq, Repr

namespace ReleasePlan

/-- For each of `n` steps the reclaimable slots that are due at it. -/
def byStep (slots : List SlotInfo) (n : Nat) (due : SlotInfo → Option Nat) : List (List Slot) :=
  (List.range n).map fun step =>
    (slots.filter fun s => s.reclaimable && due s == some step).map (·.index)

/-- When a value is due in a forward pass that a backward pass follows: not if the backward pass
reads it. -/
def dueBeforeBackward (s : SlotInfo) : Option Nat :=
  if s.lastBackwardUse.isNone then s.lastForwardNeed else none

/-- Whether every step that a slot names exists. -/
def inRange (numForward numBackward : Nat) (s : SlotInfo) : Bool :=
  s.lastForwardNeed.all (· < numForward) && s.lastBackwardUse.all (· < numBackward)
    && s.producerBackward.all (· < numBackward)

/-- The plan for these slots and numbers of instructions. -/
def ofSlots (slots : List SlotInfo) (numForward numBackward : Nat) : Except Error ReleasePlan :=
  if slots.all fun s => !s.reclaimable || inRange numForward numBackward s then
    .ok {
      forwardOnly := byStep slots numForward SlotInfo.lastForwardNeed
      forward := byStep slots numForward dueBeforeBackward
      backwardValues := byStep slots numBackward SlotInfo.lastBackwardUse
      backwardDers := byStep slots numBackward SlotInfo.producerBackward }
  else .error .outOfRange

end ReleasePlan

/-- Adds what is not there yet. -/
def insertAll (live made : List Slot) : List Slot :=
  made.foldl (fun l s => if l.contains s then l else l ++ [s]) live

/-- The numbers of live slots after each step, given what every step produces and releases, and the
slots alive at the end. -/
def liveProfile (produced released : List (List Slot)) (live : List Slot) :
    List Nat × List Slot :=
  match produced, released with
  | made :: produced, gone :: released =>
    let live := (insertAll live made).filter fun s => !gone.contains s
    let (sizes, last) := liveProfile produced released live
    (live.length :: sizes, last)
  | _, _ => ([], live)

end Backprop
