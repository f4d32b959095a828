import Backprop.Error
/-!
Counts of what a net does. A profile that is switched off records nothing.
-/

namespace Backprop

structure ProfileStats where
  peakLiveBytes : Int := 0
  peakLiveSlots : Int := 0
  forwardSteps : Nat := 0
  backwardSteps : Nat := 0
  transfers : Nat := 0
  /-- The total duration of every kind of event, in the order they first occurred. -/
  events : List (String × Float) := []

structure Profile where
  enabled : Bool := true
  stats : ProfileStats := {}

namespace Profile

/-- Changes the counts of a profile that is switched on. -/
def record (p : Profile) (f : ProfileStats → ProfileStats) : Profile :=
  if p.enabled then { p with stats := f p.stats } else p

def recordLive (p : Profile) (slots bytes : Int) : Profile :=
  p.record fun s => { s with
    peakLiveSlots := max s.peakLiveSlots slots
    peakLiveBytes := max s.peakLiveBytes bytes }

def recordForwardStep (p : Profile) : Profile :=
  p.record fun s => { s with forwardSteps := s.forwardSteps + 1 }

def recordBackwardStep (p : Profile) : Profile :=
  p.record fun s => { s with backwardSteps := s.backwardSteps + 1 }

/-- Records a step of the pass with this name. -/
def recordStep (p : Profile) (pass : String) : Except Error Profile :=
  if !p.enabled then .ok p
  else if pass = "forward" then .ok p.recordForwardStep
  else if pass = "backward" then .ok p.recordBackwardStep
  else .error (.unknownStep pass)

def recordTransfer (p : Profile) : Profile :=
  p.record fun s => { s with transfers := s.transfers + 1 }

/-- Adds a duration to the events of a name. -/
def addDuration (name : String) (duration : Float) :
    List (String × Float) → List (String × Float)
  | [] => [(name, 0.0 + duration)]
  | (n, total) :: rest =>
    if n == name then (n, total + duration) :: rest
    else (n, total) :: addDuration name duration rest

def recordEvent (p : Profile) (name : String) (duration : Float) : Profile :=
  p.record fun s => { s with events := addDuration name duration s.events }

def reset (p : Profile) : Profile := { p with stats := {} }

end Profile

end Backprop
