import Backprop.Net.Pass
/-!
Observers. An observer is told of events and can act on the net, each of its reactions once. What a
reaction starts can set off other reactions, so the depth of such a chain is at most their number.
-/

namespace Backprop

namespace Event

def moment : Event → Moment
  | forward .. => .forward
  | backward .. => .backward
  | finished => .finished

def instruction? : Event → Option String
  | forward name _ | backward name _ => some name
  | finished => none

end Event

namespace Reaction

/-- Whether an event sets off a reaction. -/
def isDue (r : Reaction) (e : Event) : Bool :=
  r.waiting && r.on = e.moment && (r.instruction.isNone || r.instruction == e.instruction?)

end Reaction

namespace Net

/-- Takes an action; passes it starts tell `notify` of their events. -/
def perform (ws : Workspace) (notify : Notify) : Action → NetM Unit
  | .refuse => throw (.refused .value "callback refused")
  | .evaluate inputs => evaluatePass ws notify { inputs } .none
  | .forward inputs => forwardPass ws notify { inputs }
  | .backward => backwardPass ws notify .none
  | .move device => move ws.label device
  | .setValue key v => setValue key v
  | .setDer key v => setDer key v
  | .setInputs inputs => setInputs inputs

/-- Takes the action of one reaction, if it is due. -/
def reactOnce (ws : Workspace) (notify : Notify) (e : Event) (k : Nat) : NetM Unit := do
  match (← get).reactions[k]? with
  | some r =>
    if r.isDue e then
      modify fun net =>
        { net with reactions := net.reactions.modify k fun r => { r with waiting := false } }
      perform ws notify r.action
  | none => return

/-- Tells the observers of an event. Reactions at most `depth` deep follow. Kernels leave the net
alone. -/
def react (ws : Workspace) (depth : Nat) : Notify
  | .kernel .. => return
  | .event e => do
    let net ← get
    if net.observed then
      set { net with journal := { net.journal with events := net.journal.events.push e } }
      match depth with
      | 0 => return
      | depth + 1 =>
        (List.range net.reactions.size).forM fun k => reactOnce ws (react ws depth) e k

/-- Tells the observers of an event. -/
def notifyObservers (ws : Workspace) : Notify := fun s => do
  react ws (← get).reactions.size s

def forward (ws : Workspace) (options : PassOptions := {}) : NetM Unit :=
  forwardPass ws (notifyObservers ws) options

def backward (ws : Workspace) (seed : Value := .none) : NetM Unit :=
  backwardPass ws (notifyObservers ws) seed

def evaluate (ws : Workspace) (options : PassOptions := {}) (seed : Value := .none) : NetM Unit :=
  evaluatePass ws (notifyObservers ws) options seed

end Net

end Backprop
