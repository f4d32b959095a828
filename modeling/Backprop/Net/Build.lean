import Backprop.Net.Reaction
import Backprop.Schedule.Compile
/-!
Building nets: compile, check, fill in the parameters, and place the net on its device.
-/

namespace Backprop

structure NetOptions where
  keep : List String := []
  config : Config := {}
  registry : Option Registry := none
  transfer : Option Transfer := none
  observed : Bool := false
  reactions : List Reaction := []

namespace Net

/-- The parameters of a schedule with the training data of their nodes. -/
def paramsOf (ws : Workspace) (s : Schedule) : List ParamInfo :=
  (s.slots.filter (·.kind = .param)).filterMap fun info =>
    (s.nodes.find? (·.handle == info.handle)).bind fun n =>
      match (ws.node n).role with
      | .param p =>
        some ⟨info.name, info.index, p.learningRate, p.weightDecay, p.trainMethod⟩
      | _ => none

/-- The value that a slot starts with: that of its parameter. -/
def initialValue (ws : Workspace) (s : Schedule) (info : SlotInfo) : Value :=
  match (s.nodes.find? (·.handle == info.handle)).map fun n => (ws.node n).role with
  | some (.param p) => p.value
  | _ => .none

/-- The table of a schedule, with the parameters' values. -/
def initialTable (ws : Workspace) (s : Schedule) : VariableTable where
  entries := (s.slots.map fun info =>
    { info, value := initialValue ws s info : Variable }).toArray

/-- The net of a checked schedule, on the host. -/
def ofSchedule (ws : Workspace) (s : Schedule) (options : NetOptions) : Net where
  config := options.config
  schedule := s
  table := initialTable ws s
  profile := { enabled := options.config.profile }
  params := paramsOf ws s
  compiledNames := s.nodes.map fun n => (n, ws.name n)
  transfer := options.transfer.getD .standard
  observed := options.observed
  reactions := options.reactions.toArray

/-- A single terminal that is no node but runs through items stands for its items. -/
def spread (terminals : List Value) : Except Error (List Value) :=
  match terminals with
  | [.node n] => .ok [.node n]
  | [v] =>
    match v with
    | .list _ | .tuple _ | .text _ | .bytes _ | .dict _ | .array _ | .objects .. => v.items
    | _ => .ok [v]
  | _ => .ok terminals

end Net

namespace Workspace

/-- The effects of building a net belong to the workspace. -/
def absorb (ws : Workspace) (journal : Journal) : Workspace :=
  { ws with journal := ws.journal.append journal }

/-- Builds a net for terminals. If a step fails there is no net, but what it did so far stays. -/
def buildNet (ws : Workspace) (terminals : List Value) (options : NetOptions := {}) :
    Except Error Net × Workspace :=
  match Net.spread terminals with
  | .error e => (.error e, ws)
  | .ok terminals =>
    let ws := if options.config.debug then { ws with verbose := true } else ws
    match ws.compile terminals
        { keep := options.keep, naming := options.config.naming.name,
          registry := options.registry } with
    | (.error e, ws) => (.error e, ws)
    | (.ok s, ws) =>
      match s.check ws with
      | .error e => (.error e, ws)
      | .ok () =>
        let net := Net.ofSchedule ws s options
        if Device.normalize ws.label options.config.device = Device.host then (.ok net, ws)
        else
          match Net.move ws.label options.config.device net with
          | .ok () net => (.ok { net with journal := {} }, ws.absorb net.journal)
          | .error e net => (.error e, ws.absorb net.journal)

end Workspace

end Backprop
