import Backprop.Net.Table
import Backprop.Net.Profile
import Backprop.Net.Config
import Backprop.Net.Device
import Backprop.Schedule.Check
import Backprop.Value.Item
/-!
Nets: a compiled schedule with storage for its values and derivatives. Parameter values are all that
outlives an evaluation; bindings of inputs wait for the next one.
-/

namespace Backprop

/-- A kind of event. -/
inductive Moment where
  | forward | backward | finished
deriving DecidableEq, Repr

/-- What an observer can do to the net it observes. -/
inductive Action where
  | refuse
  | evaluate (inputs : Keywords)
  | forward (inputs : Keywords)
  | backward
  | move (device : Value)
  | setValue (key value : Value)
  | setDer (key value : Value)
  | setInputs (inputs : Keywords)

/-- An action that is taken once, at the first event of a kind, or at the first one of a given
instruction. -/
structure Reaction where
  on : Moment
  instruction : Option String := none
  action : Action
  waiting : Bool := true

/-- What a solver outside the library needs to know of a parameter. -/
structure ParamInfo where
  name : String
  slot : Slot
  learningRate : Value
  weightDecay : Value
  trainMethod : TrainMethod

structure Net where
  config : Config
  schedule : Schedule
  table : VariableTable
  profile : Profile
  params : List ParamInfo
  /-- The nodes and the names they had when the net was built. -/
  compiledNames : List (NodeRef × Option String)
  transfer : Transfer
  /-- Whether observers are told of events. -/
  observed : Bool := false
  reactions : Array Reaction := #[]
  device : String := Device.host
  /-- The constants of instructions that were moved to the device. -/
  placed : List (Nat × List Value × Keywords) := []
  /-- Input values for the next evaluation. -/
  pending : List (Slot × Value) := []
  evaluating : Bool := false
  /-- A forward pass has left the values that a backward pass needs. -/
  backwardReady : Bool := false
  /-- The last pass was aborted. -/
  dirty : Bool := false
  journal : Journal := {}

/-- Changes to a net. What was done before a failure stays done. -/
abbrev NetM := EStateM Error Net

namespace Net

/-- A change to the table of a net. -/
def onTable {α : Type} (m : TableM α) : NetM α := fun net =>
  match m net.table with
  | .ok x table => .ok x { net with table }
  | .error e table => .error e { net with table }

def ofExcept {α : Type} : Except Error α → NetM α
  | .ok x => pure x
  | .error e => throw e

def report (message : String) : NetM Unit :=
  modify fun net =>
    { net with journal := { net.journal with messages := net.journal.messages.push message } }

/-- Moves a value, as the journal records. -/
def callTransfer (v : Value) (device : String) : NetM Value := do
  modify fun net =>
    { net with journal := { net.journal with transfers := net.journal.transfers.push (device, v) } }
  ofExcept ((← get).transfer v device)

def recordTransfer : NetM Unit := modify fun net => { net with profile := net.profile.recordTransfer }

/-! ### Names and slots -/

def forwardOrder (net : Net) : List String := net.schedule.forward.map (·.name)

def backwardOrder (net : Net) : List String := net.schedule.backward.map (·.name)

def slotName (net : Net) (slot : Slot) : String :=
  ((net.table.at? slot).map fun v => v.info.name).getD ""

def terminals (net : Net) : List String := net.schedule.terminals.map net.slotName

def inputs (net : Net) : List String := net.schedule.inputSlots.map (·.1)

/-- The slot that a name or a number stands for. -/
def slotOfKey (net : Net) (key : Value) : Except Error Slot :=
  match key with
  | .text name => net.schedule.slotOf name
  | .int k => if 0 ≤ k && k < net.table.size then .ok k else .error (.noSlot key)
  | _ => .error (.noSlot key)

/-! ### Values and derivatives -/

def getValue (key : Value) : NetM Value := do
  let slot ← ofExcept ((← get).slotOfKey key)
  onTable (VariableTable.getValue slot)

/-- Leaves a value for the next evaluation to bind. -/
def stage (slot : Slot) (v : Value) : NetM Unit :=
  modify fun net => { net with pending := (slot, v) :: net.pending.filter (·.1 != slot) }

/-- Overwrites a value; that of an input waits for the next evaluation. -/
def setValue (key v : Value) : NetM Unit := do
  let slot ← ofExcept ((← get).slotOfKey key)
  let x ← onTable (VariableTable.lookup slot)
  if x.info.kind = .input then stage slot v else onTable (VariableTable.putValue slot v)

def getDer (key : Value) : NetM Value := do
  let slot ← ofExcept ((← get).slotOfKey key)
  onTable (VariableTable.getDer slot)

def setDer (key der : Value) : NetM Unit := do
  let slot ← ofExcept ((← get).slotOfKey key)
  onTable (VariableTable.setDer slot der)

/-- Leaves values of inputs for the next evaluation to bind, one after the other. -/
def setInputs (values : Keywords) : NetM Unit := do
  let slots := (← get).schedule.inputSlots
  values.forM fun (name, v) =>
    match slots.lookup name with
    | some slot => stage slot v
    | none => throw (.notAnInput name)

/-- The values of the terminals by slot name. -/
def outputs (net : Net) : Keywords :=
  net.schedule.terminals.map fun slot =>
    (net.slotName slot, ((net.table.at? slot).map fun v => v.value).getD .none)

/-- One line of the overview of a net. -/
structure SlotRow where
  info : SlotInfo
  /-- The shape of the value, if there is a value. -/
  shape : Option Shape
  hasDer : Bool

/-- An overview of all slots. Reading it adds up derivatives. -/
def describe : NetM (List SlotRow) := do
  (← get).table.entries.toList.mapM fun v => do
    let der ← onTable (VariableTable.getDer v.info.index)
    return { info := v.info, shape := if v.value.isNone then none else some v.value.shape,
             hasDer := !der.isZero }

/-! ### Placement -/

/-- Moves a flagged parameter's value and derivative. -/
def moveParam (device : String) (slot : Slot) : NetM Unit := do
  let v ← onTable (VariableTable.lookup slot)
  if v.info.devicePlacement && v.info.kind = .param then
    if !v.value.isNone then
      let x ← callTransfer v.value device
      onTable (VariableTable.putValue slot x)
      recordTransfer
    let der ← onTable (VariableTable.getDer v.info.index)
    if !der.isZero then
      let x ← callTransfer der device
      onTable (VariableTable.setDer v.info.index x)

/-- Makes a device the place of flagged variables: parameters move now, inputs when they are bound,
constants when they are next used. A backward pass needs a new forward pass afterwards. -/
def move (label : NodeRef → String) (device : Value) : NetM Unit := do
  if (← get).evaluating then throw .moveWhileEvaluating
  let device := Device.normalize label device
  (List.range (← get).table.size).forM fun k => moveParam device k
  modify fun net => { net with device, placed := [], backwardReady := false }
  report ("Moved Net to `" ++ device ++ "`.")

end Net

end Backprop
