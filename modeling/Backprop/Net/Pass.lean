import Backprop.Net.Basic
/-!
Forward and backward passes. A forward pass binds the inputs and runs every instruction; a backward
pass seeds derivatives and runs the instructions on the way to a gradient in reverse.

* One pass runs at a time; a kernel or an observer that starts another is refused.
* A pass that fails leaves the net dirty, with what was done so far.
* After each instruction the storage that the plan lists is given back.
-/

namespace Backprop

/-- How a net is evaluated. -/
inductive Mode where
  /-- Forward and backward. -/
  | normal
  | forward
  /-- Forward, with the test kernels of operations that have one. -/
  | test
deriving DecidableEq, Repr

namespace Mode

def ofName (s : String) : Except Error Mode :=
  if s = "normal" then .ok normal
  else if s = "forward" then .ok forward
  else if s = "test" then .ok test
  else .error (.unknownMode s)

end Mode

structure PassOptions where
  inputs : Keywords := []
  mode : String := "normal"
  keepForBackward : Bool := true
  /-- The derivatives of parameters are added to, not started anew. -/
  accumulate : Bool := false

namespace Net

/-- When a pass lets code from outside act: a kernel is about to compute its result, or there is an
event to tell of. -/
inductive Signal where
  | kernel (instruction : String) (args : List Value) (kwargs : Keywords)
  | event (e : Event)

/-- What code from outside does to the net when a pass lets it act. -/
abbrev Notify := Signal → NetM Unit

def aborted (pass place : String) (net : Net) : Net :=
  { net with
    dirty := true
    evaluating := false
    journal := { net.journal with
      messages := net.journal.messages.push (pass ++ " pass aborted at `" ++ place ++ "`.") } }

/-- A part of a pass, which ends the pass if it fails. -/
def attempt {α : Type} (pass place : String) (m : NetM α) : NetM α := fun net =>
  match m net with
  | .ok x net => .ok x net
  | .error e net => .error e (aborted pass place net)

/-- Starts a pass, unless one is running. -/
def enter : NetM Unit := do
  if (← get).evaluating then throw .alreadyEvaluating
  modify fun net => { net with evaluating := true, backwardReady := false }

def leave (backwardReady : Bool) : NetM Unit :=
  modify fun net => { net with evaluating := false, backwardReady }

/-- No node was renamed since the net was built. -/
def checkStructure (ws : Workspace) : NetM Unit := do
  let net ← get
  if net.config.checkStructure then
    net.compiledNames.forM fun (n, name) =>
      if ws.name n = name then pure ()
      else throw (.renamed (Error.shownName name) (ws.name n))

/-- Puts a waiting value into the slot of an input, on the device if it is placed there. -/
def bindInput (slot : Slot) (v : Value) : NetM Unit := do
  let x ← onTable (VariableTable.lookup slot)
  let net ← get
  let v ←
    if x.info.devicePlacement && net.device != Device.host then do
      let v ← callTransfer v net.device
      recordTransfer
      pure v
    else pure v
  onTable (VariableTable.putValue slot v)

/-- Binds every input to its waiting value; the names of those without one are the result. -/
def bindEach (pending : List (Slot × Value)) : List (String × Slot) → NetM (List String)
  | [] => return []
  | (name, slot) :: rest => do
    match pending.lookup slot with
    | none | some .none => return name :: (← bindEach pending rest)
    | some v =>
      bindInput slot v
      bindEach pending rest

/-- Binds the inputs; no value waits afterwards. -/
def bindInputs : NetM Unit := do
  let net ← get
  set { net with pending := [] }
  let missing ← bindEach net.pending net.schedule.inputSlots
  if !missing.isEmpty then throw (.unboundInputs missing)

/-- A constant on the device. Only arrays are moved. -/
def place (v : Value) : NetM Value := do
  if v.isMovable then
    recordTransfer
    callTransfer v (← get).device
  else return v

/-- The value of a constant, and nothing for a slot. -/
def constantOf : Arg → Value
  | .slot _ => .none
  | .const v => v

/-- The constants of an instruction where it runs: on the device if it is placed there. They are
moved at its first use after a move of the net. -/
def constants (i : Instruction) : NetM (List Value × Keywords) := do
  let args := i.args.map constantOf
  let kwargs := i.kwargs.map fun (k, a) => (k, constantOf a)
  let net ← get
  if i.devicePlacement && net.device != Device.host && i.hasConstants then
    match net.placed.lookup i.index with
    | some placed => return placed
    | none =>
      let args ← args.mapM place
      let kwargs ← kwargs.mapM fun (k, v) => do return (k, ← place v)
      modify fun net => { net with placed := (i.index, args, kwargs) :: net.placed }
      return (args, kwargs)
  else return (args, kwargs)

/-- An argument's value: that of its slot, or the constant. -/
def valueOf (a : Arg) (constant : Value) : NetM Value :=
  match a with
  | .slot s => onTable (VariableTable.getValue s)
  | .const _ => pure constant

/-- The arguments that an instruction runs on. -/
def gather (i : Instruction) : NetM (List Value × Keywords) := do
  let (args, kwargs) ← constants i
  let args ← (i.args.zip args).mapM fun (a, v) => valueOf a v
  let kwargs ← (i.kwargs.zip kwargs).mapM fun ((k, a), _, v) => do return (k, ← valueOf a v)
  return (args, kwargs)

/-- The outputs in a result: the result itself, or as many as there are slots. -/
def splitOutputs (i : Instruction) (result : Value) : Except Error (List Value) :=
  if i.outputs.length = 1 then .ok [result]
  else
    match result with
    | .tuple l | .list l =>
      if l.length = i.outputs.length then .ok l
      else .error (.outputMismatch i.kind i.name i.outputs.length)
    | _ => .error (.outputMismatch i.kind i.name i.outputs.length)

def recordLive : NetM Unit :=
  modify fun net =>
    { net with
      profile := net.profile.recordLive net.table.liveSlots.length net.table.liveBytes }

/-- Gives back values, if storage is conserved. -/
def releaseValues (slots : List Slot) : NetM Unit := do
  if (← get).config.conserveMemory then
    slots.forM fun s => onTable (VariableTable.release s)

def releaseDers (slots : List Slot) : NetM Unit := do
  if (← get).config.conserveMemory then
    slots.forM fun s => onTable (VariableTable.releaseDer s)

/-- Runs a forward instruction. Durations are not measured. -/
def forwardStep (notify : Notify) (testing : Bool) (released : List Slot) (i : Instruction) :
    NetM Unit := do
  let (args, kwargs) ← gather i
  notify (.kernel i.name args kwargs)
  let result ← ofExcept (i.operation.forwardKernel testing args kwargs)
  modify fun net =>
    { net with profile := (net.profile.recordEvent i.kind 0).recordForwardStep }
  let outputs ← ofExcept (splitOutputs i result)
  (i.outputs.zip outputs).forM fun (s, v) => onTable (VariableTable.putValue s v)
  notify (.event (.forward i.name outputs))
  recordLive
  releaseValues released

/-- Runs forward instructions, each with the slots that are given back after it. -/
def forwardSteps (notify : Notify) (testing : Bool) (released : List (List Slot)) :
    List Instruction → NetM Unit
  | [] => return
  | i :: rest => do
    attempt "Forward" i.name (forwardStep notify testing (released.getD i.index []) i)
    forwardSteps notify testing released rest

/-- What happens before the first forward instruction. -/
def prepare (ws : Workspace) (options : PassOptions) : NetM Unit := do
  checkStructure ws
  if !options.inputs.isEmpty then setInputs options.inputs
  onTable (VariableTable.reset options.accumulate)
  bindInputs
  modify fun net => { net with dirty := false }

/-- Runs a forward pass. One in test mode is never followed by a backward pass. -/
def forwardPass (ws : Workspace) (notify : Notify) (options : PassOptions) : NetM Unit := do
  let mode ← ofExcept (Mode.ofName options.mode)
  let keep := options.keepForBackward && mode != .test
  enter
  attempt "Forward" "<setup>" (prepare ws options)
  let schedule := (← get).schedule
  let released := if keep then schedule.release.forward else schedule.release.forwardOnly
  forwardSteps notify (mode == .test) released schedule.forward
  leave keep
  notify (.event .finished)

/-- Adds the seed to the derivative of the last terminal, or the seeds of a dictionary to those of
the variables it names. -/
def seedDers (ws : Workspace) (seed : Value) : NetM Unit := do
  let net ← get
  let seed := if seed.isNone then net.config.defaultSeed else seed
  match seed with
  | .dict entries =>
    entries.forM fun (key, v) => do
      let slot ←
        match key with
        | .text name => ofExcept (net.schedule.slotOf name)
        | _ => throw (.noVariable (key.plainText ws.label))
      onTable (VariableTable.accumulate slot v none)
  | v =>
    match net.schedule.terminals.getLast? with
    | some slot => onTable (VariableTable.accumulate slot v none)
    | none => throw .outOfRange

/-- The derivatives that a backward kernel returned, by argument position. -/
def derivativesOf : Value → List Value
  | .none => []
  | .tuple l | .list l => l
  | v => [v]

/-- Sends the derivative of an instruction's result back to its arguments. -/
def propagate (notify : Notify) (i : Instruction) (dy : Value) : NetM Unit := do
  let (args, kwargs) ← gather i
  let kernel ←
    match i.operation.backward with
    | some kernel => pure kernel
    | none => throw .badCall
  notify (.kernel i.name (args ++ [dy]) kwargs)
  let result ← ofExcept (kernel (args ++ [dy]) kwargs)
  modify fun net =>
    { net with profile := (net.profile.recordEvent (i.kind ++ ".backward") 0).recordBackwardStep }
  let ders := derivativesOf result
  i.gradientPositions.forM fun (position, slot) =>
    match ders[position]? with
    | none | some .none => pure ()
    | some der => onTable (VariableTable.accumulate slot der (some ⟨i.index, position⟩))
  notify (.event (.backward i.name ders))

/-- Runs a backward instruction, unless nothing has reached its outputs. -/
def backwardStep (notify : Notify) (values ders : List Slot) (i : Instruction) : NetM Unit := do
  let douts ← i.outputs.mapM fun s => onTable (VariableTable.getDer s)
  if douts.any fun d => !d.isZero then
    propagate notify i (match douts with
      | [d] => d
      | ds => .tuple ds)
  recordLive
  releaseValues values
  releaseDers ders

/-- Runs backward instructions from a step on. -/
def backwardSteps (notify : Notify) (release : ReleasePlan) (step : Nat) :
    List Instruction → NetM Unit
  | [] => return
  | i :: rest => do
    attempt "Backward" i.name (backwardStep notify (release.backwardValues.getD step [])
      (release.backwardDers.getD step []) i)
    backwardSteps notify release (step + 1) rest

/-- Runs a backward pass after a forward pass that was kept for it. -/
def backwardPass (ws : Workspace) (notify : Notify) (seed : Value) : NetM Unit := do
  if !(← get).backwardReady then throw .notReady
  enter
  attempt "Backward" "<seed>" (seedDers ws seed)
  let schedule := (← get).schedule
  backwardSteps notify schedule.release 0 schedule.backward
  leave false
  notify (.event .finished)

/-- Runs a forward pass and, in normal mode, a backward pass. -/
def evaluatePass (ws : Workspace) (notify : Notify) (options : PassOptions) (seed : Value) :
    NetM Unit := do
  let mode ← ofExcept (Mode.ofName options.mode)
  report ("Evaluating Net in `" ++ options.mode ++ "` mode.")
  forwardPass ws notify { options with keepForBackward := mode == .normal }
  if mode = .normal then backwardPass ws notify seed

end Net

end Backprop
