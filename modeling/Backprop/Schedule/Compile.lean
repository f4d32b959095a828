import Backprop.Schedule.Liveness
import Backprop.Graph.Naming
/-!
Compiling the graph that terminals depend on into a schedule.

* Nodes are ordered and unnamed ones are named; names have to be distinct.
* An operation requires a gradient if a positional argument does; parameters and flagged inputs do.
* Every output of a node gets a slot of its own, and a selector shares its parent's.
-/

namespace Backprop

/-- Which nodes lie on the way to a gradient, by handle. -/
abbrev GradientMarks := List (Nat × Bool)

namespace GradientMarks

def get (marks : GradientMarks) (handle : Nat) : Except Error Bool :=
  match marks.lookup handle with
  | some b => .ok b
  | none => .error .missingKey

/-- Whether one of the references is marked. -/
def any (marks : GradientMarks) (l : List NodeRef) : Bool :=
  l.any fun n => (marks.lookup n.handle).getD false

/-- The mark of a node, given those of its inputs. -/
def ofNode (marks : GradientMarks) (node : Node) : Except Error Bool :=
  match node.role with
  | .param _ => .ok true
  | .input => .ok node.requiresGradient
  | .selector _ => do marks.get (← node.parent).handle
  | .operation => .ok (marks.any (node.args.filterMap Value.node?))

/-- The marks of an order of nodes. -/
def ofOrder (ws : Workspace) (marks : GradientMarks) : List NodeRef → Except Error GradientMarks
  | [] => .ok marks
  | n :: rest => do
    let mark ← marks.ofNode (ws.node n)
    ofOrder ws (marks ++ [(n.handle, mark)]) rest

end GradientMarks

/-- Where the outputs of nodes are kept. -/
structure Layout where
  /-- The slots of each node that is no selector, by handle, one for each output. -/
  places : List (Nat × List Slot) := []
  /-- The slots so far, without their uses. -/
  infos : List SlotInfo := []

namespace Layout

def slotsOf (l : Layout) (handle : Nat) : Except Error (List Slot) :=
  match l.places.lookup handle with
  | some slots => .ok slots
  | none => .error .missingKey

/-- The slot that holds the value of a node. -/
def slotOf (l : Layout) (ws : Workspace) (n : NodeRef) : Except Error Slot := do
  let node := ws.node n
  let (handle, output) ←
    match node.role with
    | .selector k => pure ((← node.parent).handle, k)
    | _ => pure (n.handle, 0)
  match (← l.slotsOf handle)[output]? with
  | some s => return s
  | none => throw .outOfRange

def slotKind (node : Node) : SlotKind :=
  match node.role with
  | .param _ => .param
  | .input => .input
  | _ => .op

/-- The selectors among nodes, by the handle of their parent and their output. -/
def selectors (ws : Workspace) (order : List NodeRef) :
    Except Error (List ((Nat × Nat) × NodeRef)) :=
  order.foldlM (fun l n =>
    let node := ws.node n
    match node.role with
    | .selector k => do return (((← node.parent).handle, k), n) :: l
    | _ => .ok l) []

/-- The name of an output's slot: the node's, its selector's, or one made from the node's. -/
def slotName (ws : Workspace) (selectors : List ((Nat × Nat) × NodeRef)) (n : NodeRef)
    (output : Nat) : String :=
  let shown (n : NodeRef) := Error.shownName (ws.name n)
  if output = 0 then shown n
  else
    match selectors.lookup (n.handle, output) with
    | some s => shown s
    | none => shown n ++ ":" ++ toString output

/-- Appends the slots of a node. -/
def push (l : Layout) (ws : Workspace) (selectors : List ((Nat × Nat) × NodeRef))
    (marks : GradientMarks) (n : NodeRef) : Layout :=
  let node := ws.node n
  if node.isSelector then l
  else
    let start := l.infos.length
    let outputs := List.range (if node.isLeaf then 1 else node.outputs)
    let info (output : Nat) : SlotInfo :=
      { index := (start + output : Nat), name := slotName ws selectors n output,
        handle := n.handle, kind := slotKind node, output, persistent := node.isParam,
        requiresGradient := marks.any [n], devicePlacement := node.devicePlacement }
    { places := l.places ++ [(n.handle, outputs.map fun k => ((start + k : Nat) : Slot))]
      infos := l.infos ++ outputs.map info }

end Layout

namespace Schedule

/-- An argument as a slot or a constant. -/
def resolve (ws : Workspace) (layout : Layout) : Value → Except Error Arg
  | .node n => do return .slot (← layout.slotOf ws n)
  | v => .ok (.const v)

/-- The positional arguments that are marked nodes, with their slots. -/
def gradientPositions (ws : Workspace) (layout : Layout) (marks : GradientMarks)
    (args : List Value) : Except Error (List (Nat × Slot)) :=
  args.zipIdx.foldlM (fun l (v, position) =>
    match v with
    | .node n =>
      if marks.any [n] then do return l ++ [(position, ← layout.slotOf ws n)] else .ok l
    | _ => .ok l) []

/-- The instruction of an operation node. -/
def instruction (ws : Workspace) (registry : Registry) (layout : Layout) (marks : GradientMarks)
    (index : Nat) (n : NodeRef) : Except Error Instruction := do
  let node := ws.node n
  let operation ← registry.get node.kind
  let requiresGradient := marks.any [n]
  if requiresGradient && !operation.differentiable then throw (.noBackward node.kind node.name)
  let gradientPositions ← gradientPositions ws layout marks node.args
  let args ← node.args.mapM (resolve ws layout)
  let kwargs ← node.kwargs.mapM fun (k, v) => do return (k, ← resolve ws layout v)
  return { index, handle := n.handle, name := Error.shownName node.name, operation, args, kwargs,
           outputs := ← layout.slotsOf n.handle, gradientPositions, requiresGradient,
           devicePlacement := node.devicePlacement }

/-- The name table after a name was entered; a name entered again points to its last slot. -/
def enterName (names : List (String × Slot)) (name : String) (slot : Slot) :
    List (String × Slot) :=
  if names.any (·.1 == name) then
    names.map fun p => if p.1 == name then (name, slot) else p
  else names ++ [(name, slot)]

/-- The slots whose values are kept: all outputs of a terminal, one for a selector, and the slots of
the names to keep. -/
def retainedSlots (ws : Workspace) (layout : Layout) (names : List (String × Slot))
    (terminals : List NodeRef) (keep : List String) : Except Error (List Slot) := do
  let ofTerminals ← terminals.mapM fun t =>
    if (ws.node t).isSelector then do return [← layout.slotOf ws t] else layout.slotsOf t.handle
  let ofNames ← keep.mapM fun name =>
    match names.lookup name with
    | some s => .ok s
    | none => .error (.cannotKeep name)
  return ofTerminals.flatten ++ ofNames

/-- The schedule of an order of named nodes. -/
def ofOrder (ws : Workspace) (registry : Registry) (order terminals : List NodeRef)
    (keep : List String) (naming : String) : Except Error Schedule := do
  let marks ← GradientMarks.ofOrder ws [] order
  let selectors ← Layout.selectors ws order
  let layout := order.foldl (fun l n => l.push ws selectors marks n) {}
  let operations := order.filter fun n => (ws.node n).isOperation
  let forward ← operations.zipIdx.mapM fun (n, i) => instruction ws registry layout marks i n
  let backward := (forward.filter (·.requiresGradient)).reverse
  let names := layout.infos.foldl (fun l s => enterName l s.name s.index) []
  let names ← order.foldlM (fun l n => do
    return enterName l (Error.shownName (ws.name n)) (← layout.slotOf ws n)) names
  let retained ← retainedSlots ws layout names terminals keep
  let slots := layout.infos.map fun s =>
    { s with retained := retained.contains s.index }.withUses forward backward
  return { nodes := order, forward, backward, slots, names,
           terminals := ← terminals.mapM (layout.slotOf ws),
           release := ← ReleasePlan.ofSlots slots forward.length backward.length, naming }

def summary (s : Schedule) : String :=
  s!"Compiled {s.nodes.length} nodes into {s.forward.length} forward / "
    ++ s!"{s.backward.length} backward instructions over {s.slots.length} slots."

end Schedule

/-- Nodes to compile for: one at least, all of one graph. -/
def checkTerminals (terminals : List Value) : Except Error (Nat × List NodeRef) := do
  if terminals.isEmpty then throw .noTerminals
  let nodes ← terminals.mapM fun v =>
    match v.node? with
    | some n => .ok n
    | none => .error (.notANode v.typeName)
  match nodes with
  | [] => throw .noTerminals
  | n :: rest =>
    if rest.all (·.graph == n.graph) then return (n.graph, nodes) else throw .terminalGraphs

/-- Choices for compiling. Operations are looked up in the graph's own registry unless another one
that holds operations is given. -/
structure CompileOptions where
  keep : List String := []
  naming : String := "default"
  registry : Option Registry := none

namespace Workspace

def registryFor (ws : Workspace) (id : Nat) (registry : Option Registry) : Registry :=
  match registry with
  | some r => if r.isEmpty then (ws.graph id).registry else r
  | none => (ws.graph id).registry

/-- Compiles for terminals. Names that nodes were given stay given if a later step fails. -/
def compile (ws : Workspace) (terminals : List Value) (options : CompileOptions := {}) :
    Except Error Schedule × Workspace :=
  let ordered : Except Error (Nat × List NodeRef × List NodeRef) := do
    let (id, nodes) ← checkTerminals terminals
    return (id, nodes, ← ws.topologicalOrder nodes)
  match ordered with
  | .error e => (.error e, ws)
  | .ok (id, nodes, order) =>
    match ws.resolveNames id order options.naming with
    | (.error e, ws) => (.error e, ws)
    | (.ok _, ws) =>
      let compiled : Except Error Schedule := do
        let duplicates := (ws.duplicateNames order).map (·.1)
        if !duplicates.isEmpty then
          throw (.duplicateNames (duplicates.mergeSort fun a b => decide (a ≤ b)))
        Schedule.ofOrder ws (ws.registryFor id options.registry) order nodes options.keep
          options.naming
      match compiled with
      | .error e => (.error e, ws)
      | .ok s => (.ok s, ws.report s.summary)

end Workspace

end Backprop
