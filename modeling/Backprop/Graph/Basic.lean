import Backprop.Graph.Node
import Backprop.Kernel.Builtin
/-!
Graphs: arenas of nodes with the registry that their operations are looked up in. A node's handle
is its place in the arena, so nodes refer to earlier nodes only.

* `Graph.apply` records a call of an operation instead of running it.
* Arguments are nodes of the same graph or constants that hold no nodes.
-/

namespace Backprop

structure Graph where
  /-- The number by which references name this graph. -/
  id : Nat
  nodes : Array Node := #[]
  registry : Registry := .builtin

/-- Choices for a recorded call. The number of outputs is the operation's own unless given. -/
structure CallOptions where
  outputs : Option Int := none
  name : Option String := none
  devicePlacement : Bool := false

namespace Graph

def size (g : Graph) : Nat := g.nodes.size

def ref (g : Graph) (handle : Nat) : NodeRef := ⟨g.id, handle⟩

/-- Adds a node at the end of the arena. -/
def push (g : Graph) (n : Node) : Graph × NodeRef :=
  ({ g with nodes := g.nodes.push n }, g.ref g.size)

mutual

/-- Constants may nest lists, tuples and dictionaries, but no nodes inside them. -/
def checkConstant : Value → Except Error Unit
  | .node n => .error (.nestedNode n)
  | .objects .. => .error .objectArray
  | .foreign t => .error (.unsupportedArgument t)
  | .list l | .tuple l => checkConstants l
  | .dict l => checkEntries l
  | .none | .bool _ | .int _ | .float _ | .complex _ | .text _ | .bytes _ | .slice .. | .ellipsis
  | .array _ | .scalar _ => .ok ()

def checkConstants : List Value → Except Error Unit
  | [] => .ok ()
  | v :: l => do checkConstant v; checkConstants l

def checkEntries : List (Value × Value) → Except Error Unit
  | [] => .ok ()
  | (_, v) :: l => do checkConstant v; checkEntries l

end

/-- An argument is a node of this graph or a constant. -/
def checkArgument (g : Graph) : Value → Except Error Unit
  | .node n => if n.graph = g.id then .ok () else .error (.otherGraph n)
  | v => checkConstant v

/-- Adds a placeholder. -/
def input (g : Graph) (name : Option String) (requiresGradient devicePlacement : Bool) :
    Graph × NodeRef :=
  g.push { kind := "input", name, requiresGradient, devicePlacement, role := .input }

/-- Adds a parameter with a constant value. -/
def param (g : Graph) (value : Value) (name : Option String) (learningRate weightDecay : Value)
    (trainMethod : String) (devicePlacement : Bool) : Except Error (Graph × NodeRef) := do
  if let .node n := value then throw (.paramFromNode n)
  checkConstant value
  match TrainMethod.ofName? trainMethod with
  | none => throw (.unknownTrainMethod name trainMethod)
  | some trainMethod =>
    return g.push { kind := "param", name, requiresGradient := true, devicePlacement,
                    role := .param { value, learningRate, weightDecay, trainMethod } }

/-- Kinds of nodes that no operation call makes. -/
def reservedKinds : List String := ["input", "param", "select"]

/-- Adds one selector for each output from `first` on. -/
def pushSelectors (g : Graph) (parent : NodeRef) (first count : Nat) : Graph × List NodeRef :=
  match count with
  | 0 => (g, [])
  | count + 1 =>
    let (g, s) := g.push { kind := "select", args := [.node parent], role := .selector first }
    let (g, rest) := g.pushSelectors parent (first + 1) count
    (g, s :: rest)

/-- Records a call. The result is the new node, and a selector for every further output. -/
def apply (g : Graph) (kind : String) (args : List Value) (kwargs : Keywords)
    (options : CallOptions := {}) : Except Error (Graph × List NodeRef) := do
  if reservedKinds.contains kind then throw (.reservedKind kind)
  let operation ← g.registry.get kind
  args.forM g.checkArgument
  kwargs.forM fun (_, v) => g.checkArgument v
  let outputs := options.outputs.getD operation.outputs
  if outputs < 1 then throw (.outputCount outputs)
  let outputs := outputs.toNat
  let (g, node) := g.push { kind, args, kwargs, outputs, name := options.name,
                            devicePlacement := options.devicePlacement }
  let (g, selectors) := g.pushSelectors node 1 (outputs - 1)
  return (g, node :: selectors)

/-- The node at a handle; negative ones count from the end. -/
def node (g : Graph) (handle : Int) : Except Error (Nat × Node) :=
  match locate g.size handle with
  | some k =>
    match g.nodes[k]? with
    | some n => .ok (k, n)
    | none => .error .outOfRange
  | none => .error .outOfRange

/-- The distinct inputs of a node, in the order they are met. -/
def predecessors (g : Graph) (handle : Int) : Except Error (List Nat) := do
  let (_, n) ← g.node handle
  return (n.inputs.map (·.handle)).eraseDups

/-- The handles of the nodes that take the node at a handle as an input. -/
def successors (g : Graph) (handle : Int) : List Nat :=
  (g.nodes.toList.zipIdx.filter fun (n, _) =>
    n.inputs.any fun i => (i.handle : Int) == handle).map (·.2)

/-- The names that nodes carry, each once. -/
def names (g : Graph) : List String := (g.nodes.toList.filterMap (·.name)).eraseDups

/-- The first node with a name, or the first without one. -/
def find (g : Graph) (name : Option String) : Except Error Nat :=
  match g.nodes.findIdx? (·.name == name) with
  | some k => .ok k
  | none => .error (.noNodeNamed (Error.shownName name))

/-- Gives a node another name, or none. -/
def rename (g : Graph) (handle : Nat) (name : Option String) : Graph :=
  { g with nodes := g.nodes.modify handle fun n => { n with name } }

/-- Overwrites the positional arguments of a node, unchecked. -/
def setArgs (g : Graph) (handle : Nat) (args : List Value) : Graph :=
  { g with nodes := g.nodes.modify handle fun n => { n with args } }

end Graph

end Backprop
