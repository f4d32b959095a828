import Backprop.Graph.Workspace
/-!
Building expressions. The operands of a call alone say what is to be recorded; the graph that it is
recorded in is that of its node operands.

* `Request` is a call to be recorded; `Request.ofOperator`, `ofFunction` and `ofMethod` say which one
  an expression stands for.
* `Workspace.record` records it.
-/

namespace Backprop

/-- The graph that all nodes among the operands belong to. -/
def graphOf (operands : List Value) : Except Error Nat :=
  match operands.filterMap Value.node? with
  | [] => .error .noOperand
  | n :: rest => if rest.all (·.graph == n.graph) then .ok n.graph else .error .differentGraphs

namespace Workspace

/-- A choice of the number of outputs. -/
def countOption : Option Value → Except Error (Option Int)
  | none | some .none => .ok none
  | some (.bool b) => .ok (some (if b then 1 else 0))
  | some v =>
    match v.wholeNumber? with
    | some n => .ok (some n)
    | none => .error .operandType

def nameOption : Option Value → Except Error (Option String)
  | none | some .none => .ok none
  | some (.text s) => .ok (some s)
  | some _ => .error .operandType

def flagOption : Option Value → Except Error Bool
  | none => .ok false
  | some v => v.truth

/-- Keywords that are choices for the call and not arguments of the operation. The graph and the
operation cannot be given by keyword. -/
def callOptions (kwargs : Keywords) : Except Error (CallOptions × Keywords) := do
  if kwargs.any fun (k, _) => k == "self" || k == "op" then throw .badCall
  let outputs ← countOption (kwargs.lookup "num_outputs")
  let name ← nameOption (kwargs.lookup "name")
  let devicePlacement ← flagOption (kwargs.lookup "device_placement")
  let rest := kwargs.filter fun (k, _) =>
    k != "num_outputs" && k != "name" && k != "device_placement"
  return ({ outputs, name, devicePlacement }, rest)

end Workspace

/-- A call to be recorded: the graph it belongs to, the operation, and what it is called with. -/
structure Request where
  graph : Nat
  kind : String
  args : List Value
  kwargs : Keywords := []
  options : CallOptions := {}

namespace Request

/-- An operator belongs to the graph of its first node operand. It keeps the operands' order. -/
def ofOperator (kind : String) (operands : List Value) (kwargs : Keywords := []) :
    Except Error Request :=
  match operands.filterMap Value.node? with
  | n :: _ => .ok { graph := n.graph, kind, args := operands, kwargs }
  | [] => .error .operandType

/-- A call in a given graph. Some keywords are choices for the call. -/
def inGraph (graph : Nat) (kind : String) (args : List Value) (kwargs : Keywords) :
    Except Error Request := do
  let (options, kwargs) ← Workspace.callOptions kwargs
  return { graph, kind, args, kwargs, options }

/-- A call belongs to the graph of all its node operands. -/
def ofCall (kind : String) (args : List Value) (kwargs : Keywords) : Except Error Request := do
  if (kwargs.lookup "op").isSome then throw .badCall
  inGraph (← graphOf (args ++ kwargs.map (·.2))) kind args kwargs

/-- A reduction of a node, with its options as keywords. -/
def ofReduction (kind : String) (args : List Value) (kwargs : Keywords) : Except Error Request := do
  match ← bindArguments
      [required "x", optional "axis" .none, optional "keepdims" (.bool false)] args kwargs with
  | [.node n, axis, keep] =>
    return { graph := n.graph, kind, args := [.node n], kwargs := [("axis", axis), ("keepdims", keep)] }
  | _ => throw .noAxes

/-- A node under another shape, given as one sequence or as separate lengths. -/
def ofReshape (x : Value) (shape : List Value) : Except Error Request :=
  let lengths :=
    match shape with
    | [.list l] | [.tuple l] => l
    | l => l
  match x with
  | .node n => .ok { graph := n.graph, kind := "reshape", args := [.node n, .tuple lengths] }
  | _ => .error .noAxes

def ofTranspose (x : Value) : Except Error Request :=
  match x with
  | .node n => .ok { graph := n.graph, kind := "transpose", args := [.node n] }
  | _ => .error .noAxes

/-- An item of a node. -/
def ofItem (x index : Value) : Except Error Request :=
  match x with
  | .node n => .ok { graph := n.graph, kind := "getitem", args := [.node n, index] }
  | _ => .error .operandType

/-- A building function by its name: one of one operand that is named like its operation, or one of
those with a signature of their own. -/
def ofFunction (name : String) (args : List Value) (kwargs : Keywords) : Except Error Request := do
  let bind (names : List String) := bindArguments (names.map required) args kwargs
  match name with
  | "apply" =>
    match args with
    | .text kind :: rest => ofCall kind rest kwargs
    | _ => throw .badCall
  | "sum" | "mean" => ofReduction name args kwargs
  | "reshape" =>
    match ← bind ["x", "shape"] with
    | [x, s] => ofReshape x [s]
    | _ => throw .badCall
  | "transpose" =>
    match ← bind ["x"] with
    | [x] => ofTranspose x
    | _ => throw .badCall
  | "matmul" => ofCall name (← bind ["a", "b"]) []
  | _ => ofCall name (← bind ["x"]) []

/-- A method of the first argument by its name. -/
def ofMethod (name : String) (args : List Value) (kwargs : Keywords) : Except Error Request :=
  match name with
  | "reshape" =>
    if kwargs.isEmpty then ofReshape (args.getD 0 .none) (args.drop 1) else .error .badCall
  | _ => ofReduction name args kwargs

end Request

namespace Workspace

def record (ws : Workspace) (r : Request) : Except Error (Workspace × List NodeRef) :=
  ws.applyIn r.graph r.kind r.args r.kwargs r.options

/-- Records an operator. -/
def operator (ws : Workspace) (kind : String) (operands : List Value) (kwargs : Keywords := []) :
    Except Error (Workspace × List NodeRef) := do
  ws.record (← Request.ofOperator kind operands kwargs)

/-- Records a call in the graph that all its node operands belong to. -/
def apply (ws : Workspace) (kind : String) (args : List Value) (kwargs : Keywords) :
    Except Error (Workspace × List NodeRef) := do
  ws.record (← Request.ofCall kind args kwargs)

def transpose (ws : Workspace) (x : Value) : Except Error (Workspace × List NodeRef) := do
  ws.record (← Request.ofTranspose x)

def itemOf (ws : Workspace) (x index : Value) : Except Error (Workspace × List NodeRef) := do
  ws.record (← Request.ofItem x index)

/-- Calls a building function by its name. -/
def callFunction (ws : Workspace) (name : String) (args : List Value) (kwargs : Keywords) :
    Except Error (Workspace × List NodeRef) := do
  ws.record (← Request.ofFunction name args kwargs)

/-- Calls a method of the first argument by its name. -/
def callMethod (ws : Workspace) (name : String) (args : List Value) (kwargs : Keywords) :
    Except Error (Workspace × List NodeRef) := do
  ws.record (← Request.ofMethod name args kwargs)

end Workspace

end Backprop
