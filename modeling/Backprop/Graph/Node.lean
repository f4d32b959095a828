import Backprop.Error
/-!
Nodes: recorded operation calls, inputs, parameters, and selectors of further outputs.
-/

namespace Backprop

/-- How a solver outside the library treats a parameter. -/
inductive TrainMethod where
  | gradient | average | none
deriving DecidableEq, Repr

namespace TrainMethod

def name : TrainMethod → String
  | gradient => "gradient"
  | average => "average"
  | none => "none"

def ofName? (s : String) : Option TrainMethod :=
  [gradient, average, none].find? (·.name == s)

end TrainMethod

/-- What a parameter holds besides its place in the graph. -/
structure ParamData where
  value : Value
  learningRate : Value := .float 1.0
  weightDecay : Value := .float 1.0
  trainMethod : TrainMethod := .gradient

inductive Role where
  | operation
  /-- A placeholder that every evaluation binds anew. -/
  | input
  /-- A learnable value that outlives evaluations. -/
  | param (data : ParamData)
  /-- The output with this number of the node that is the first argument. -/
  | selector (output : Nat)

structure Node where
  kind : String
  args : List Value := []
  kwargs : Keywords := []
  outputs : Nat := 1
  name : Option String := none
  requiresGradient : Bool := false
  devicePlacement : Bool := false
  role : Role := .operation

namespace Node

instance : Inhabited Node := ⟨{ kind := "" }⟩

def isInput (n : Node) : Bool :=
  match n.role with
  | .input => true
  | _ => false

def isParam (n : Node) : Bool :=
  match n.role with
  | .param _ => true
  | _ => false

def isSelector (n : Node) : Bool :=
  match n.role with
  | .selector _ => true
  | _ => false

/-- Inputs and parameters compute nothing. -/
def isLeaf (n : Node) : Bool := n.isInput || n.isParam

/-- Whether the node runs a kernel. -/
def isOperation (n : Node) : Bool := !n.isLeaf && !n.isSelector

/-- The nodes among the arguments, positional ones first. -/
def inputs (n : Node) : List NodeRef :=
  n.args.filterMap Value.node? ++ n.kwargs.filterMap fun (_, v) => v.node?

/-- The node that a selector selects from: its first argument, which has to be a node. -/
def parent (n : Node) : Except Error NodeRef :=
  match n.args with
  | .node p :: _ => .ok p
  | _ :: _ => .error .noAxes
  | [] => .error .outOfRange

def className (n : Node) : String :=
  match n.role with
  | .operation => "Node"
  | .input => "Input"
  | .param _ => "Param"
  | .selector _ => "Selector"

/-- The text that a node is shown as. -/
def label (n : Node) (handle : Nat) : String :=
  n.className ++ "(" ++ n.name.getD "<unnamed>" ++ ", op=" ++ Text.quoted n.kind ++ ", handle="
    ++ toString handle ++ ")"

end Node

end Backprop
