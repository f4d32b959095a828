import Backprop.Graph.Workspace
/-!
The nodes that given ones depend on, and the order in which they are evaluated: of all nodes whose
inputs have been listed, the one with the least handle comes next.

* `Workspace.reachable` follows input edges and meets every handle once.
* `Workspace.topologicalOrder` fails exactly when something depends on itself.
-/

namespace Backprop

namespace Workspace

def inputs (ws : Workspace) (n : NodeRef) : List NodeRef := (ws.node n).inputs

/-- More than any handle in the workspace. -/
def handleBound (ws : Workspace) : Nat := ws.graphs.foldl (fun b g => max b g.size) 0

/-- Visits the nodes on the stack and what they depend on, depth first. `unmet` are the handles not
met so far; a node is passed over when its handle was met before. -/
def visit (ws : Workspace) (unmet : List Nat) (stack : List NodeRef) : List NodeRef :=
  match stack with
  | [] => []
  | n :: stack =>
    if n.handle ∈ unmet then
      n :: visit ws (unmet.erase n.handle) (ws.inputs n ++ stack)
    else visit ws unmet stack
termination_by (unmet.length, stack.length)
decreasing_by
  · have := List.length_pos_of_mem ‹n.handle ∈ unmet›
    have := List.length_erase_of_mem ‹n.handle ∈ unmet›
    exact Prod.Lex.left _ _ (by omega)
  · exact Prod.Lex.right _ (by simp)

/-- The nodes that the terminals depend on, the terminals included. -/
def reachable (ws : Workspace) (terminals : List NodeRef) : List NodeRef :=
  ws.visit (List.range ws.handleBound) terminals

/-- Whether every input of a node has been listed. -/
def isReady (ws : Workspace) (listed : List Nat) (n : NodeRef) : Bool :=
  (ws.inputs n).all fun i => listed.contains i.handle

/-- Lists the waiting nodes, always the first one that is ready. -/
def listReady (ws : Workspace) (listed : List Nat) (waiting : List NodeRef) :
    Except Error (List NodeRef) :=
  match _h : waiting.find? (ws.isReady listed) with
  | some n => do return n :: (← ws.listReady (n.handle :: listed) (waiting.erase n))
  | none => if waiting.isEmpty then .ok [] else .error .cycle
termination_by waiting.length
decreasing_by
  have := List.mem_of_find?_eq_some _h
  have := List.length_erase_of_mem this
  have := List.length_pos_of_mem ‹n ∈ waiting›
  omega

/-- Nodes by ascending handle. -/
def byHandle (l : List NodeRef) : List NodeRef := l.mergeSort fun a b => a.handle ≤ b.handle

/-- Everything that the terminals depend on, each node after its inputs. -/
def topologicalOrder (ws : Workspace) (terminals : List NodeRef) : Except Error (List NodeRef) :=
  ws.listReady [] (byHandle (ws.reachable terminals))

/-- The inputs and parameters among nodes. -/
def leaves (ws : Workspace) (order : List NodeRef) : List NodeRef :=
  order.filter fun n => (ws.node n).isLeaf

/-- The nodes that the terminals depend on with a given kind, name and property, in order. -/
def findNodes (ws : Workspace) (terminals : List NodeRef) (kind name : Option String)
    (p : Node → Bool) : Except Error (List NodeRef) := do
  let order ← ws.topologicalOrder terminals
  return order.filter fun n =>
    let node := ws.node n
    kind.all (· == node.kind) && (name.isNone || name == node.name) && p node

end Workspace

/-- Values that are to be nodes. -/
def nodesOf (vs : List Value) : Except Error (List NodeRef) :=
  vs.mapM fun v =>
    match v.node? with
    | some n => .ok n
    | none => .error .noAxes

end Backprop
