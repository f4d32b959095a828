import Backprop.Graph.Basic
/-!
The workspace holds every graph, so that references between nodes can be followed, and a journal of
what the library reported.
-/

namespace Backprop

/-- What a net tells its observers. -/
inductive Event where
  | forward (instruction : String) (outputs : List Value)
  | backward (instruction : String) (derivatives : List Value)
  | finished

/-- Effects that can be seen from outside, in the order they happened. -/
structure Journal where
  messages : Array String := #[]
  events : Array Event := #[]
  /-- Calls of a transfer: the device and the value that was to be moved there. -/
  transfers : Array (String × Value) := #[]

namespace Journal

def append (a b : Journal) : Journal :=
  ⟨a.messages ++ b.messages, a.events ++ b.events, a.transfers ++ b.transfers⟩

end Journal

structure Workspace where
  graphs : Array Graph := #[]
  /-- Whether messages are shown. -/
  verbose : Bool := false
  journal : Journal := {}

namespace Workspace

/-- Adds an empty graph. -/
def addGraph (ws : Workspace) : Workspace × Nat :=
  let id := ws.graphs.size
  ({ ws with graphs := ws.graphs.push { id } }, id)

def graph? (ws : Workspace) (id : Nat) : Option Graph := ws.graphs[id]?

/-- The graph with a number; an empty one if there is none. -/
def graph (ws : Workspace) (id : Nat) : Graph := (ws.graph? id).getD { id }

def setGraph (ws : Workspace) (g : Graph) : Workspace :=
  { ws with graphs := ws.graphs.setIfInBounds g.id g }

/-- The node that a reference names; an operation of no kind if there is none. -/
def node (ws : Workspace) (n : NodeRef) : Node :=
  ((ws.graph? n.graph).bind fun g => g.nodes[n.handle]?).getD default

def name (ws : Workspace) (n : NodeRef) : Option String := (ws.node n).name

def label (ws : Workspace) (n : NodeRef) : String := (ws.node n).label n.handle

def rename (ws : Workspace) (n : NodeRef) (name : Option String) : Workspace :=
  ws.setGraph ((ws.graph n.graph).rename n.handle name)

def setArgs (ws : Workspace) (n : NodeRef) (args : List Value) : Workspace :=
  ws.setGraph ((ws.graph n.graph).setArgs n.handle args)

def report (ws : Workspace) (message : String) : Workspace :=
  { ws with journal := { ws.journal with messages := ws.journal.messages.push message } }

/-- Records a call in a graph of the workspace. -/
def applyIn (ws : Workspace) (id : Nat) (kind : String) (args : List Value) (kwargs : Keywords)
    (options : CallOptions := {}) : Except Error (Workspace × List NodeRef) := do
  let (g, nodes) ← (ws.graph id).apply kind args kwargs options
  return (ws.setGraph g, nodes)

end Workspace

end Backprop
