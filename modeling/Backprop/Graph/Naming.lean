import Backprop.Graph.Order
/-!
Names for unnamed nodes. A namer remembers the names that are taken and the numbers it has tried, so
no name is given twice, and named nodes are left alone.

* default names: kind and number, by ascending handle;
* sequential names: operations by kind and number in evaluation order, unnamed parameters after the
  operation that consumes them, selectors after their parent;
* workspace names: the keys of a mapping.
-/

namespace Backprop

structure Namer where
  /-- The graph whose nodes are named. -/
  graph : Nat
  taken : List String
  /-- The last number tried for a text. -/
  counters : List (String × Nat) := []

namespace Namer

def ofGraph (g : Graph) : Namer := { graph := g.id, taken := g.names }

def counter (nm : Namer) (stem : String) : Nat := (nm.counters.lookup stem).getD 0

def setCounter (nm : Namer) (stem : String) (n : Nat) : Namer :=
  { nm with counters := (stem, n) :: nm.counters.filter (·.1 != stem) }

def numbered (stem : String) (n : Nat) : String := stem ++ toString n

/-- The next number after `n` whose text is free. Of one more number than there are taken names, one
is free. -/
def nextNumber (nm : Namer) (stem : String) : Nat :=
  let first := nm.counter stem + 1
  ((List.range (nm.taken.length + 1)).map (first + ·)).find?
    (fun k => !nm.taken.contains (numbered stem k)) |>.getD (first + nm.taken.length)

/-- A fresh name: the text with the next number that makes it free. -/
def next (nm : Namer) (stem : String) : String × Namer :=
  let n := nm.nextNumber stem
  (numbered stem n, nm.setCounter stem n)

/-- The text itself if it is free, and numbered if not. -/
def claim (nm : Namer) (base : String) : String × Namer :=
  if nm.taken.contains base then nm.next (base ++ "_") else (base, nm)

end Namer

/-- Names given to handles; a later name for a handle replaces an earlier one. -/
abbrev Assignment := List (Nat × String)

def Assignment.insert (a : Assignment) (handle : Nat) (name : String) : Assignment :=
  if a.any (·.1 == handle) then a.map fun p => if p.1 == handle then (handle, name) else p
  else a ++ [(handle, name)]

def Assignment.append (a b : Assignment) : Assignment :=
  b.foldl (fun a (handle, name) => a.insert handle name) a

/-- Naming in progress. -/
structure Naming where
  workspace : Workspace
  namer : Namer
  assigned : Assignment := []

namespace Naming

def assign (s : Naming) (n : NodeRef) (name : String) : Naming where
  workspace := s.workspace.rename n (some name)
  namer := { s.namer with taken := name :: s.namer.taken }
  assigned := s.assigned.insert n.handle name

def isNamed (s : Naming) (n : NodeRef) : Bool := (s.workspace.name n).isSome

/-- Names a node with a text and the next free number. -/
def assignNumbered (s : Naming) (n : NodeRef) (stem : String) : Naming :=
  let (name, namer) := s.namer.next stem
  { s with namer }.assign n name

/-- Names a node with a text, numbered only if that is taken. -/
def assignClaimed (s : Naming) (n : NodeRef) (base : String) : Naming :=
  let (name, namer) := s.namer.claim base
  { s with namer }.assign n name

/-- Names a node with its kind and a number, unless it has a name. -/
def assignByKind (s : Naming) (n : NodeRef) : Naming :=
  if s.isNamed n then s else s.assignNumbered n (s.workspace.node n).kind

def assignDefault (s : Naming) (nodes : List NodeRef) : Naming :=
  (Workspace.byHandle nodes).foldl assignByKind s

/-- Names the unnamed parameters among distinct inputs by their rank among the parameters. -/
def assignParams (s : Naming) (operation : String) (rank : Nat) : List NodeRef → Naming
  | [] => s
  | p :: rest =>
    if (s.workspace.node p).isParam then
      let s :=
        if s.isNamed p then s
        else s.assignClaimed p (operation ++ "_p" ++ toString (rank + 1))
      s.assignParams operation (rank + 1) rest
    else s.assignParams operation rank rest

/-- The nodes with distinct handles, in the order they are met. -/
def distinct (l : List NodeRef) : List NodeRef :=
  l.foldl (fun seen n => if seen.any (·.handle == n.handle) then seen else seen ++ [n]) []

/-- Names an operation and the parameters it consumes; other nodes wait. -/
def assignOperation (s : Naming) (n : NodeRef) : Naming :=
  if (s.workspace.node n).isOperation then
    let s := s.assignByKind n
    s.assignParams (Error.shownName (s.workspace.name n)) 0 (distinct (s.workspace.inputs n))
  else s

/-- Names what is left: selectors after their parent, leaves by kind and number. -/
def assignRest (s : Naming) : List NodeRef → Except Error Unit × Naming
  | [] => (.ok (), s)
  | n :: rest =>
    if s.isNamed n then s.assignRest rest
    else
      let node := s.workspace.node n
      match node.role with
      | .selector k =>
        match node.parent with
        | .ok p =>
          let base := Error.shownName (s.workspace.name p) ++ "_out" ++ toString k
          (s.assignClaimed n base).assignRest rest
        | .error e => (.error e, s)
      | _ => (s.assignByKind n).assignRest rest

def assignSequential (s : Naming) (order : List NodeRef) : Except Error Unit × Naming :=
  (order.foldl assignOperation s).assignRest order

/-- Names a node after a key that refers to it, if the key is free and not private. -/
def assignKey (s : Naming) (entry : String × Value) : Naming :=
  match entry.2 with
  | .node n =>
    if entry.1.startsWith "_" || n.graph != s.namer.graph || s.isNamed n
        || s.namer.taken.contains entry.1 then s
    else s.assign n entry.1
  | _ => s

def assignWorkspace (s : Naming) (mapping : Keywords) : Naming := mapping.foldl assignKey s

/-- Names the unnamed nodes of an order in a mode. -/
def assignIn (s : Naming) (mode : String) (order : List NodeRef) : Except Error Unit × Naming :=
  if mode = "sequential" then s.assignSequential order
  else if mode = "default" then (.ok (), s.assignDefault order)
  else (.error (.unknownNaming (.text mode)), s)

end Naming

namespace Workspace

def unnamed (ws : Workspace) (nodes : List NodeRef) : List NodeRef :=
  nodes.filter fun n => (ws.name n).isNone

/-- Names that several of the nodes carry, with those nodes, in the order of first use. -/
def duplicateNames (ws : Workspace) (nodes : List NodeRef) : List (String × List NodeRef) :=
  let names := (nodes.filterMap ws.name).eraseDups
  (names.map fun s => (s, nodes.filter fun n => ws.name n == some s)).filter fun (_, group) =>
    1 < group.length

/-- Names what is unnamed in an order of nodes: by a mapping first, if there is one, and by the mode
then. The workspace keeps names given before a failure. -/
def resolveNames (ws : Workspace) (id : Nat) (order : List NodeRef) (mode : String)
    (mapping : Option Keywords := none) : Except Error Assignment × Workspace :=
  if (ws.unnamed order).isEmpty then (.ok [], ws)
  else
    let start : Naming := { workspace := ws, namer := .ofGraph (ws.graph id) }
    match (start.assignWorkspace (mapping.getD [])).assignIn mode order with
    | (.ok (), s) => (.ok s.assigned, s.workspace)
    | (.error e, s) => (.error e, s.workspace)

end Workspace

end Backprop
