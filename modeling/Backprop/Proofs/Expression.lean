import Mathlib.Data.Fin.Tuple.Basic
import Backprop.Graph.Operators
import Backprop.Proofs.Recording
import Backprop.Proofs.Compilable
/-!
# Expressions

An expression over nodes and whole numbers can be evaluated on plain numbers, or recorded in the graph
of its nodes by the operators of nodes.

* `Expression.eval` evaluates from left to right; `Expression.record` records in the same order.
* `Expression.added` are the nodes that recording adds, and `Expression.result` is what it returns.
* `Expression.adds_record`: recording adds these nodes to a graph and does nothing else.
* `Expression.reaches_added`: the result depends on all of them, if every bound expression is used.
-/

namespace Backprop

open Workspace

/-- The operators on two operands. -/
inductive BinaryOperator where
  | add | sub | mul | div | pow

namespace BinaryOperator

/-- The operation that an operator records. -/
def kind : BinaryOperator → String
  | add => "add"
  | sub => "sub"
  | mul => "mul"
  | div => "div"
  | pow => "pow"

/-- What an operator is on plain numbers. -/
def plain : BinaryOperator → Number → Number → Except Error Number
  | add => Number.add
  | sub => Number.sub
  | mul => Number.mul
  | div => Number.div
  | pow => Number.pow

end BinaryOperator

/-- Expressions with `k` bound expressions at hand, of which that with index zero was bound last. -/
inductive Expression : Nat → Type where
  | node {k : Nat} (n : NodeRef) : Expression k
  | constant {k : Nat} (c : Int) : Expression k
  | bound {k : Nat} (i : Fin k) : Expression k
  | neg {k : Nat} (x : Expression k) : Expression k
  | apply {k : Nat} (op : BinaryOperator) (x y : Expression k) : Expression k
  /-- The second expression, in which the first one is bound. -/
  | bind {k : Nat} (x : Expression k) (body : Expression (k + 1)) : Expression k

/-- Records an operator. The result is the new node, or all of its outputs if there are several. -/
def Workspace.operate (ws : Workspace) (kind : String) (operands : List Value) :
    Except Error (Workspace × Value) := do
  match ← ws.operator kind operands with
  | (ws, [n]) => return (ws, .node n)
  | (ws, nodes) => return (ws, .tuple (nodes.map .node))

namespace Expression

/-- The value of an expression on plain numbers, from left to right. -/
def eval (held : NodeRef → Int) : {k : Nat} → Expression k → (Fin k → Number) → Except Error Number
  | _, .node n, _ => .ok (.int (held n))
  | _, .constant c, _ => .ok (.int c)
  | _, .bound i, given => .ok (given i)
  | _, .neg x, given => do return (← x.eval held given).neg
  | _, .apply op x y, given => do op.plain (← x.eval held given) (← y.eval held given)
  | _, .bind x body, given => do body.eval held (Fin.cons (← x.eval held given) given)

/-- Evaluates an expression on nodes, which records it. -/
def record : {k : Nat} → Expression k → (Fin k → Value) → Workspace →
    Except Error (Workspace × Value)
  | _, .node n, _, ws => .ok (ws, .node n)
  | _, .constant c, _, ws => .ok (ws, .int c)
  | _, .bound i, given, ws => .ok (ws, given i)
  | _, .neg x, given, ws => do
    let (ws, a) ← x.record given ws
    ws.operate "neg" [a]
  | _, .apply op x y, given, ws => do
    let (ws, a) ← x.record given ws
    let (ws, b) ← y.record given ws
    ws.operate op.kind [a, b]
  | _, .bind x body, given, ws => do
    let (ws, a) ← x.record given ws
    body.record (Fin.cons a given) ws

/-- The nodes that an expression mentions. -/
def leaves : {k : Nat} → Expression k → List NodeRef
  | _, .node n => [n]
  | _, .constant _ => []
  | _, .bound _ => []
  | _, .neg x => x.leaves
  | _, .apply _ x y => x.leaves ++ y.leaves
  | _, .bind x body => x.leaves ++ body.leaves

/-- Whether a bound expression is used. -/
def uses : {k : Nat} → Expression k → Fin k → Bool
  | _, .node _, _ => false
  | _, .constant _, _ => false
  | _, .bound j, i => i == j
  | _, .neg x, i => x.uses i
  | _, .apply _ x y, i => x.uses i || y.uses i
  | _, .bind x body, i => x.uses i || body.uses i.succ

/-- Whether recording an expression returns a node, given which bound expressions are nodes. -/
def isNode : {k : Nat} → Expression k → (Fin k → Bool) → Bool
  | _, .node _, _ => true
  | _, .constant _, _ => false
  | _, .bound i, nodes => nodes i
  | _, .neg _, _ => true
  | _, .apply .., _ => true
  | _, .bind x body, nodes => body.isNode (Fin.cons (x.isNode nodes) nodes)

/-- Whether every operator has a node among its operands, and every bound expression is used. -/
def isRecordable : {k : Nat} → Expression k → (Fin k → Bool) → Bool
  | _, .node _, _ => true
  | _, .constant _, _ => true
  | _, .bound _, _ => true
  | _, .neg x, nodes => x.isRecordable nodes && x.isNode nodes
  | _, .apply _ x y, nodes =>
    x.isRecordable nodes && y.isRecordable nodes && (x.isNode nodes || y.isNode nodes)
  | _, .bind x body, nodes =>
    x.isRecordable nodes && body.isRecordable (Fin.cons (x.isNode nodes) nodes) && body.uses 0

/-- The operations that expressions record. -/
def kinds : List String := ["add", "sub", "mul", "div", "pow", "neg"]

/-- The node that an operator records. -/
def called (kind : String) (operands : List Value) : Node := Graph.calledNode kind operands [] {} 1

mutual

/-- The nodes that recording adds to a graph, from the handle `next` on. -/
def added (id : Nat) : {k : Nat} → Expression k → (Fin k → Value) → (next : Nat) → List Node
  | _, .node _, _, _ => []
  | _, .constant _, _, _ => []
  | _, .bound _, _, _ => []
  | _, .neg x, given, next => x.added id given next ++ [called "neg" [x.result id given next]]
  | _, .apply op x y, given, next =>
    let first := x.added id given next
    let second := y.added id given (next + first.length)
    first ++ second ++
      [called op.kind [x.result id given next, y.result id given (next + first.length)]]
  | _, .bind x body, given, next =>
    let first := x.added id given next
    first ++ body.added id (Fin.cons (x.result id given next) given) (next + first.length)

/-- What recording returns. -/
def result (id : Nat) : {k : Nat} → Expression k → (Fin k → Value) → (next : Nat) → Value
  | _, .node n, _, _ => .node n
  | _, .constant c, _, _ => .int c
  | _, .bound i, given, _ => given i
  | _, .neg x, given, next => .node ⟨id, next + (x.added id given next).length⟩
  | _, .apply _ x y, given, next =>
    let first := x.added id given next
    .node ⟨id, next + (first.length + (y.added id given (next + first.length)).length)⟩
  | _, .bind x body, given, next =>
    body.result id (Fin.cons (x.result id given next) given) (next + (x.added id given next).length)

end

/-- Whether a graph looks up the operations of expressions as every graph does at first. -/
def Supports (registry : Registry) : Prop :=
  ∀ kind ∈ kinds, registry.get kind = Registry.builtin.get kind

theorem builtin_get {kind : String} (known : kind ∈ kinds) : ∃ op,
    Registry.builtin.get kind = .ok op ∧ op.outputs = 1 ∧ op.differentiable = true := by
  simp only [kinds, List.mem_cons, List.not_mem_nil, or_false] at known
  rcases known with rfl | rfl | rfl | rfl | rfl | rfl <;> exact ⟨_, rfl, rfl, rfl⟩

theorem kind_mem_kinds (op : BinaryOperator) : op.kind ∈ kinds := by
  cases op <;> simp [kinds, BinaryOperator.kind]

end Expression

/-! ### Growing a graph -/

namespace Workspace

variable {ws : Workspace} {id : Nat} {n : NodeRef} {l l' : List Node}

/-- The workspace with further nodes at the end of a graph. -/
def grow (ws : Workspace) (id : Nat) (l : List Node) : Workspace :=
  ws.setGraph ((ws.graph id).extend l)

theorem size_grow : (ws.grow id l).graphs.size = ws.graphs.size := by
  simp [grow, Workspace.setGraph]

section
variable (sound : ws.Sound) (there : id < ws.graphs.size)
include sound there

theorem graph_grow : (ws.grow id l).graph id = (ws.graph id).extend l := by
  have number : ((ws.graph id).extend l).id = id := sound.graph_id id
  rw [grow, graph_setGraph, if_pos ⟨number, there⟩]

theorem size_graph_grow : ((ws.grow id l).graph id).size = (ws.graph id).size + l.length := by
  rw [graph_grow sound there, Graph.size_extend]

theorem grow_nil : ws.grow id [] = ws := by
  have number : ((ws.graph id).extend []).id = id := sound.graph_id id
  have same : (ws.graph id).extend [] = ws.graphs[id] := by
    simp [Graph.extend, Workspace.graph, graph?, there]
  rw [grow, Workspace.setGraph, number, same, Array.setIfInBounds, dif_pos there, Array.set_getElem_self]

theorem grow_grow : (ws.grow id l).grow id l' = ws.grow id (l ++ l') := by
  have number : ((ws.graph id).extend l).id = id := sound.graph_id id
  have number' : ((ws.graph id).extend (l ++ l')).id = id := sound.graph_id id
  rw [grow, graph_grow sound there, Graph.extend_extend, grow, grow, Workspace.setGraph,
    Workspace.setGraph, Workspace.setGraph, number, number']
  simp

theorem graph?_grow (id' : Nat) : (ws.grow id l).graph? id' =
    (ws.graph? id').map fun g => if id' = id then g.extend l else g := by
  have number : ((ws.graph id).extend l).id = id := sound.graph_id id
  simp only [grow, graph?, Workspace.setGraph, number, Array.getElem?_setIfInBounds]
  by_cases same : id' = id
  · subst same
    simp [there, Workspace.graph, graph?]
  · simp [same, Ne.symm same]

/-- Nodes that were there are still there. -/
theorem Exists.grow (old : ws.Exists n) :
    (ws.grow id l).Exists n ∧ (ws.grow id l).node n = ws.node n := by
  obtain ⟨g, found, node⟩ := old.node_eq
  have found' := graph?_grow (l := l) sound there n.graph
  rw [found, Option.map_some] at found'
  have node' : (if n.graph = id then g.extend l else g).nodes[n.handle]? = some (ws.node n) := by
    have bound := (Array.getElem?_eq_some_iff.mp node).1
    split
    · rw [Graph.extend, Array.getElem?_append_left bound, node]
    · exact node
  exact (node_of_getElem? found' node').symm

/-- The new nodes stand behind the old ones. -/
theorem node_grow {k : Nat} {m : Node} (new : l[k]? = some m) :
    (ws.grow id l).Exists ⟨id, (ws.graph id).size + k⟩ ∧
      (ws.grow id l).node ⟨id, (ws.graph id).size + k⟩ = m := by
  have found := graph?_grow (l := l) sound there id
  obtain ⟨g, here⟩ : ∃ g, ws.graph? id = some g := ⟨_, Array.getElem?_eq_getElem there⟩
  have same : ws.graph id = g := by rw [Workspace.graph, here, Option.getD_some]
  rw [here, Option.map_some, if_pos rfl] at found
  rw [same]
  refine (node_of_getElem? (n := ⟨id, g.size + k⟩) found ?_).symm
  rw [Graph.extend, Graph.size, Array.getElem?_append_right (Nat.le_add_right _ _)]
  simpa using new

end

section
variable {next count more : Nat} {P : NodeRef → Prop}

/-- Whether so many nodes of a graph, from a handle on, have a property. -/
def Throughout (P : NodeRef → Prop) (id next count : Nat) : Prop :=
  ∀ j < count, P ⟨id, next + j⟩

theorem throughout_add : Throughout P id next (count + more) ↔
    Throughout P id next count ∧ Throughout P id (next + count) more := by
  refine ⟨fun h => ⟨fun j hj => h j (by omega), fun j hj => ?_⟩, fun h j hj => ?_⟩
  · rw [Nat.add_assoc]
    exact h (count + j) (by omega)
  · by_cases first : j < count
    · exact h.1 j first
    · have := h.2 (j - count) (by omega)
      rwa [show next + count + (j - count) = next + j by omega] at this

theorem throughout_zero : Throughout P id next 0 := fun _ hj => absurd hj (Nat.not_lt_zero _)

theorem throughout_one : Throughout P id next 1 ↔ P ⟨id, next⟩ := by
  simp [Throughout]

/-- Whether nodes of a graph stand at consecutive handles. -/
def Holds (ws : Workspace) (id next : Nat) (l : List Node) : Prop :=
  ∀ k m, l[k]? = some m → ws.node ⟨id, next + k⟩ = m

theorem Holds.left (h : ws.Holds id next (l ++ l')) : ws.Holds id next l := fun k m found =>
  h k m ((List.getElem?_append_left (List.getElem?_eq_some_iff.mp found).1).trans found)

theorem Holds.right (h : ws.Holds id next (l ++ l')) : ws.Holds id (next + l.length) l' := by
  intro k m found
  have := h (l.length + k) m (by rw [List.getElem?_append_right (by omega)]; simpa using found)
  rwa [← Nat.add_assoc] at this

theorem Holds.last {m : Node} (h : ws.Holds id next (l ++ [m])) :
    ws.node ⟨id, next + l.length⟩ = m :=
  h l.length m (by simp)

theorem Holds.eq_of_lt (h : ws.Holds id next l) {k : Nat} (hk : k < l.length) :
    ws.node ⟨id, next + k⟩ ∈ l := by
  rw [h k _ (List.getElem?_eq_getElem hk)]
  exact List.getElem_mem hk

end

/-- What an operator takes: a node of a graph, or a whole number. -/
inductive Operand (ws : Workspace) (id : Nat) : Value → Prop where
  | node {n : NodeRef} : n.graph = id → ws.Exists n → Operand ws id (.node n)
  | constant (c : Int) : Operand ws id (.int c)

theorem Operand.grow {v : Value} (h : ws.Operand id v) (sound : ws.Sound)
    (there : id < ws.graphs.size) : (ws.grow id l).Operand id v := by
  cases h with
  | node graph old => exact .node graph (old.grow sound there).1
  | constant c => exact .constant c

/-- A workspace in which operators can be recorded in a graph. -/
structure Hosts (ws : Workspace) (id : Nat) : Prop where
  built : ws.Built
  there : id < ws.graphs.size
  supports : Expression.Supports (ws.graph id).registry

/-- Whether a recording adds nodes to a graph, returns an operand and does nothing else. -/
structure Adds (ws : Workspace) (id : Nat) (l : List Node) (v : Value)
    (recording : Except Error (Workspace × Value)) : Prop where
  run : recording = .ok (ws.grow id l, v)
  hosts : (ws.grow id l).Hosts id
  operand : (ws.grow id l).Operand id v

variable {kind : String} {operands : List Value}

/-- What a call of an expression's operation adds to the end of a graph. -/
theorem Hosts.apply_eq (h : ws.Hosts id) (known : kind ∈ Expression.kinds)
    (fit : ∀ v ∈ operands, ws.Operand id v) : ws.applyIn id kind operands [] {} =
      .ok (ws.grow id [Expression.called kind operands], [⟨id, (ws.graph id).size⟩]) := by
  have number := h.built.sound.graph_id id
  obtain ⟨op, found, outputs, -⟩ := Expression.builtin_get known
  have vetted : (ws.graph id).vet kind operands [] {} = .ok 1 := by
    refine Graph.vet_eq_ok_iff.mpr ⟨?_, ⟨op, ?_, ?_⟩, Nat.le_refl 1, fun v hv => ?_, by simp⟩
    · intro reserved
      simp only [Expression.kinds, List.mem_cons, List.not_mem_nil, or_false] at known
      rcases known with rfl | rfl | rfl | rfl | rfl | rfl <;> simp [Graph.reservedKinds] at reserved
    · rw [h.supports kind known, found]
    · simp [outputs]
    · cases fit v hv with
      | node graph _ => simp [Graph.checkArgument, number, graph]
      | constant c => rfl
  rw [applyIn, Graph.apply_eq, Graph.calledNodes, vetted]
  simp [Except.map, Graph.append, Graph.additions, Graph.calledNode, Expression.called, grow,
    Graph.ref, number, bind, Except.bind, pure, Except.pure]

/-- An operator belongs to the graph of its operands, if one of them is a node. -/
theorem ofOperator_eq (fit : ∀ v ∈ operands, ws.Operand id v)
    (node : ∃ v ∈ operands, v.node?.isSome = true) : Request.ofOperator kind operands =
      .ok { graph := id, kind, args := operands, kwargs := [] } := by
  unfold Request.ofOperator
  split
  next n rest eq =>
    obtain ⟨v, hv, found⟩ := List.mem_filterMap.mp (show n ∈ operands.filterMap Value.node? by simp [eq])
    obtain rfl := eq_node_of_node? found
    cases fit _ hv with
    | node graph _ => rw [graph]
  next none =>
    obtain ⟨v, hv, some⟩ := node
    obtain ⟨m, found⟩ := Option.isSome_iff_exists.mp some
    have := List.mem_filterMap.mpr ⟨v, hv, found⟩
    rw [none] at this
    cases this

theorem Hosts.adds_nothing (h : ws.Hosts id) {v : Value} (operand : ws.Operand id v) :
    ws.Adds id [] v (.ok (ws, v)) := by
  have same := grow_nil h.built.sound h.there
  exact ⟨by rw [same], by rwa [same], by rwa [same]⟩

/-- An operator with a node among its operands adds the node that it returns. -/
theorem Hosts.adds_operate (h : ws.Hosts id) (known : kind ∈ Expression.kinds)
    (fit : ∀ v ∈ operands, ws.Operand id v) (node : ∃ v ∈ operands, v.node?.isSome = true) :
    ws.Adds id [Expression.called kind operands] (.node ⟨id, (ws.graph id).size⟩)
      (ws.operate kind operands) := by
  have call := h.apply_eq known fit
  have built := h.built.apply (fun n mem => by
    have here : Value.node n ∈ operands := by simpa using mem
    cases fit _ here with
    | node _ exist => exact exist) call
  refine ⟨?_, ⟨built, by rw [size_grow]; exact h.there, ?_⟩, .node rfl ?_⟩
  · simp only [operate, operator, ofOperator_eq fit node, record, call, bind, Except.bind, pure,
      Except.pure]
  · rw [graph_grow h.built.sound h.there]
    exact h.supports
  · exact (node_grow (k := 0) h.built.sound h.there rfl).1

/-- What is recorded next is added behind. -/
theorem Adds.next {a v : Value} {recording : Except Error (Workspace × Value)}
    {rest : Workspace × Value → Except Error (Workspace × Value)} (h : ws.Hosts id)
    (first : ws.Adds id l a recording)
    (second : (ws.grow id l).Adds id l' v (rest (ws.grow id l, a))) :
    ws.Adds id (l ++ l') v (recording >>= rest) := by
  obtain ⟨run, hosts, operand⟩ := second
  rw [grow_grow h.built.sound h.there] at run hosts operand
  refine ⟨?_, hosts, operand⟩
  rw [first.run]
  exact run

end Workspace

/-! ### What recording adds -/

namespace Expression

variable {id k : Nat} {ws : Workspace}

theorem cons_node? (a : Value) (given : Fin k → Value) :
    (fun i => ((Fin.cons a given : Fin (k + 1) → Value) i).node?.isSome) =
      Fin.cons a.node?.isSome fun i => (given i).node?.isSome := by
  funext i
  cases i using Fin.cases <;> rfl

/-- Recording returns a node when it should. -/
theorem isSome_node?_result (e : Expression k) : ∀ (given : Fin k → Value) (next : Nat),
    (e.result id given next).node?.isSome = e.isNode fun i => (given i).node?.isSome := by
  induction e with
  | bind x body ihx ihbody =>
    intro given next
    rw [result, isNode, ihbody, cons_node?, ihx]
  | node n => exact fun _ _ => rfl
  | constant c => exact fun _ _ => rfl
  | bound i => exact fun _ _ => rfl
  | neg x => exact fun _ _ => by rw [result]; rfl
  | apply op x y => exact fun _ _ => by rw [result]; rfl

/-- Recording adds the nodes of an expression to their graph, and does nothing else. -/
theorem adds_record (e : Expression k) : ∀ (given : Fin k → Value) {ws : Workspace}, ws.Hosts id →
    (∀ i, ws.Operand id (given i)) → (∀ n ∈ e.leaves, ws.Operand id (.node n)) →
    e.isRecordable (fun i => (given i).node?.isSome) = true →
    ws.Adds id (e.added id given (ws.graph id).size) (e.result id given (ws.graph id).size)
      (e.record given ws) := by
  induction e with
  | node n =>
    intro given ws h _ leaves _
    rw [added, result]
    exact h.adds_nothing (leaves n (List.mem_singleton_self n))
  | constant c =>
    intro given ws h _ _ _
    rw [added, result]
    exact h.adds_nothing (.constant c)
  | bound i =>
    intro given ws h fit _ _
    rw [added, result]
    exact h.adds_nothing (fit i)
  | neg x ih =>
    intro given ws h fit leaves recordable
    simp only [isRecordable, Bool.and_eq_true] at recordable
    let a := x.result id given (ws.graph id).size
    have first := ih given h fit leaves recordable.1
    have node : a.node?.isSome = true := (isSome_node?_result x given _).trans recordable.2
    have last := first.hosts.adds_operate (show "neg" ∈ kinds by simp [kinds])
      (by simpa using first.operand) ⟨a, List.mem_singleton_self a, node⟩
    rw [size_graph_grow h.built.sound h.there] at last
    rw [added, result, record]
    exact first.next h last
  | apply op x y ihx ihy =>
    intro given ws h fit leaves recordable
    simp only [isRecordable, Bool.and_eq_true] at recordable
    obtain ⟨⟨recordablex, recordabley⟩, symbolic⟩ := recordable
    rw [Expression.leaves, List.forall_mem_append] at leaves
    have sound := h.built.sound
    let next := (ws.graph id).size
    let a := x.result id given next
    let b := y.result id given (next + (x.added id given next).length)
    have first := ihx given h fit leaves.1 recordablex
    have second := ihy given first.hosts (fun i => (fit i).grow sound h.there)
      (fun n hn => (leaves.2 n hn).grow sound h.there) recordabley
    rw [size_graph_grow sound h.there] at second
    have node : ∃ v ∈ [a, b], v.node?.isSome = true := by
      have nodea : a.node?.isSome = _ := isSome_node?_result x given next
      have nodeb : b.node?.isSome = _ := isSome_node?_result y given _
      simpa [nodea, nodeb] using symbolic
    have sound' := first.hosts.built.sound
    have last := second.hosts.adds_operate (kind_mem_kinds op)
      (by simpa using ⟨first.operand.grow sound' first.hosts.there, second.operand⟩) node
    rw [size_graph_grow sound' first.hosts.there, size_graph_grow sound h.there,
      Nat.add_assoc] at last
    rw [added, result, record, List.append_assoc]
    exact first.next h (second.next first.hosts last)
  | bind x body ihx ihbody =>
    intro given ws h fit leaves recordable
    simp only [isRecordable, Bool.and_eq_true] at recordable
    obtain ⟨⟨recordablex, recordablebody⟩, -⟩ := recordable
    rw [Expression.leaves, List.forall_mem_append] at leaves
    have sound := h.built.sound
    let a := x.result id given (ws.graph id).size
    have first := ihx given h fit leaves.1 recordablex
    have node : a.node?.isSome = _ := isSome_node?_result x given _
    rw [← node, ← cons_node?] at recordablebody
    have second := ihbody (Fin.cons a given) first.hosts ?_
      (fun n hn => (leaves.2 n hn).grow sound h.there) recordablebody
    · rw [size_graph_grow sound h.there] at second
      rw [added, result, record]
      exact first.next h second
    · intro i
      cases i using Fin.cases with
      | zero => exact first.operand
      | succ i => exact (fit i).grow sound h.there

/-- Recording adds calls of the operations of expressions. -/
theorem called_of_mem_added (e : Expression k) : ∀ (given : Fin k → Value) (next : Nat),
    ∀ m ∈ e.added id given next, ∃ kind ∈ kinds, ∃ operands, m = called kind operands := by
  induction e with
  | node n => simp [added]
  | constant c => simp [added]
  | bound i => simp [added]
  | neg x ih =>
    intro given next
    rw [added, List.forall_mem_append, List.forall_mem_singleton]
    exact ⟨ih given next, "neg", by simp [kinds], _, rfl⟩
  | apply op x y ihx ihy =>
    intro given next
    rw [added, List.forall_mem_append, List.forall_mem_append, List.forall_mem_singleton]
    exact ⟨⟨ihx given _, ihy given _⟩, op.kind, kind_mem_kinds op, _, rfl⟩
  | bind x body ihx ihbody =>
    intro given next
    rw [added, List.forall_mem_append]
    exact ⟨ihx given _, ihbody _ _⟩

theorem mem_inputs_called {kind : String} {operands : List Value} {n : NodeRef} :
    n ∈ (called kind operands).inputs ↔ .node n ∈ operands := by
  simp [Workspace.mem_inputs_iff, called, Graph.calledNode]

theorem cons_nodes {P : NodeRef → Prop} {a : Value} {given : Fin k → Value}
    (first : ∀ n, a = .node n → P n) (known : ∀ i n, given i = .node n → P n) (i : Fin (k + 1))
    (n : NodeRef) (eq : (Fin.cons a given : Fin (k + 1) → Value) i = .node n) : P n := by
  cases i using Fin.cases with
  | zero => exact first n eq
  | succ i => exact known i n eq

/-- What the new nodes refer to is mentioned, given or new. -/
theorem inputs_added {P : NodeRef → Prop} (e : Expression k) :
    ∀ (given : Fin k → Value) (next : Nat), (∀ n ∈ e.leaves, P n) →
      (∀ i n, given i = .node n → P n) → Throughout P id next (e.added id given next).length →
      (∀ m ∈ e.added id given next, ∀ n ∈ m.inputs, P n) ∧
        ∀ n, e.result id given next = .node n → P n := by
  induction e with
  | node n =>
    intro given next leaves _ _
    rw [added, result]
    refine ⟨by simp, fun m eq => ?_⟩
    cases eq
    exact leaves n (List.mem_singleton_self n)
  | constant c =>
    intro given next _ _ _
    rw [added, result]
    exact ⟨by simp, fun m eq => by cases eq⟩
  | bound i =>
    intro given next _ known _
    rw [added, result]
    exact ⟨by simp, known i⟩
  | neg x ih =>
    intro given next leaves known new
    rw [added, List.length_append, throughout_add] at new
    rw [added, result, List.forall_mem_append, List.forall_mem_singleton]
    obtain ⟨inputs, operand⟩ := ih given next leaves known new.1
    refine ⟨⟨inputs, fun n hn => ?_⟩, fun n eq => ?_⟩
    · rw [mem_inputs_called, List.mem_singleton] at hn
      exact operand n hn.symm
    · cases eq
      exact throughout_one.mp new.2
  | apply op x y ihx ihy =>
    intro given next leaves known new
    rw [Expression.leaves, List.forall_mem_append] at leaves
    rw [added, List.length_append, List.length_append, throughout_add, throughout_add] at new
    rw [added, result, List.forall_mem_append, List.forall_mem_append, List.forall_mem_singleton]
    obtain ⟨inputsx, operandx⟩ := ihx given next leaves.1 known new.1.1
    obtain ⟨inputsy, operandy⟩ := ihy given _ leaves.2 known new.1.2
    refine ⟨⟨⟨inputsx, inputsy⟩, fun n hn => ?_⟩, fun n eq => ?_⟩
    · rw [mem_inputs_called, List.mem_pair] at hn
      rcases hn with eq | eq
      · exact operandx n eq.symm
      · exact operandy n eq.symm
    · cases eq
      exact throughout_one.mp new.2
  | bind x body ihx ihbody =>
    intro given next leaves known new
    rw [Expression.leaves, List.forall_mem_append] at leaves
    rw [added, List.length_append, throughout_add] at new
    rw [added, result, List.forall_mem_append]
    obtain ⟨inputsx, operandx⟩ := ihx given next leaves.1 known new.1
    obtain ⟨inputs, operand⟩ := ihbody _ _ leaves.2 (cons_nodes operandx known) new.2
    exact ⟨⟨inputsx, inputs⟩, operand⟩

/-- Whatever depends on the result of an expression that uses what it binds depends on all that was
mentioned, used or added. -/
theorem reaches_added {roots : List NodeRef} (e : Expression k) :
    ∀ (given : Fin k → Value) (next : Nat) (nodes : Fin k → Bool), e.isRecordable nodes = true →
      ws.Holds id next (e.added id given next) →
      (∀ n, e.result id given next = .node n → ws.Reaches roots n) →
      Throughout (ws.Reaches roots) id next (e.added id given next).length ∧
        (∀ n ∈ e.leaves, ws.Reaches roots n) ∧
        ∀ i, e.uses i = true → ∀ n, given i = .node n → ws.Reaches roots n := by
  induction e with
  | node n =>
    intro given next _ _ _ root
    rw [result] at root
    rw [added, Expression.leaves, List.forall_mem_singleton]
    exact ⟨throughout_zero, root n rfl, fun i used => by cases used⟩
  | constant c =>
    intro given next _ _ _ _
    rw [added]
    exact ⟨throughout_zero, by simp [Expression.leaves], fun i used => by cases used⟩
  | bound i =>
    intro given next _ _ _ root
    rw [result] at root
    rw [added]
    refine ⟨throughout_zero, by simp [Expression.leaves], fun j used => ?_⟩
    obtain rfl := eq_of_beq used
    exact root
  | neg x ih =>
    intro given next nodes recordable holds root
    simp only [isRecordable, Bool.and_eq_true] at recordable
    rw [added] at holds ⊢
    rw [result] at root
    have last := root _ rfl
    have operand : ∀ n, x.result id given next = .node n → ws.Reaches roots n := fun n eq =>
      last.input (by rw [Workspace.inputs, holds.last, mem_inputs_called]; simp [eq])
    obtain ⟨new, leaves, used⟩ := ih given next nodes recordable.1 holds.left operand
    rw [List.length_append, throughout_add]
    exact ⟨⟨new, throughout_one.mpr last⟩, leaves, used⟩
  | apply op x y ihx ihy =>
    intro given next nodes recordable holds root
    simp only [isRecordable, Bool.and_eq_true] at recordable
    obtain ⟨⟨recordablex, recordabley⟩, -⟩ := recordable
    rw [added] at holds ⊢
    rw [result, ← List.length_append] at root
    have last := root _ rfl
    have inputs : ∀ n, .node n ∈ [x.result id given next,
        y.result id given (next + (x.added id given next).length)] → ws.Reaches roots n :=
      fun n hn => last.input (by rw [Workspace.inputs, holds.last, mem_inputs_called]; exact hn)
    obtain ⟨newx, leavesx, usedx⟩ := ihx given next nodes recordablex holds.left.left
      fun n eq => inputs n (by simp [eq])
    obtain ⟨newy, leavesy, usedy⟩ := ihy given _ nodes recordabley holds.left.right
      fun n eq => inputs n (by simp [eq])
    have both := throughout_add.mpr ⟨newx, newy⟩
    rw [← List.length_append] at both
    rw [List.length_append, throughout_add, Expression.leaves, List.forall_mem_append]
    refine ⟨⟨both, throughout_one.mpr last⟩, ⟨leavesx, leavesy⟩, fun i used => ?_⟩
    exact (Bool.or_eq_true_iff.mp used).elim (usedx i) (usedy i)
  | bind x body ihx ihbody =>
    intro given next nodes recordable holds root
    simp only [isRecordable, Bool.and_eq_true] at recordable
    obtain ⟨⟨recordablex, recordablebody⟩, binds⟩ := recordable
    rw [added] at holds ⊢
    rw [result] at root
    obtain ⟨newbody, leavesbody, usedbody⟩ :=
      ihbody _ _ _ recordablebody holds.right root
    -- the bound expression is used, so the body depends on its result
    obtain ⟨newx, leavesx, usedx⟩ := ihx given next nodes recordablex holds.left (usedbody 0 binds)
    rw [List.length_append, throughout_add, Expression.leaves, List.forall_mem_append]
    refine ⟨⟨newx, newbody⟩, ⟨leavesx, leavesbody⟩, fun i used => ?_⟩
    exact (Bool.or_eq_true_iff.mp used).elim (usedx i) (usedbody i.succ)

end Expression

end Backprop
