import Mathlib.Logic.Relation
import Backprop.Proofs.Recording
import Backprop.Proofs.Requests
/-!
# Arenas under construction

Graphs as a program builds them up: nodes carry the handle that they were given, a call does one thing
after the other, and when it fails, what it has done by then stays done.

* `Arena.apply`, `Arena.param` and `Arena.input` are the calls in steps, and `Arena.apply_eq`,
  `Arena.param_eq` and `Arena.input_eq` say that they are those of `Graph`, all or nothing.
* `Form` are the forms of a call that builders and operators come to.
-/

namespace Backprop

/-- A node with the handle that it was given when it was made. -/
structure Entry where
  handle : Nat
  node : Node

/-- A graph under construction. -/
structure Arena where
  id : Nat
  entries : Array Entry := #[]
  registry : Registry := .builtin

namespace Arena

/-- Work on an arena, which can fail halfway. -/
abbrev Work := EStateM Error Arena

/-- The graph without the handles that its nodes carry. -/
def graph (a : Arena) : Graph := { id := a.id, nodes := a.entries.map (·.node), registry := a.registry }

def put (a : Arena) (e : Entry) : Arena := { a with entries := a.entries.push e }

/-- The arena with further nodes at its end, each under the next handle. -/
def extend (a : Arena) : List Node → Arena
  | [] => a
  | n :: l => (a.put ⟨a.entries.size, n⟩).extend l

def register (a : Arena) (registry : Registry) : Arena := { a with registry }

/-- A check or a computation that touches no arena. -/
def lift {α : Type} (x : Except Error α) : Work α :=
  match x with
  | .ok r => pure r
  | .error e => throw e

/-- Makes a node, which can be refused, and adds it under the next handle. -/
def add (make : Except Error Node) : Work NodeRef := do
  let handle := (← get).entries.size
  let node ← lift make
  modify (·.put ⟨handle, node⟩)
  return ⟨(← get).id, handle⟩

def input (name : Option String) (requiresGradient devicePlacement : Bool) : Work NodeRef :=
  add (.ok { kind := "input", name, requiresGradient, devicePlacement, role := .input })

/-- Whether the way of training is known is found out while the node is made. -/
def param (value : Value) (name : Option String) (learningRate weightDecay : Value)
    (trainMethod : String) (devicePlacement : Bool) : Work NodeRef := do
  if let .node n := value then throw (.paramFromNode n)
  lift (Graph.checkConstant value)
  add <| match TrainMethod.ofName? trainMethod with
    | none => .error (.unknownTrainMethod name trainMethod)
    | some trainMethod => .ok { kind := "param", name, requiresGradient := true, devicePlacement,
                                role := .param { value, learningRate, weightDecay, trainMethod } }

def apply (kind : String) (args : List Value) (kwargs : Keywords) (options : CallOptions) :
    Work (List NodeRef) := do
  if Graph.reservedKinds.contains kind then throw (.reservedKind kind)
  let operation ← lift ((← get).registry.get kind)
  args.forM fun v => do lift ((← get).graph.checkArgument v)
  kwargs.forM fun (_, v) => do lift ((← get).graph.checkArgument v)
  let outputs := options.outputs.getD operation.outputs
  if outputs < 1 then throw (.outputCount outputs)
  let node ← add (.ok (Graph.calledNode kind args kwargs options outputs.toNat))
  let selectors ← (List.range' 1 (outputs.toNat - 1)).mapM fun output =>
    add (.ok (Graph.selectorOf node output))
  return node :: selectors

variable {a a' : Arena}

/-! ### Entries -/

@[simp] theorem id_extend (l : List Node) : (a.extend l).id = a.id := by
  induction l generalizing a with
  | nil => rfl
  | cons n l ih => exact ih

theorem graph_put (e : Entry) : (a.put e).graph = a.graph.extend [e.node] := by
  simp [graph, put, Graph.extend]

theorem graph_extend (l : List Node) : (a.extend l).graph = a.graph.extend l := by
  induction l generalizing a with
  | nil => simp [extend, Graph.extend]
  | cons n l ih => rw [extend, ih, graph_put, Graph.extend_extend, List.singleton_append]

@[simp] theorem size_graph : a.graph.size = a.entries.size := by simp [graph, Graph.size]

theorem extend_extend (l l' : List Node) : (a.extend l).extend l' = a.extend (l ++ l') := by
  induction l generalizing a with
  | nil => rfl
  | cons n l ih => exact ih

theorem getElem?_extend (l : List Node) (k : Nat) : (a.extend l).entries[k]? =
    if k < a.entries.size then a.entries[k]? else (l[k - a.entries.size]?).map (⟨k, ·⟩) := by
  induction l generalizing a with
  | nil =>
    simp only [extend, List.getElem?_nil, Option.map_none]
    split
    next => rfl
    next h => exact Array.getElem?_eq_none (Nat.le_of_not_lt h)
  | cons n l ih =>
    rw [extend, ih]
    simp only [put, Array.size_push, Array.getElem?_push]
    by_cases lt : k < a.entries.size
    · rw [if_pos (by omega), if_neg (by omega), if_pos lt]
    · by_cases eq : k = a.entries.size
      · simp [eq]
      · rw [if_neg (by omega), if_neg lt, show k - a.entries.size = k - (a.entries.size + 1) + 1 by omega,
          List.getElem?_cons_succ]

theorem getElem?_extend_old {l : List Node} {k : Nat} {e : Entry} (h : a.entries[k]? = some e) :
    (a.extend l).entries[k]? = some e := by
  rw [getElem?_extend, if_pos (Array.getElem?_eq_some_iff.mp h).1, h]

theorem getElem?_extend_new {l : List Node} {k : Nat} {n : Node} (h : l[k]? = some n) :
    (a.extend l).entries[a.entries.size + k]? = some ⟨a.entries.size + k, n⟩ := by
  rw [getElem?_extend, if_neg (by omega), Nat.add_sub_cancel_left, h]
  rfl

/-- An entry was there, or it is one of the new nodes under its handle. -/
theorem old_or_new {l : List Node} {k : Nat} {e : Entry} (h : (a.extend l).entries[k]? = some e) :
    a.entries[k]? = some e ∨
    ∃ j n, l[j]? = some n ∧ k = a.entries.size + j ∧ e = ⟨k, n⟩ := by
  rw [getElem?_extend] at h
  split at h
  next => exact .inl h
  next new =>
    obtain ⟨n, found, rfl⟩ := Option.map_eq_some_iff.mp h
    exact .inr ⟨k - a.entries.size, n, found, by omega, rfl⟩

/-! ### Calls in steps -/

theorem bind_ok {α β : Type} {x : Work α} {f : α → Work β} {r : α} (h : x a = .ok r a') :
    (x >>= f) a = f r a' := by
  simp [bind, EStateM.bind, h]

theorem bind_error {α β : Type} {x : Work α} {f : α → Work β} {e : Error} (h : x a = .error e a') :
    (x >>= f) a = .error e a' := by
  simp [bind, EStateM.bind, h]

theorem add_ok (n : Node) :
    add (.ok n) a = .ok (a.graph.ref a.graph.size) (a.extend [n]) := by
  rw [size_graph]
  rfl

theorem mapM_add (nodes : List Nat) (f : Nat → Node) :
    nodes.mapM (fun k => add (.ok (f k))) a =
      .ok ((List.range' a.graph.size nodes.length).map a.graph.ref) (a.extend (nodes.map f)) := by
  induction nodes generalizing a with
  | nil => rfl
  | cons k nodes ih =>
    rw [List.mapM_cons, bind_ok (add_ok (f k)), bind_ok ih, graph_extend, Graph.size_extend,
      Graph.ref_extend, extend_extend]
    rfl

/-- A node and its selectors, added one after the other. -/
theorem addAll (n : Node) :
    (do
      let node ← add (.ok n)
      let selectors ← (List.range' 1 (n.outputs - 1)).mapM fun output =>
        add (.ok (Graph.selectorOf node output))
      return node :: selectors) a =
    .ok (a.graph.append (a.graph.additions n)).2 (a.extend (a.graph.additions n)) := by
  rw [bind_ok (add_ok n), bind_ok (mapM_add _ _), graph_extend, Graph.size_extend, Graph.ref_extend,
    extend_extend, List.length_range']
  have count : (a.graph.additions n).length = n.outputs - 1 + 1 := by
    simp [Graph.additions]
  rw [Graph.append, count]
  rfl

/-- Checks leave the arena as it is. -/
theorem forM_check {α : Type} (check : Graph → α → Except Error PUnit) (l : List α) :
    (l.forM fun v => do lift (check (← get).graph v)) a = lift (l.forM (check a.graph)) a := by
  induction l with
  | nil => rfl
  | cons v l ih =>
    have steps : ((v :: l).forM fun v => do lift (check (← get).graph v)) a =
        (lift (check a.graph v) >>= fun _ => l.forM fun v => do lift (check (← get).graph v)) a := rfl
    have checks : (v :: l).forM (check a.graph) = check a.graph v >>= fun _ => l.forM (check a.graph) :=
      rfl
    rw [steps, checks]
    cases check a.graph v with
    | error e => rfl
    | ok _ => exact ih

/-- What is left of the arena when nodes are added all at once, or none. -/
def record (a : Arena) : Except Error (List Node) → EStateM.Result Error Arena (List NodeRef)
  | .ok nodes => .ok (a.graph.append nodes).2 (a.extend nodes)
  | .error e => .error e a

theorem add_eq (n : Node) : (List.singleton <$> add (.ok n)) a = a.record (.ok [n]) := by
  rw [map_eq_pure_bind, bind_ok (add_ok n)]
  rfl

theorem input_eq (name : Option String) (gradient placed : Bool) :
    (List.singleton <$> input name gradient placed) a =
      a.record (.ok [Graph.inputNode name gradient placed]) := add_eq _

theorem param_eq {value : Value} {name : Option String} {learningRate weightDecay : Value}
    {trainMethod : String} {placed : Bool} :
    (List.singleton <$> param value name learningRate weightDecay trainMethod placed) a =
      a.record ((Graph.vetParam value name learningRate weightDecay trainMethod).map fun data =>
        [Graph.paramNode name placed data]) := by
  by_cases node : ∃ n, value = .node n
  · obtain ⟨n, rfl⟩ := node
    rfl
  · have constant : ∀ n, value = .node n → False := fun n eq => node ⟨n, eq⟩
    simp only [param, Graph.vetParam]
    cases Graph.checkConstant value with
    | error e => rfl
    | ok _ =>
      cases TrainMethod.ofName? trainMethod with
      | none => rfl
      | some method => exact add_eq _

theorem apply_eq {kind : String} {args : List Value} {kwargs : Keywords} {options : CallOptions} :
    apply kind args kwargs options a = a.record (a.graph.calledNodes kind args kwargs options) := by
  have positional := forM_check (a := a) Graph.checkArgument args
  have keywords := forM_check (a := a) (fun g p => g.checkArgument p.2) kwargs
  have registry : a.graph.registry = a.registry := rfl
  simp only [apply, Graph.calledNodes, Graph.vet, registry]
  split
  next => rfl
  next =>
    rw [bind_ok (show (get : Work Arena) a = .ok a a from rfl)]
    cases a.registry.get kind with
    | error e => rfl
    | ok operation =>
      rw [bind_ok (show lift (.ok operation) a = .ok operation a from rfl)]
      cases passed : args.forM a.graph.checkArgument with
      | error e =>
        rw [passed] at positional
        exact bind_error positional
      | ok _ =>
        rw [passed] at positional
        rw [bind_ok positional]
        cases passed : kwargs.forM fun p => a.graph.checkArgument p.2 with
        | error e =>
          rw [passed] at keywords
          exact bind_error keywords
        | ok _ =>
          rw [passed] at keywords
          rw [bind_ok keywords]
          dsimp only [bind, Except.bind]
          generalize options.outputs.getD operation.outputs = outputs
          split
          next => rfl
          next positive =>
            exact addAll (Graph.calledNode kind args kwargs options outputs.toNat)

end Arena

/-! ### Programs that build graphs -/

/-- A call that builds on a graph. -/
inductive Construction where
  | input (graph : Nat) (name : Option String) (requiresGradient devicePlacement : Bool)
  | param (graph : Nat) (value : Value) (name : Option String) (learningRate weightDecay : Value)
      (trainMethod : String) (devicePlacement : Bool)
  | call (form : Form)

/-- The graphs that a program has built up. -/
structure Draft where
  arenas : Array Arena := #[]

namespace Draft

def workspace (s : Draft) : Workspace := { graphs := s.arenas.map (·.graph) }

/-- The arena with a number; an empty one if there is none. -/
def arena (s : Draft) (id : Nat) : Arena := s.arenas[id]?.getD { id }

def set (s : Draft) (id : Nat) (a : Arena) : Draft := ⟨s.arenas.setIfInBounds id a⟩

/-- The draft with further nodes at the end of one arena. -/
def adding (s : Draft) (id : Nat) (nodes : List Node) : Draft := s.set id ((s.arena id).extend nodes)

/-- References to the next nodes of an arena. -/
def references (s : Draft) (id count : Nat) : List NodeRef :=
  (List.range' (s.arena id).entries.size count).map (⟨id, ·⟩)

/-- Works on one arena, which stays as the work leaves it, also when the work fails. -/
def within {α : Type} (id : Nat) (work : Arena.Work α) : EStateM Error Draft α := fun s =>
  match work (s.arena id) with
  | .ok r a => .ok r (s.set id a)
  | .error e a => .error e (s.set id a)

variable {s : Draft}

theorem graph_workspace (id : Nat) : s.workspace.graph id = (s.arena id).graph := by
  simp only [Workspace.graph, Workspace.graph?, workspace, arena, Array.getElem?_map]
  cases s.arenas[id]? <;> simp [Arena.graph]

@[simp] theorem size_workspace : s.workspace.graphs.size = s.arenas.size := by simp [workspace]

theorem exists_of_getElem? {n : NodeRef} {a : Arena} (found : s.arenas[n.graph]? = some a)
    (bound : n.handle < a.entries.size) : s.workspace.Exists n := by
  refine ⟨a.graph, ?_, ?_⟩
  · rw [Workspace.graph?, workspace, Array.getElem?_map, found]
    rfl
  · exact Nat.lt_of_lt_of_eq bound Arena.size_graph.symm

theorem set_arena (id : Nat) : s.set id (s.arena id) = s := by
  unfold set arena
  congr 1
  ext k
  · simp
  · by_cases eq : id = k
    · subst eq
      simp_all
    · simp_all

theorem workspace_set (id : Nat) (a : Arena) (number : a.id = id) :
    (s.set id a).workspace = s.workspace.setGraph a.graph := by
  subst number
  simp [workspace, set, Workspace.setGraph, Arena.graph]

/-- What is left of a draft when nodes are added to one of its graphs, or none. -/
def record (s : Draft) : Except Error (Nat × List Node) → EStateM.Result Error Draft (List NodeRef)
  | .ok (id, nodes) => .ok ((s.workspace.graph id).append nodes).2
      (s.set id ((s.arena id).extend nodes))
  | .error e => .error e s

theorem within_eq {id : Nat} {work : Arena.Work (List NodeRef)} {plan : Except Error (List Node)}
    (h : work (s.arena id) = (s.arena id).record plan) :
    within id work s = s.record (plan.map (id, ·)) := by
  cases plan with
  | ok nodes => simp [within, h, Arena.record, record, Except.map, graph_workspace]
  | error e => simp [within, h, Arena.record, record, Except.map, set_arena]

end Draft

namespace Construction

/-- What the library does for a call. -/
def run (ws : Workspace) : Construction → Except Error (Workspace × List NodeRef)
  | .input id name gradient placed =>
    let (g, n) := (ws.graph id).input name gradient placed
    .ok (ws.setGraph g, [n])
  | .param id value name learningRate weightDecay trainMethod placed => do
    let (g, n) ← (ws.graph id).param value name learningRate weightDecay trainMethod placed
    return (ws.setGraph g, [n])
  | .call form => form.run ws

/-- The same in steps. -/
def work : Construction → EStateM Error Draft (List NodeRef)
  | .input id name gradient placed =>
    Draft.within id (List.singleton <$> Arena.input name gradient placed)
  | .param id value name learningRate weightDecay trainMethod placed =>
    Draft.within id (List.singleton <$>
      Arena.param value name learningRate weightDecay trainMethod placed)
  | .call form => fun s =>
    match form.request with
    | .ok r => Draft.within r.graph (Arena.apply r.kind r.args r.kwargs r.options) s
    | .error e => .error e s

/-- The graph that a call adds to, and the nodes that it adds. -/
def plan (ws : Workspace) : Construction → Except Error (Nat × List Node)
  | .input id name gradient placed => .ok (id, [Graph.inputNode name gradient placed])
  | .param id value name learningRate weightDecay trainMethod placed =>
    (Graph.vetParam value name learningRate weightDecay trainMethod).map fun data =>
      (id, [Graph.paramNode name placed data])
  | .call form => do
    let r ← form.request
    return (r.graph, ← (ws.graph r.graph).calledNodes r.kind r.args r.kwargs r.options)

/-- A call names only graphs and nodes that exist. -/
def Known (ws : Workspace) : Construction → Prop
  | .input id .. | .param id .. => id < ws.graphs.size
  | .call form => (∀ id ∈ form.graph?, id < ws.graphs.size) ∧
    ∀ n, .node n ∈ form.operands → ws.Exists n

theorem run_eq (ws : Workspace) (c : Construction) : c.run ws =
    (c.plan ws).map fun (id, nodes) =>
      (ws.setGraph ((ws.graph id).extend nodes), ((ws.graph id).append nodes).2) := by
  cases c with
  | input id name gradient placed => rw [run, Graph.input, Graph.push_eq_extend]; rfl
  | param id value name learningRate weightDecay trainMethod placed =>
    rw [run, plan, Graph.param_eq]
    cases Graph.vetParam value name learningRate weightDecay trainMethod with
    | error e => rfl
    | ok data =>
      simp only [Except.map, bind, Except.bind, Graph.push_eq_extend]
      rfl
  | call form =>
    rw [run, plan, Form.run_eq]
    cases form.request with
    | error e => rfl
    | ok r =>
      simp only [bind, Except.bind, Workspace.record, Workspace.applyIn, Graph.apply_eq]
      cases (ws.graph r.graph).calledNodes r.kind r.args r.kwargs r.options <;> rfl

theorem work_eq {s : Draft} (c : Construction) : c.work s = s.record (c.plan s.workspace) := by
  cases c with
  | input id name gradient placed => exact Draft.within_eq (Arena.input_eq name gradient placed)
  | param id value name learningRate weightDecay trainMethod placed =>
    rw [work, Draft.within_eq Arena.param_eq, plan]
    cases Graph.vetParam value name learningRate weightDecay trainMethod <;> rfl
  | call form =>
    simp only [work, plan]
    cases form.request with
    | error e => rfl
    | ok r =>
      simp only [bind, Except.bind, Draft.graph_workspace]
      rw [Draft.within_eq Arena.apply_eq]
      cases (s.arena r.graph).graph.calledNodes r.kind r.args r.kwargs r.options <;> rfl

/-- A call that names only what exists adds the nodes of one call to a graph that exists. -/
theorem plan_block {ws : Workspace} {c : Construction} {id : Nat} {nodes : List Node}
    (ids : ∀ id, (ws.graph id).id = id) (known : c.Known ws) (h : c.plan ws = .ok (id, nodes)) :
    id < ws.graphs.size ∧ (ws.graph id).Block nodes := by
  cases c with
  | input graph name gradient placed =>
    cases h
    exact ⟨known, .leaf rfl rfl rfl⟩
  | param graph value name learningRate weightDecay trainMethod placed =>
    simp only [plan] at h
    cases checked : Graph.vetParam value name learningRate weightDecay trainMethod with
    | error e =>
      rw [checked] at h
      cases h
    | ok data =>
      rw [checked] at h
      cases h
      exact ⟨known, .leaf rfl rfl rfl⟩
  | call form =>
    obtain ⟨r, requested, h⟩ := ok_of_bind h
    obtain ⟨added, recorded, h⟩ := ok_of_bind h
    cases h
    obtain ⟨bound, exist⟩ := known
    obtain ⟨operands, graph⟩ := Form.request_ok requested
    have there : r.graph < ws.graphs.size := by
      rcases graph with graph | ⟨n, member, graph⟩
      · exact bound _ graph
      · obtain ⟨g, found, _⟩ := exist n member
        rw [← graph]
        exact (Array.getElem?_eq_some_iff.mp found).1
    refine ⟨there, ?_⟩
    simp only [Graph.calledNodes] at recorded
    cases checked : (ws.graph r.graph).vet r.kind r.args r.kwargs r.options with
    | error e =>
      rw [checked] at recorded
      cases recorded
    | ok outputs =>
      rw [checked] at recorded
      cases recorded
      obtain ⟨_, _, positive, positional, keywords⟩ := Graph.vet_eq_ok_iff.mp checked
      refine .operation rfl positive fun i hi => ?_
      have member : .node i ∈ r.operands := Workspace.mem_inputs_iff.mp hi
      have graph : i.graph = (ws.graph r.graph).id := by
        rcases List.mem_append.mp member with member | member
        · exact Graph.graph_of_checkArgument (positional _ member) rfl
        · obtain ⟨p, hp, node⟩ := List.mem_map.mp member
          exact Graph.graph_of_checkArgument (keywords p hp) (by rw [node]; rfl)
      refine ⟨graph, ?_⟩
      have := (exist i (operands i member)).lt_size
      rw [graph, ids] at this
      exact this

/-- What a call leads to is built through calls. -/
theorem run_built {ws ws' : Workspace} {c : Construction} {refs : List NodeRef} (built : ws.Built)
    (known : c.Known ws) (h : c.run ws = .ok (ws', refs)) : ws'.Built := by
  cases c with
  | input graph name gradient placed =>
    cases h
    exact built.input graph name gradient placed
  | param graph value name learningRate weightDecay trainMethod placed =>
    obtain ⟨⟨g, n⟩, made, h⟩ := ok_of_bind h
    cases h
    exact built.param made
  | call form =>
    rw [run, Form.run_eq] at h
    obtain ⟨r, requested, h⟩ := ok_of_bind h
    exact built.apply (fun n hn => known.2 n ((Form.request_ok requested).1 n hn)) h

end Construction

namespace Arena

/-- The order of an arena. Handles are places in it, inputs are earlier nodes of the same graph, and
the selectors are just those of the further outputs of the operations, right behind each. -/
structure Arranged (a : Arena) : Prop where
  handle : ∀ (k : Nat) (e : Entry), a.entries[k]? = some e → e.handle = k
  inputs : ∀ (k : Nat) (e : Entry), a.entries[k]? = some e →
    ∀ i ∈ e.node.inputs, i.graph = a.id ∧ i.handle < k
  selectors : ∀ (h : Nat) (e : Entry), a.entries[h]? = some e → e.node.role = .operation →
    1 ≤ e.node.outputs ∧ ∀ k, 1 ≤ k → k < e.node.outputs →
      a.entries[h + k]? = some ⟨h + k, Graph.selectorOf ⟨a.id, h⟩ k⟩
  selected : ∀ (s : Nat) (e : Entry) (k : Nat), a.entries[s]? = some e → e.node.role = .selector k →
    ∃ h p, s = h + k ∧ a.entries[h]? = some p ∧ p.node.role = .operation ∧ 1 ≤ k ∧
      k < p.node.outputs ∧ e.node.args = [.node ⟨a.id, h⟩]

theorem arranged_empty (id : Nat) (registry : Registry) :
    Arranged { id, registry } := by
  refine ⟨?_, ?_, ?_, ?_⟩ <;> intros <;> simp_all

/-- Nodes that are in order among themselves keep the arena in order. -/
theorem Arranged.grow {a : Arena} {l : List Node} (h : a.Arranged)
    (inputs : ∀ (j : Nat) (n : Node), l[j]? = some n →
      ∀ i ∈ n.inputs, i.graph = a.id ∧ i.handle < a.entries.size + j)
    (selectors : ∀ (j : Nat) (n : Node), l[j]? = some n → n.role = .operation →
      1 ≤ n.outputs ∧ ∀ k, 1 ≤ k → k < n.outputs →
        l[j + k]? = some (Graph.selectorOf ⟨a.id, a.entries.size + j⟩ k))
    (selected : ∀ (j : Nat) (n : Node) (k : Nat), l[j]? = some n → n.role = .selector k →
      ∃ i p, j = i + k ∧ l[i]? = some p ∧ p.role = .operation ∧ 1 ≤ k ∧ k < p.outputs ∧
        n.args = [.node ⟨a.id, a.entries.size + i⟩]) : (a.extend l).Arranged where
  handle k e found := by
    rcases old_or_new found with old | ⟨j, n, -, -, rfl⟩
    · exact h.handle k e old
    · rfl
  inputs k e found := by
    rw [id_extend]
    rcases old_or_new found with old | ⟨j, n, new, rfl, rfl⟩
    · exact h.inputs k e old
    · exact inputs j n new
  selectors k e found role := by
    rw [id_extend]
    rcases old_or_new found with old | ⟨j, n, new, rfl, rfl⟩
    · obtain ⟨positive, behind⟩ := h.selectors k e old role
      exact ⟨positive, fun i one lt => getElem?_extend_old (behind i one lt)⟩
    · obtain ⟨positive, behind⟩ := selectors j n new role
      refine ⟨positive, fun i one lt => ?_⟩
      rw [Nat.add_assoc]
      exact getElem?_extend_new (behind i one lt)
  selected s e k found role := by
    rw [id_extend]
    rcases old_or_new found with old | ⟨j, n, new, rfl, rfl⟩
    · obtain ⟨p, parent, eq, there, rest⟩ := h.selected s e k old role
      exact ⟨p, parent, eq, getElem?_extend_old there, rest⟩
    · obtain ⟨i, p, rfl, there, rest⟩ := selected j n k new role
      exact ⟨a.entries.size + i, _, (Nat.add_assoc ..).symm, getElem?_extend_new there, rest⟩

/-- A call keeps the arena in order. -/
theorem Arranged.extend {a : Arena} {nodes : List Node} (h : a.Arranged)
    (block : a.graph.Block nodes) : (a.extend nodes).Arranged := by
  cases block with
  | @leaf n leaf args kwargs =>
    have only {j : Nat} {m : Node} (found : [n][j]? = some m) : m = n :=
      List.mem_singleton.mp (List.mem_of_getElem? found)
    refine h.grow (fun j m found i hi => ?_) (fun j m found role => ?_) fun j m k found role => ?_
    · rw [only found] at hi
      simp [Node.inputs, args, kwargs] at hi
    all_goals
      rw [only found] at role
      simp [Node.isLeaf, Node.isInput, Node.isParam, role] at leaf
  | @operation n role outputs inputs =>
    have ref : a.graph.ref a.graph.size = ⟨a.id, a.entries.size + 0⟩ := by rw [size_graph]; rfl
    refine h.grow (fun j m found i hi => ?_) (fun j m found operation => ?_) fun j m k found selector => ?_
    · cases j with
      | zero =>
        cases found
        obtain ⟨graph, lt⟩ := inputs i hi
        exact ⟨graph, by rwa [size_graph] at lt⟩
      | succ j =>
        obtain ⟨_, rfl⟩ := Graph.additions_succ.mp found
        have eq : i = a.graph.ref a.graph.size := by
          simpa [Graph.selectorOf, Node.inputs, Value.node?] using hi
        rw [eq, ref]
        exact ⟨rfl, by dsimp only; omega⟩
    · cases j with
      | zero =>
        cases found
        refine ⟨outputs, fun k one lt => ?_⟩
        obtain ⟨k, rfl⟩ := Nat.exists_eq_add_of_le' one
        rw [Nat.zero_add, ← ref]
        exact Graph.additions_succ.mpr ⟨lt, rfl⟩
      | succ j =>
        obtain ⟨_, rfl⟩ := Graph.additions_succ.mp found
        cases operation
    · cases j with
      | zero =>
        cases found
        rw [role] at selector
        cases selector
      | succ j =>
        obtain ⟨lt, rfl⟩ := Graph.additions_succ.mp found
        cases selector
        refine ⟨0, n, (Nat.zero_add _).symm, rfl, role, by omega, lt, ?_⟩
        rw [← ref]
        rfl

/-- The handles that the entry at a handle reads. -/
def Reads (a : Arena) (reader read : Nat) : Prop :=
  ∃ e, a.entries[reader]? = some e ∧ ∃ i ∈ e.node.inputs, i.handle = read

/-- No node leads back to itself. -/
theorem Arranged.acyclic {a : Arena} (h : a.Arranged) (k : Nat) :
    ¬ Relation.TransGen a.Reads k k := by
  have earlier : ∀ {j i}, Relation.TransGen a.Reads j i → i < j := by
    intro j i path
    induction path with
    | single reads =>
      obtain ⟨e, found, i, hi, rfl⟩ := reads
      exact (h.inputs _ e found i hi).2
    | tail _ reads ih =>
      obtain ⟨e, found, i, hi, rfl⟩ := reads
      exact Nat.lt_trans (h.inputs _ e found i hi).2 ih
  exact fun cycle => Nat.lt_irrefl k (earlier cycle)

end Arena

/-! ### Programs -/

/-- What becomes of a call: it fails and leaves everything as it was, or it adds the nodes of one call
to one graph and refers to them. -/
inductive Construction.AllOrNothing (c : Construction) (s : Draft) : Prop where
  | fails (e : Error) : c.work s = .error e s → c.run s.workspace = .error e → AllOrNothing c s
  | adds (id : Nat) (nodes : List Node) : id < s.arenas.size → (s.arena id).graph.Block nodes →
      c.work s = .ok (s.references id nodes.length) (s.adding id nodes) →
      c.run s.workspace = .ok ((s.adding id nodes).workspace, s.references id nodes.length) →
      AllOrNothing c s

/-- Graphs know their numbers and are in order. -/
def Draft.Arranged (s : Draft) : Prop :=
  ∀ (id : Nat) (a : Arena), s.arenas[id]? = some a → a.id = id ∧ a.Arranged

namespace Draft.Arranged

variable {s : Draft} (h : s.Arranged)
include h

theorem arena (id : Nat) : (s.arena id).id = id ∧ (s.arena id).Arranged := by
  unfold Draft.arena
  cases found : s.arenas[id]? with
  | none => exact ⟨rfl, Arena.arranged_empty id .builtin⟩
  | some a => exact h id a found

theorem set {id : Nat} {a : Arena} (number : a.id = id) (arranged : a.Arranged) :
    (s.set id a).Arranged := by
  intro k b found
  simp only [Draft.set, Array.getElem?_setIfInBounds] at found
  split at found
  next same =>
    split at found
    next =>
      cases found
      exact ⟨number.trans same, arranged⟩
    next => cases found
  next => exact h k b found

/-- A call does all that it is to do or nothing, and what it does in steps is what the library does. -/
theorem step {c : Construction} (known : c.Known s.workspace) : c.AllOrNothing s := by
  have ids : ∀ id, (s.workspace.graph id).id = id := fun id => by
    rw [Draft.graph_workspace]
    exact (h.arena id).1
  have work := c.work_eq (s := s)
  have run := c.run_eq s.workspace
  cases planned : c.plan s.workspace with
  | error e =>
    rw [planned] at work run
    exact .fails e work run
  | ok p =>
    obtain ⟨id, nodes⟩ := p
    obtain ⟨number, -⟩ := h.arena id
    obtain ⟨there, block⟩ := Construction.plan_block ids known planned
    have refs : (s.arena id).graph.ref = (⟨id, ·⟩) := funext fun k => by
      rw [Graph.ref, show (s.arena id).graph.id = id from number]
    have adding : (s.adding id nodes).workspace =
        s.workspace.setGraph ((s.arena id).graph.extend nodes) := by
      rw [Draft.adding, Draft.workspace_set id _ (by rw [Arena.id_extend, number]),
        Arena.graph_extend]
    simp only [planned, Draft.record, Except.map, Draft.graph_workspace, Graph.append, refs,
      Arena.size_graph, ← adding] at work run
    exact .adds id nodes (by simpa [Draft.workspace] using there)
      (by rwa [Draft.graph_workspace] at block) work run

end Draft.Arranged

/-- What a call leaves, whether it succeeds or fails. -/
def Construction.after (c : Construction) (s : Draft) : Draft :=
  match c.work s with
  | .ok _ s' | .error _ s' => s'

/-- The drafts that programs come to. Calls name only what exists, and between them operations may be
registered. -/
inductive Drafted : Draft → Prop where
  | start : Drafted {}
  | graph {s : Draft} : Drafted s → Drafted ⟨s.arenas.push { id := s.arenas.size }⟩
  | register {s : Draft} (id : Nat) (registry : Registry) :
      Drafted s → Drafted (s.set id ((s.arena id).register registry))
  | call {s : Draft} (c : Construction) : Drafted s → c.Known s.workspace → Drafted (c.after s)

namespace Drafted

variable {s : Draft}

theorem arranged (h : Drafted s) : s.Arranged := by
  induction h with
  | start =>
    intro id a found
    simp at found
  | @graph s _ ih =>
    intro id a found
    simp only [Array.getElem?_push] at found
    split at found
    next new =>
      cases found
      exact ⟨new.symm, Arena.arranged_empty _ _⟩
    next => exact ih id a found
  | @register s id registry _ ih =>
    obtain ⟨number, arranged⟩ := ih.arena id
    exact ih.set number ⟨arranged.handle, arranged.inputs, arranged.selectors, arranged.selected⟩
  | @call s c _ known ih =>
    unfold Construction.after
    cases ih.step known with
    | fails e fails _ =>
      rw [fails]
      exact ih
    | adds id nodes _ block succeeds _ =>
      rw [succeeds]
      obtain ⟨number, arranged⟩ := ih.arena id
      exact ih.set (by rw [Arena.id_extend]; exact number) (arranged.extend block)

/-- The graphs of a program are graphs built through calls. -/
theorem built (h : Drafted s) : s.workspace.Built := by
  induction h with
  | start => simpa [Draft.workspace] using Workspace.Built.empty
  | @graph s _ ih => simpa [Draft.workspace, Workspace.addGraph, Arena.graph] using ih.addGraph
  | @register s id registry drafted ih =>
    have number : ((s.arena id).register registry).id = id := (drafted.arranged.arena id).1
    have graph : ((s.arena id).register registry).graph = { s.workspace.graph id with registry } := by
      rw [Draft.graph_workspace]
      rfl
    rw [Draft.workspace_set id _ number, graph]
    exact ih.register id registry
  | @call s c drafted known ih =>
    unfold Construction.after
    cases drafted.arranged.step known with
    | fails e fails _ =>
      rw [fails]
      exact ih
    | adds id nodes _ _ succeeds run =>
      rw [succeeds]
      exact Construction.run_built ih known run

/-- However a program builds its graphs, with calls that succeed and calls that fail: every handle is
the node's place in its arena, inputs are earlier nodes of the same graph, so that no node leads back
to itself, and the selectors are just those of the further outputs, right behind their operation. A
call that fails changes nothing, and one that succeeds adds its nodes at the end of one arena. -/
theorem arena_invariant (h : Drafted s) :
    (∀ (id : Nat) (a : Arena), s.arenas[id]? = some a →
      a.id = id ∧ a.Arranged ∧ ∀ k, ¬ Relation.TransGen a.Reads k k) ∧
    ∀ c : Construction, c.Known s.workspace → c.AllOrNothing s := by
  refine ⟨fun id a found => ?_, fun c known => h.arranged.step known⟩
  obtain ⟨number, arranged⟩ := h.arranged id a found
  exact ⟨number, arranged, arranged.acyclic⟩

end Drafted

namespace Construction

def sampleInput : Construction := .input 0 (some "x") false false

/-- No such way of training is known. -/
def sampleParam : Construction := .param 0 (.int 1) none (.int 1) (.int 1) "adam" false

def sampleCall : Construction :=
  .call (.apply { graph := 0, kind := "neg", args := [.node ⟨0, 0⟩], options := { outputs := some 2 } })

def sample : Draft :=
  sampleCall.after (sampleParam.after (sampleInput.after ⟨({} : Draft).arenas.push { id := 0 }⟩))

theorem sampleCall_known {s : Draft} {a : Arena} (found : s.arenas[0]? = some a)
    (bound : 0 < a.entries.size) : sampleCall.Known s.workspace := by
  refine ⟨fun id graph => ?_, fun n hn => ?_⟩
  · cases graph
    exact Nat.lt_of_lt_of_eq (Array.getElem?_eq_some_iff.mp found).1 Draft.size_workspace.symm
  · obtain rfl : n = ⟨0, 0⟩ := by simpa [Form.operands, Request.operands] using hn
    exact Draft.exists_of_getElem? found bound

theorem sampleParam_known {s : Draft} (size : s.arenas.size = 1) : sampleParam.Known s.workspace := by
  rw [sampleParam, Known, Draft.size_workspace, size]
  exact Nat.one_pos

theorem sample_drafted : Drafted sample := by
  refine .call sampleCall (.call sampleParam (.call sampleInput (.graph .start) ?_) ?_) ?_
  · rw [sampleInput, Known, Draft.size_workspace]
    exact Nat.one_pos
  · exact sampleParam_known rfl
  · exact sampleCall_known rfl Nat.one_pos

theorem arena_invariant_sample : Drafted sample ∧ (sample.arena 0).entries.size = 3 ∧
    (∀ (id : Nat) (a : Arena), sample.arenas[id]? = some a →
      a.id = id ∧ a.Arranged ∧ ∀ k, ¬ Relation.TransGen a.Reads k k) ∧
    sampleParam.AllOrNothing sample ∧ sampleCall.AllOrNothing sample := by
  obtain ⟨order, calls⟩ := sample_drafted.arena_invariant
  refine ⟨sample_drafted, rfl, order, calls sampleParam (sampleParam_known rfl),
    calls sampleCall (sampleCall_known rfl ?_)⟩
  decide

end Construction

end Backprop
