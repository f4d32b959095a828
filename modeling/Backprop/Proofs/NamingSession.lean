import Backprop.Proofs.Construction
import Backprop.Proofs.Resolution
/-!
# A namer that outlives changes to its graph

A namer knows the names of its graph from when it was created, and those that it has given itself.

* `Construction.name_run`: constructing nodes names no other nodes.
* `Namer.Session` is a namer in use, while nodes are constructed and renamed.
* `Session.knows` is what a session keeps, by induction over its steps.
* `Session.gives`: so a name that the namer gives was never its own before, and if another node has
  it, it was put there after the namer was created.
-/

namespace Backprop

open Workspace

/-- Nodes added at the end are at no other handles. -/
theorem Graph.getElem?_extend_outside {g : Graph} {nodes : List Node} {k : Nat}
    (outside : k < g.size ∨ g.size + nodes.length ≤ k) :
    (g.extend nodes).nodes[k]? = g.nodes[k]? := by
  unfold Graph.size at outside
  simp only [extend, Array.getElem?_append, List.getElem?_toArray]
  split
  next => rfl
  next behind =>
    rw [List.getElem?_eq_none (by omega), Array.getElem?_eq_none (by omega)]

theorem Workspace.Sound.graph?_extend {ws : Workspace} (sound : ws.Sound) {id : Nat} (there : id < ws.graphs.size)
    (nodes : List Node) (k : Nat) : (ws.setGraph ((ws.graph id).extend nodes)).graph? k =
      if k = id then some ((ws.graph id).extend nodes) else ws.graph? k := by
  have number : ((ws.graph id).extend nodes).id = id := sound.graph_id id
  by_cases same : k = id
  · have found := graph?_setGraph (number.symm ▸ there : ((ws.graph id).extend nodes).id < ws.graphs.size)
    rw [number] at found
    rw [if_pos same, same, found]
  · simp only [Workspace.graph?, Workspace.setGraph, Array.getElem?_setIfInBounds, number]
    rw [if_neg (fun eq => same eq.symm), if_neg same]

/-- Nodes that a construction does not refer to keep their names. -/
theorem Construction.name_run {ws ws' : Workspace} {c : Construction} {refs : List NodeRef}
    (sound : ws.Sound) (known : c.Known ws) (run : c.run ws = .ok (ws', refs)) {n : NodeRef}
    (old : n ∉ refs) : ws'.name n = ws.name n := by
  rw [c.run_eq] at run
  cases planned : c.plan ws with
  | error e =>
    rw [planned] at run
    cases run
  | ok p =>
    obtain ⟨id, nodes⟩ := p
    rw [planned] at run
    cases run
    obtain ⟨there, -⟩ := plan_block sound.graph_id known planned
    unfold Workspace.name Workspace.node
    rw [sound.graph?_extend there]
    by_cases same : n.graph = id
    · subst same
      have found : ws.graph? n.graph = some (ws.graph n.graph) := by
        rw [Workspace.graph, Workspace.graph?, Array.getElem?_eq_getElem there]
        rfl
      have outside : n.handle < (ws.graph n.graph).size ∨
          (ws.graph n.graph).size + nodes.length ≤ n.handle := by
        refine Classical.or_iff_not_imp_left.mpr fun behind => Nat.le_of_not_lt fun inside => old ?_
        refine List.mem_map.mpr ⟨n.handle, List.mem_range'_1.mpr ⟨by omega, inside⟩, ?_⟩
        exact eq_of_handle (sound.graph_id n.graph) rfl
      rw [found, if_pos rfl, Option.bind_some, Option.bind_some, Graph.getElem?_extend_outside outside]
    · rw [if_neg same]

namespace Namer

/-- The calls of a namer. -/
inductive Call where
  | default (nodes : List NodeRef)
  | sequential (order : List NodeRef)
  | workspace (mapping : Keywords)

namespace Call

/-- A call, with the namer as earlier calls have left it. -/
def run (ws : Workspace) (nm : Namer) : Call → Except Error Unit × Naming
  | default nodes => (.ok (), Naming.assignDefault { workspace := ws, namer := nm } nodes)
  | sequential order => Naming.assignSequential { workspace := ws, namer := nm } order
  | workspace mapping => (.ok (), Naming.assignWorkspace { workspace := ws, namer := nm } mapping)

/-- A call names only nodes that exist, and lists nodes of the namer's graph. -/
def Known (ws : Workspace) (nm : Namer) : Call → Prop
  | default nodes | sequential nodes => ∀ n ∈ nodes, ws.Exists n ∧ n.graph = nm.graph
  | workspace mapping => ∀ n, .node n ∈ mapping.map (·.2) → ws.Exists n

theorem run_since {ws : Workspace} {nm : Namer} {call : Call} (built : ws.Built)
    (known : call.Known ws nm) : ∃ s, call.run ws nm = (.ok (), s) ∧ Naming.Since ws nm s := by
  have start := Naming.Since.begin built nm
  cases call with
  | default nodes => exact ⟨_, rfl, start.assignDefault known⟩
  | sequential order => exact start.assignSequential known
  | workspace mapping => exact ⟨_, rfl, start.assignWorkspace known⟩

end Call

/-- A namer of a graph in use: the workspace as it is, the namer, the names that it has given, and
those that were put on nodes of the graph since it was created, by constructing nodes with a name and
by renaming nodes. -/
inductive Session (id : Nat) (start : Workspace) :
    Workspace → Namer → List String → List String → Prop where
  | create : start.Built → Session id start start (.ofGraph (start.graph id)) [] []
  | construct {ws ws' : Workspace} {nm : Namer} {given put : List String} {refs : List NodeRef}
      (c : Construction) : Session id start ws nm given put → c.Known ws →
      c.run ws = .ok (ws', refs) →
      Session id start ws' nm given ((refs.filter (·.graph = id)).filterMap ws'.name ++ put)
  | rename {ws : Workspace} {nm : Namer} {given put : List String} (n : NodeRef)
      (name : Option String) : Session id start ws nm given put →
      Session id start (ws.rename n name) nm given ((if n.graph = id then name.toList else []) ++ put)
  | call {ws : Workspace} {nm : Namer} {given put : List String} (call : Call) :
      Session id start ws nm given put → call.Known ws nm →
      Session id start (call.run ws nm).2.workspace (call.run ws nm).2.namer
        ((call.run ws nm).2.assigned.map (·.2) ++ given) put

namespace Session

variable {id : Nat} {start ws : Workspace} {nm : Namer} {given put : List String}

/-- What a namer in use knows. -/
structure Knows (id : Nat) (start ws : Workspace) (nm : Namer) (given put : List String) : Prop where
  built : ws.Built
  graph : nm.graph = id
  /-- It knows the names from when it was created, and those that it has given. -/
  taken : ∀ x, x ∈ nm.taken ↔ x ∈ (start.graph id).names ∨ x ∈ given
  /-- No name was given twice, and none that was there at first. -/
  distinct : given.Nodup
  fresh : ∀ x ∈ given, x ∉ (start.graph id).names
  /-- All names are known but those that were put on nodes since. -/
  carried : ∀ n x, n.graph = id → ws.name n = some x → x ∈ nm.taken ∨ x ∈ put

theorem Knows.call (h : Knows id start ws nm given put) {s : Naming} (since : Naming.Since ws nm s) :
    Knows id start s.workspace s.namer (s.assigned.map (·.2) ++ given) put := by
  have known : ∀ x, x ∈ s.namer.taken ↔
      x ∈ (start.graph id).names ∨ x ∈ s.assigned.map (·.2) ++ given := by
    intro x
    rw [since.taken, h.taken, List.mem_append]
    exact ⟨by rintro ((a | b) | c) <;> simp [*], by rintro (a | b | c) <;> simp [*]⟩
  constructor
  case built => exact since.built
  case graph => exact since.graph.trans h.graph
  case taken => exact known
  case distinct =>
    refine since.names.append h.distinct fun x new old => ?_
    exact since.fresh x new ((h.taken x).mpr (.inr old))
  case fresh =>
    intro x mem first
    rcases List.mem_append.mp mem with new | old
    · exact since.fresh x new ((h.taken x).mpr (.inl first))
    · exact h.fresh x old first
  case carried =>
    intro n x graph now
    rcases (since.name n x).mp now with old | ⟨-, new⟩
    · refine (h.carried n x graph old).imp_left fun taken => ?_
      exact (since.taken x).mpr (.inl taken)
    · exact .inl ((since.taken x).mpr (.inr (List.mem_map.mpr ⟨_, new, rfl⟩)))

theorem knows (session : Session id start ws nm given put) : Knows id start ws nm given put := by
  induction session with
  | create built =>
    refine ⟨built, built.sound.graph_id id, by simp [ofGraph], .nil, by simp, ?_⟩
    intro n x graph named
    have known := (exists_of_name named).name_mem_names named
    rw [graph] at known
    exact .inl known
  | @construct ws ws' nm given put refs c _ known run ih =>
    refine ⟨Construction.run_built ih.built known run, ih.graph, ih.taken, ih.distinct, ih.fresh, ?_⟩
    intro n x graph named
    by_cases new : n ∈ refs
    · refine .inr (List.mem_append_left _ (List.mem_filterMap.mpr ⟨n, ?_, named⟩))
      exact List.mem_filter.mpr ⟨new, by simpa using graph⟩
    · rw [Construction.name_run ih.built.sound known run new] at named
      exact (ih.carried n x graph named).imp_right (List.mem_append_right _)
  | @rename ws nm given put n name _ ih =>
    refine ⟨.rename n name ih.built, ih.graph, ih.taken, ih.distinct, ih.fresh, ?_⟩
    intro m x graph named
    rcases ih.built.sound.name_rename named with ⟨old, -⟩ | ⟨rfl, rfl⟩
    · exact (ih.carried m x graph old).imp_right (List.mem_append_right _)
    · exact .inr (by simp [graph])
  | @call ws nm given put call _ known ih =>
    obtain ⟨s, run, since⟩ := call.run_since ih.built known
    rw [run]
    exact ih.call since

/-- However a namer is used, while nodes are constructed and renamed: its calls succeed, name only
nodes that have no name, and return what they have done. The names are different; none was in the
graph when the namer was created, and none was given by it before, whatever has become of the nodes.
If another node has the same name, it had it before the call, and the name was put on a node since the
namer was created. -/
theorem gives (session : Session id start ws nm given put) {call : Call} (known : call.Known ws nm) :
    ∃ s, call.run ws nm = (.ok (), s) ∧ KeepsNames ws s.workspace ∧ SameShape ws s.workspace ∧
      (s.assigned.map (·.1)).Nodup ∧ (s.assigned.map (·.2)).Nodup ∧
      (∀ n x, (ws.name n = none ∧ s.workspace.name n = some x) ↔
        n.graph = id ∧ (n.handle, x) ∈ s.assigned) ∧
      ∀ n x, n.graph = id → (n.handle, x) ∈ s.assigned →
        x ∉ (start.graph id).names ∧ x ∉ given ∧
        ∀ m, m.graph = id → m ≠ n → s.workspace.name m = some x → ws.name m = some x ∧ x ∈ put := by
  have knows := session.knows
  obtain ⟨s, run, since⟩ := call.run_since knows.built known
  have changes := since.changes
  rw [knows.graph] at changes
  refine ⟨s, run, fun n x old => (since.name n x).mpr (.inl old), since.same, since.handles,
    since.names, changes, fun n x graph new => ?_⟩
  have unknown : x ∉ nm.taken := since.fresh x (List.mem_map.mpr ⟨_, new, rfl⟩)
  refine ⟨fun first => unknown ((knows.taken x).mpr (.inl first)),
    fun old => unknown ((knows.taken x).mpr (.inr old)), fun m graph' ne now => ?_⟩
  have old := since.alone (graph.trans knows.graph.symm) new now ne
  exact ⟨old, (knows.carried m x graph' old).resolve_left unknown⟩

/-- A graph with an input that has no name. -/
def sampleStart : Workspace :=
  let ws := ({} : Workspace).addGraph.1
  ws.setGraph ((ws.graph 0).input none false false).1

def sampleNamer : Namer := .ofGraph (sampleStart.graph 0)

def sampleCall : Call := .default [⟨0, 0⟩]

/-- The input after it was named. -/
def sampleNamed : Naming := (sampleCall.run sampleStart sampleNamer).2

/-- A second input, with a name that the namer does not know. -/
def sampleLater : Construction := .input 0 (some "input1") false false

def sampleGrown : Workspace :=
  sampleStart.setGraph ((sampleStart.graph 0).input (some "input1") false false).1

theorem sampleCreated : Session 0 sampleStart sampleStart sampleNamer [] [] :=
  .create ((Workspace.Built.empty).addGraph.input 0 none false false)

theorem sampleCall_known {ws : Workspace} {nm : Namer} (graph : nm.graph = 0)
    (there : ws.Exists ⟨0, 0⟩) : sampleCall.Known ws nm := by
  intro n mem
  obtain rfl := List.mem_singleton.mp mem
  exact ⟨there, graph.symm⟩

/-- The input is named, loses its name again, and gets the next one. -/
theorem gives_sample :
    Session 0 sampleStart (sampleNamed.workspace.rename ⟨0, 0⟩ none) sampleNamed.namer ["input1"] [] ∧
    ∃ s, sampleCall.run (sampleNamed.workspace.rename ⟨0, 0⟩ none) sampleNamed.namer = (.ok (), s) ∧
      s.assigned = [(0, "input2")] ∧ "input2" ∉ (sampleStart.graph 0).names ∧
      "input2" ∉ ["input1"] := by
  have first : sampleNamed.assigned = [(0, "input1")] := by cbv
  have second : (sampleCall.run (sampleNamed.workspace.rename ⟨0, 0⟩ none)
      sampleNamed.namer).2.assigned = [(0, "input2")] := by cbv
  have there : (sampleNamed.workspace.rename ⟨0, 0⟩ none).Exists ⟨0, 0⟩ :=
    exists_of_lt_size (of_decide_eq_true (by cbv))
  have session : Session 0 sampleStart (sampleNamed.workspace.rename ⟨0, 0⟩ none) sampleNamed.namer
      (sampleNamed.assigned.map (·.2) ++ []) [] :=
    (sampleCreated.call sampleCall (sampleCall_known rfl ⟨_, rfl, by decide⟩)).rename ⟨0, 0⟩ none
  rw [first] at session
  obtain ⟨s, run, -, -, -, -, -, new⟩ := session.gives (sampleCall_known session.knows.graph there)
  rw [run] at second
  obtain ⟨fresh, unused, -⟩ := new ⟨0, 0⟩ "input2" rfl (by rw [second]; simp)
  exact ⟨session, s, run, second, fresh, unused⟩

/-- A name that was put on a node after the namer was created is given again. -/
theorem gives_later_name : Session 0 sampleStart sampleGrown sampleNamer [] ["input1"] ∧
    sampleCall.Known sampleGrown sampleNamer ∧
    ∃ s, sampleCall.run sampleGrown sampleNamer = (.ok (), s) ∧ s.assigned = [(0, "input1")] ∧
      s.workspace.name ⟨0, 0⟩ = some "input1" ∧ s.workspace.name ⟨0, 1⟩ = some "input1" := by
  refine ⟨?_, sampleCall_known rfl ⟨_, rfl, by decide⟩, (sampleCall.run sampleGrown sampleNamer).2,
    rfl, by cbv, by cbv, by cbv⟩
  exact sampleCreated.construct sampleLater Nat.one_pos rfl

end Session

end Namer

end Backprop
