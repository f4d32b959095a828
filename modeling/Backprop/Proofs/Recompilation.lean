import Mathlib
import Backprop.Proofs.CompileOutcome
import Backprop.Proofs.LeastOrder
import Backprop.Proofs.Locality
import Backprop.Proofs.NamingSession
/-!
# Compiling again

Compiling names what it reaches, and nothing that happens to a workspace afterwards, short of renaming
nodes, can be seen by compiling for the same terminals again.

* `Construction.continues`: constructing nodes leaves those that exist as they are; `Grown.continues`: so
  does any number of constructions and compilations.
* `Built.recompile`: compiling again yields the schedule there is, whatever was compiled and constructed
  in between, in either mode, and however often and in whichever order the terminals are named.
-/

namespace Backprop

open Workspace

namespace Workspace

variable {ws ws' ws'' : Workspace}

/-- Existing nodes are as they were if their graphs have only grown. -/
theorem continues_of_graphs (built : ws'.Built)
    (grown : ∀ n, ws.Exists n → ∃ g g', ws.graph? n.graph = some g ∧ ws'.graph? n.graph = some g' ∧
      g'.registry = g.registry ∧ n.handle < g'.nodes.size ∧
      g'.nodes[n.handle]? = g.nodes[n.handle]?) : ws.Continues ws' := by
  refine ⟨built, fun n there => ?_, fun n there => ?_, fun n named => ?_⟩
  · obtain ⟨g, g', -, found, -, bound, -⟩ := grown n there
    exact ⟨g', found, bound⟩
  · obtain ⟨g, g', old, new, registry, -⟩ := grown n there
    rw [Workspace.graph, Workspace.graph, old, new]
    exact registry
  · obtain ⟨x, named⟩ := Option.isSome_iff_exists.mp named
    obtain ⟨g, g', old, new, -, -, same⟩ := grown n (exists_of_name named)
    rw [Workspace.node, Workspace.node, old, new, Option.bind_some, Option.bind_some, same]

theorem Construction.continues {c : Construction} {refs : List NodeRef} (built : ws.Built)
    (known : c.Known ws) (run : c.run ws = .ok (ws', refs)) : ws.Continues ws' := by
  have built' := Construction.run_built built known run
  rw [c.run_eq] at run
  cases planned : c.plan ws with
  | error e =>
    rw [planned] at run
    cases run
  | ok p =>
    obtain ⟨id, nodes⟩ := p
    rw [planned] at run
    cases run
    have there := (Construction.plan_block built.sound.graph_id known planned).1
    refine continues_of_graphs built' fun n ⟨g, found, bound⟩ => ?_
    rw [built.sound.graph?_extend there]
    by_cases same : n.graph = id
    · have here : ws.graph id = g := by rw [Workspace.graph, ← same, found]; rfl
      refine ⟨g, _, found, if_pos same, by rw [here]; rfl, ?_, ?_⟩
      · rw [here, Graph.extend, Array.size_append]
        omega
      · rw [here]
        exact Graph.getElem?_extend_outside (.inl bound)
    · exact ⟨g, g, found, by rw [if_neg same, found], rfl, bound, rfl⟩

theorem continues_addGraph (built : ws.Built) : ws.Continues ws.addGraph.1 := by
  refine continues_of_graphs (.addGraph built) fun n ⟨g, found, bound⟩ => ?_
  have number := (Array.getElem?_eq_some_iff.mp found).1
  have kept : ws.addGraph.1.graph? n.graph = ws.graph? n.graph := by
    rw [graph?, graph?, addGraph, Array.getElem?_push_lt number, Array.getElem?_eq_getElem number]
  exact ⟨g, g, found, kept.trans found, rfl, bound, rfl⟩

/-- The workspaces that constructing nodes, adding graphs and compiling lead to. Compiling may be for
any terminals that exist, and it may fail. -/
inductive Grown (ws : Workspace) : Workspace → Prop where
  | now : Grown ws ws
  | addGraph {ws' : Workspace} : Grown ws ws' → Grown ws ws'.addGraph.1
  | construct {ws' ws'' : Workspace} {refs : List NodeRef} (c : Construction) : Grown ws ws' →
      c.Known ws' → c.run ws' = .ok (ws'', refs) → Grown ws ws''
  | compile {ws' : Workspace} {terminals : List Value} (options : CompileOptions) : Grown ws ws' →
      (∀ n ∈ nodesIn terminals, ws'.Exists n) → Grown ws (ws'.compile terminals options).2

theorem Grown.continues (built : ws.Built) (grown : Grown ws ws') : ws.Continues ws' := by
  induction grown with
  | now => exact .refl built
  | addGraph _ ih => exact ih.trans (continues_addGraph ih.built)
  | construct c _ known run ih => exact ih.trans (Construction.continues ih.built known run)
  | compile options _ exist ih => exact ih.trans (ih.built.compile_continues exist options)

/-! ### One order -/

section
variable {id : Nat} {roots roots' order order' : List NodeRef}

/-- Roots that are the same nodes have the same order, also in a workspace that has changed elsewhere. -/
theorem Orders.alike (ord : ws.Orders id roots order) (alike : ws.Alike ws' (· ∈ order))
    (exist : ∀ n ∈ order, ws'.Exists n) (same : ∀ n, n ∈ roots' ↔ n ∈ roots) :
    ws'.Orders id roots' order := by
  refine ⟨ord.sorted, fun n => ⟨fun mem => ?_, fun reaches => ?_⟩, exist, ord.graph⟩
  · have reaches := (ord.mem_iff n).mp mem
    clear mem
    induction reaches with
    | root mem => exact .root ((same _).mpr mem)
    | @input m i reaches mem ih => exact ih.input (alike.inputs ((ord.mem_iff m).mpr reaches) ▸ mem)
  · induction reaches with
    | root mem => exact ord.root_mem ((same _).mp mem)
    | input _ mem ih => exact ord.input_mem ih (alike.inputs ih ▸ mem)

/-- The graph of an order still has its registry. -/
theorem Continues.registryFor (continues : ws.Continues ws') (ord : ws.Orders id roots order)
    (some : ∃ n, n ∈ roots) (registry : Option Registry) :
    ws'.registryFor id registry = ws.registryFor id registry := by
  obtain ⟨n, hn⟩ := some
  have mem := ord.root_mem hn
  have own := continues.registry n (ord.exist n mem)
  rw [ord.graph n mem] at own
  simp only [Workspace.registryFor, own]

end

/-! ### Compiling twice -/

section
variable {terminals terminals' : List Value} {options : CompileOptions} {s : Schedule} {id : Nat}
  {nodes order : List NodeRef}

theorem mem_nodesIn {n : NodeRef} : n ∈ nodesIn terminals ↔ .node n ∈ terminals := by
  rw [nodesIn, List.mem_filterMap]
  constructor
  · rintro ⟨v, mem, node⟩
    exact eq_node_of_node? node ▸ mem
  · exact fun mem => ⟨_, mem, rfl⟩

theorem eq_map_nodesIn (nodes : ∀ v ∈ terminals, ∃ n, v = .node n) :
    terminals = (nodesIn terminals).map .node := by
  induction terminals with
  | nil => rfl
  | cons v terminals ih =>
    obtain ⟨n, rfl⟩ := nodes v (by simp)
    have rest := ih fun v hv => nodes v (by simp [hv])
    exact congrArg (Value.node n :: ·) rest

/-- Values that pass for terminals are nodes. -/
theorem checkTerminals_nodes (checked : checkTerminals terminals = .ok (id, nodes)) :
    terminals ≠ [] ∧ ∀ v ∈ terminals, ∃ n, v = .node n := by
  unfold checkTerminals at checked
  dsimp only at checked
  split at checked
  next => cases checked
  next some =>
    obtain ⟨found, each, -⟩ := ok_of_bind checked
    refine ⟨fun none => some (by rw [none]; rfl), fun v hv => ?_⟩
    obtain ⟨n, -, node⟩ := forall₂_mem_left (forall₂_of_mapM each) v hv
    split at node
    next m here => exact ⟨m, eq_node_of_node? here⟩
    next => cases node

theorem checkTerminals_root (checked : checkTerminals terminals = .ok (id, nodes)) :
    ∃ n, n ∈ nodesIn terminals := by
  obtain ⟨nonempty, each⟩ := checkTerminals_nodes checked
  obtain ⟨v, hv⟩ := List.exists_mem_of_ne_nil _ nonempty
  obtain ⟨n, rfl⟩ := each v hv
  exact ⟨n, mem_nodesIn.mpr hv⟩

/-- The same terminals in another order, or some of them again, are nodes of the same graph. -/
theorem checkTerminals_same (checked : checkTerminals terminals = .ok (id, nodes))
    (same : ∀ v, v ∈ terminals' ↔ v ∈ terminals) :
    checkTerminals terminals' = .ok (id, nodesIn terminals') ∧
      ∀ n, n ∈ nodesIn terminals' ↔ n ∈ nodesIn terminals := by
  obtain ⟨nonempty, each⟩ := checkTerminals_nodes checked
  obtain ⟨rfl, graph⟩ := checkTerminals_spec checked
  have members : ∀ n, n ∈ nodesIn terminals' ↔ n ∈ nodesIn terminals := fun n => by
    rw [mem_nodesIn, mem_nodesIn, same]
  have eq := eq_map_nodesIn fun v hv => each v ((same v).mp hv)
  obtain ⟨v, hv⟩ := List.exists_mem_of_ne_nil _ nonempty
  have nonempty' : nodesIn terminals' ≠ [] := fun none => by
    rw [none] at eq
    exact absurd ((same v).mpr hv) (by rw [eq]; simp)
  refine ⟨?_, members⟩
  have check := checkTerminals_roots nonempty' fun n hn => graph n ((members n).mp hn)
  rwa [← eq] at check

theorem Alike.duplicateNames (alike : ws.Alike ws' (· ∈ order)) :
    ws'.duplicateNames order = ws.duplicateNames order := by
  have names : order.filterMap ws'.name = order.filterMap ws.name :=
    List.filterMap_congr fun n hn => alike.name hn
  have group : ∀ x, (order.filter fun n => ws'.name n == some x) =
      order.filter fun n => ws.name n == some x := fun x =>
    List.filter_congr fun n hn => by rw [alike.name hn]
  simp only [Workspace.duplicateNames, names, group]

/-- What comes out if the order, the names and the schedule are known. -/
theorem compile_of_steps {named : Workspace} {assigned : Assignment}
    (checked : checkTerminals terminals = .ok (id, nodes))
    (ordered : ws.topologicalOrder nodes = .ok order)
    (resolved : ws.resolveNames id order options.naming = (.ok assigned, named))
    (distinct : named.duplicateNames order = [])
    (made : Schedule.ofOrder named (named.registryFor id options.registry) order nodes options.keep
      options.naming = .ok s) :
    ws.compile terminals options = (.ok s, named.report s.summary) := by
  rw [compile_eq options checked ordered resolved, if_pos distinct, made]

/-- Naming the same terminals in another way changes the list of terminals of the schedule only, and
compiling again yields the schedule there is, in either mode, and after any number of constructions and
compilations. -/
theorem Built.recompile {now : Workspace} (built : ws.Built)
    (exist : ∀ n ∈ nodesIn terminals, ws.Exists n)
    (run : ws.compile terminals options = (.ok s, now)) :
    (∀ terminals', (∀ v, v ∈ terminals' ↔ v ∈ terminals) → ws.compile terminals' options =
      (.ok (s.toward now (nodesIn terminals') options.naming), now)) ∧
    (∀ later, now.Grown later → ∀ terminals', (∀ v, v ∈ terminals' ↔ v ∈ terminals) →
      ∀ mode : NamingMode, later.compile terminals' { options with naming := mode.name } =
        (.ok (s.toward now (nodesIn terminals') mode.name), later.report s.summary)) ∧
    ∀ mode, s.toward now (nodesIn terminals) mode = { s with naming := mode } := by
  obtain ⟨id, nodes, order, assigned, named, checked, ordered, resolved, distinct, made, rfl⟩ :=
    compile_ok_steps run
  obtain ⟨rfl, ord⟩ := built.orders_of_topologicalOrder exist checked ordered
  obtain ⟨built', same, complete⟩ := resolveNames_spec built ord.exist resolved
  have ord' := same.orders ord
  obtain ⟨⟨marks, comp⟩, -⟩ := Schedule.compiled_of_ofOrder built'.sound ord' made
  refine ⟨fun terminals' equal => ?_, fun later grown terminals' equal mode => ?_, fun mode => ?_⟩
  · obtain ⟨checked', members⟩ := checkTerminals_same checked equal
    have ordered' := (ord.alike (fun _ _ => rfl) ord.exist members).topologicalOrder built.sound
    exact compile_of_steps checked' ordered' resolved distinct
      (Schedule.ofOrder_toward built'.sound ord' made members _)
  · have continues : named.Continues later :=
      have continues := grown.continues (.report _ _ built')
      ⟨continues.built, continues.exist, continues.registry, continues.node⟩
    -- Every node of the order has a name by now, so whatever was done since has left it alone.
    have alike : named.Alike later (· ∈ order) := fun n hn => continues.node n (complete n hn)
    have complete' : ∀ n ∈ order, (later.name n).isSome = true := fun n hn => by
      rw [alike.name hn]
      exact complete n hn
    obtain ⟨checked', members⟩ := checkTerminals_same checked equal
    have ordLater := ord'.alike alike (fun n hn => continues.exist n (ord'.exist n hn)) members
    have registry : later.registryFor id options.registry = named.registryFor id options.registry :=
      continues.registryFor ord' (checkTerminals_root checked) options.registry
    refine compile_of_steps checked' (ordLater.topologicalOrder continues.built.sound)
      (resolveNames_of_named complete' _) ?_ ?_
    · rw [alike.duplicateNames, distinct]
    · rw [registry, Schedule.ofOrder_alike alike _ _ _ (fun _ hn => hn) (fun _ hn _ => ord'.input_mem hn)
        fun _ ht => ordLater.root_mem ht]
      exact Schedule.ofOrder_toward built'.sound ord' made members _
  · have slots : (nodesIn terminals).map (s.slotFor named) = s.terminals := comp.terminalSlots.symm
    exact congrArg (fun terminals => { s with terminals, naming := mode }) slots

end

end Workspace

/-- The sum is compiled, then the product that it depends on, and then the sum again, named twice. -/
theorem Sample.recompile_sum : ∃ s now,
    Sample.graph.compile Sample.terminals = (.ok s, now) ∧
    (now.compile [.node ⟨0, 2⟩]).2.compile (Sample.terminals ++ Sample.terminals)
        { naming := NamingMode.sequential.name } =
      (.ok (s.toward now [⟨0, 3⟩, ⟨0, 3⟩] NamingMode.sequential.name),
        (now.compile [.node ⟨0, 2⟩]).2.report s.summary) ∧
    s.toward now [⟨0, 3⟩] NamingMode.sequential.name = { s with naming := NamingMode.sequential.name } := by
  have exist : ∀ n ∈ nodesIn Sample.terminals, Sample.graph.Exists n := by
    intro n mem
    obtain rfl : n = ⟨0, 3⟩ := by simpa [Sample.terminals, nodesIn, Value.node?] using mem
    exact exists_of_lt_size (by decide)
  have product : ∀ n ∈ nodesIn [.node ⟨0, 2⟩], Sample.graph.Exists n := by
    intro n mem
    obtain rfl : n = ⟨0, 2⟩ := by simpa [nodesIn, Value.node?] using mem
    exact exists_of_lt_size (by decide)
  have compiles : (Sample.graph.compile Sample.terminals).1.isOk = true := by cbv
  cases run : Sample.graph.compile Sample.terminals with
  | mk result now =>
    rw [run] at compiles
    cases result with
    | error e => cases compiles
    | ok s =>
      have continues := Sample.graph_built.compile_continues exist {}
      rw [run] at continues
      have grown : now.Grown (now.compile [.node ⟨0, 2⟩]).2 :=
        .compile {} .now fun n mem => continues.exist n (product n mem)
      obtain ⟨-, again, same⟩ := Sample.graph_built.recompile exist run
      exact ⟨s, now, rfl, again _ grown _ (by simp) .sequential, same _⟩

end Backprop
