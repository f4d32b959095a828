import Backprop.Proofs.FreshNames
import Backprop.Proofs.History
/-!
# Resolving names

Resolving names is complete and conservative: every node of an order has a name afterwards, and names
that nodes had before stay.

* `Workspace.Resolved` says what resolving names leaves and what it returns.
* `Workspace.Continues`: existing nodes are what they were, but for names where there were none;
  `Built.compile_continues`: so it is after compiling, whether it succeeds or fails.
* `Built.buildNet_keepsNames`: building takes no name away either; `Later.keepsNames` says the same of
  any number of such calls.
* `Reached.passes_later`: so the check of a net for renamed nodes still passes after them.
* `Built.names_resolved` puts these together.
-/

namespace Backprop

open Workspace

namespace Workspace

variable {ws ws' ws'' : Workspace} {id : Nat} {order : List NodeRef} {mapping : Option Keywords}

/-- Nodes that have a name still have it. -/
def KeepsNames (ws ws' : Workspace) : Prop := ∀ n x, ws.name n = some x → ws'.name n = some x

theorem KeepsNames.refl (ws : Workspace) : KeepsNames ws ws := fun _ _ named => named

theorem KeepsNames.trans (h : KeepsNames ws ws') (h' : KeepsNames ws' ws'') : KeepsNames ws ws'' :=
  fun n x named => h' n x (h n x named)

/-- A workspace in which existing nodes still are as they were, but for names where there were none. -/
structure Continues (ws ws' : Workspace) : Prop where
  built : ws'.Built
  exist : ∀ n, ws.Exists n → ws'.Exists n
  registry : ∀ n, ws.Exists n → (ws'.graph n.graph).registry = (ws.graph n.graph).registry
  node : ∀ n, (ws.name n).isSome = true → ws'.node n = ws.node n

namespace Continues

theorem refl (built : ws.Built) : ws.Continues ws :=
  ⟨built, fun _ there => there, fun _ _ => rfl, fun _ _ => rfl⟩

theorem trans (h : ws.Continues ws') (h' : ws'.Continues ws'') : ws.Continues ws'' where
  built := h'.built
  exist n there := h'.exist n (h.exist n there)
  registry n there := (h'.registry n (h.exist n there)).trans (h.registry n there)
  node n named := by
    have here := h.node n named
    rw [← here]
    refine h'.node n ?_
    rwa [Workspace.name, here]

theorem keepsNames (h : ws.Continues ws') : KeepsNames ws ws' := fun n x named => by
  rw [Workspace.name, h.node n (by rw [named]; rfl)]
  exact named

end Continues

/-- Nodes of a workspace that has the same shape and keeps names are the same where they have a name. -/
theorem SameShape.continues (same : SameShape ws ws') (kept : KeepsNames ws ws') (built : ws'.Built) :
    ws.Continues ws' := by
  refine ⟨built, fun n there => (same.exist n).mpr there, fun n _ => same.registry n.graph, ?_⟩
  intro n named
  obtain ⟨x, named⟩ := Option.isSome_iff_exists.mp named
  obtain ⟨name, node⟩ := same.node n
  have now := kept n x named
  rw [Workspace.name, node] at now
  rw [node, show name = (ws.node n).name from now.trans named.symm]

/-- What resolving the names of nodes leaves, with the names that it returns. -/
structure Resolved (ws : Workspace) (id : Nat) (order : List NodeRef) (assigned : Assignment)
    (ws' : Workspace) : Prop where
  /-- Every node of the order has a name. -/
  complete : ∀ n ∈ order, (ws'.name n).isSome = true
  /-- Nodes keep the names that they had, and all that is not a name. -/
  kept : KeepsNames ws ws'
  same : SameShape ws ws'
  /-- A new name is carried by no other node of the graph, and was carried by none before. -/
  apart : ∀ n x, ws.name n = none → ws'.name n = some x →
    ∀ m, m.graph = id → ws.name m ≠ some x ∧ (ws'.name m = some x → m = n)
  /-- The result is the set of changes. -/
  handles : (assigned.map (·.1)).Nodup
  changes : ∀ n x, (ws.name n = none ∧ ws'.name n = some x) ↔
    n.graph = id ∧ (n.handle, x) ∈ assigned
  /-- Resolving names again does nothing. -/
  again : ∀ mode mapping, ws'.resolveNames id order mode mapping = (.ok [], ws')

theorem resolveNames_of_named (named : ∀ n ∈ order, (ws.name n).isSome = true) (mode : String) :
    ws.resolveNames id order mode mapping = (.ok [], ws) := by
  have none : (ws.unnamed order).isEmpty = true := by
    rw [List.isEmpty_iff, unnamed, List.filter_eq_nil_iff]
    intro n hn
    simp [Option.isSome_iff_ne_none.mp (named n hn)]
  rw [resolveNames, if_pos none]

/-- The changes since the namer knew the names of the graph, once the nodes of an order have names. -/
theorem Sound.resolved (sound : ws.Sound) {s : Naming}
    (since : Naming.Since ws (.ofGraph (ws.graph id)) s)
    (named : ∀ n ∈ order, (s.workspace.name n).isSome = true) :
    Resolved ws id order s.assigned s.workspace := by
  have graph : (Namer.ofGraph (ws.graph id)).graph = id := sound.graph_id id
  have changes := since.changes
  rw [graph] at changes
  constructor
  case complete => exact named
  case kept => exact fun n x old => (since.name n x).mpr (.inl old)
  case same => exact since.same
  case apart =>
    intro n x blank now m here
    obtain ⟨here', given⟩ := (changes n x).mp ⟨blank, now⟩
    have before : ws.name m ≠ some x := by
      intro old
      have known := (exists_of_name old).name_mem_names old
      rw [here] at known
      exact since.fresh x (List.mem_map.mpr ⟨_, given, rfl⟩) known
    refine ⟨before, fun now' => by_contra fun ne => before ?_⟩
    exact since.alone (here'.trans graph.symm) given now' ne
  case handles => exact since.handles
  case changes => exact changes
  case again => exact fun mode _ => resolveNames_of_named named mode

theorem Built.resolveNames_resolved (built : ws.Built)
    (known : ∀ n ∈ order, ws.Exists n ∧ n.graph = id)
    (mapped : ∀ n, .node n ∈ (mapping.getD []).map (·.2) → ws.Exists n) (mode : NamingMode) :
    ∃ assigned ws', ws.resolveNames id order mode.name mapping = (.ok assigned, ws') ∧
      Resolved ws id order assigned ws' := by
  obtain ⟨r, s, run, since, ok⟩ := built.resolveNames_since known mapping mapped mode.name
  rw [ok ⟨mode, rfl⟩] at run
  obtain ⟨-, -, named⟩ := resolveNames_spec built (fun n hn => (known n hn).1) run
  exact ⟨_, _, run, built.sound.resolved since named⟩

/-! ### Compiling keeps names -/

section
variable (built : ws.Built) {terminals : List Value}
include built

/-- Compiling names nodes at most, even where it fails. -/
theorem Built.compile_continues (exist : ∀ n ∈ nodesIn terminals, ws.Exists n)
    (options : CompileOptions) : ws.Continues (ws.compile terminals options).2 := by
  unfold compile
  dsimp only
  split
  next => exact .refl built
  next id nodes order ordered =>
    obtain ⟨⟨id', nodes'⟩, checked, ordered⟩ := ok_of_bind ordered
    obtain ⟨order', topological, ordered⟩ := ok_of_bind ordered
    cases ordered
    obtain ⟨rfl, ord⟩ := built.orders_of_topologicalOrder exist checked topological
    obtain ⟨r, s, run, since, -⟩ := built.resolveNames_since
      (fun n hn => ⟨ord.exist n hn, ord.graph n hn⟩) none (by simp) options.naming
    have kept : KeepsNames ws s.workspace := fun n x named => (since.name n x).mpr (.inl named)
    have now := since.same.continues kept since.built
    rw [run]
    cases r with
    | error e => exact now
    | ok _ =>
      dsimp only [Except.map]
      split
      · exact now
      · exact ⟨.report _ _ now.built, now.exist, now.registry, now.node⟩

theorem Built.compile_keepsNames (exist : ∀ n ∈ nodesIn terminals, ws.Exists n)
    (options : CompileOptions) : (ws.compile terminals options).2.Built ∧
      KeepsNames ws (ws.compile terminals options).2 :=
  have continues := built.compile_continues exist options
  ⟨continues.built, continues.keepsNames⟩

theorem Built.buildNet_keepsNames (exist : ∀ n ∈ Net.terminalNodes terminals, ws.Exists n)
    (options : NetOptions) : (ws.buildNet terminals options).2.Built ∧
      KeepsNames ws (ws.buildNet terminals options).2 := by
  unfold buildNet
  split
  next => exact ⟨built, .refl ws⟩
  next vs spread' =>
    have nodes : Net.terminalNodes terminals = nodesIn vs := by
      simp only [Net.terminalNodes, spread']
    rw [nodes] at exist
    dsimp only
    have compiled : ∀ {shown : Workspace} {r : Except Error Schedule} {now : Workspace}
        {choices : CompileOptions}, shown.Built → shown.graphs = ws.graphs →
        shown.compile vs choices = (r, now) → now.Built ∧ KeepsNames ws now := by
      intro shown r now choices built' same run
      have there : ∀ n ∈ nodesIn vs, shown.Exists n := by
        intro n hn
        obtain ⟨g, found, bound⟩ := exist n hn
        exact ⟨g, by rw [graph?, same]; exact found, bound⟩
      obtain ⟨built'', kept⟩ := built'.compile_keepsNames there choices
      rw [run] at built'' kept
      refine ⟨built'', fun n x named => kept n x ?_⟩
      rwa [Workspace.name, node, graph?, same]
    have shown : (if options.config.debug then { ws with verbose := true } else ws).Built ∧
        (if options.config.debug then { ws with verbose := true } else ws).graphs = ws.graphs := by
      split
      · exact ⟨.report true ws.journal built, rfl⟩
      · exact ⟨built, rfl⟩
    split
    next run => exact compiled shown.1 shown.2 run
    next s now run =>
      obtain ⟨built', kept⟩ := compiled shown.1 shown.2 run
      split
      · exact ⟨built', kept⟩
      · split
        · exact ⟨built', kept⟩
        · split <;> exact ⟨.report _ _ built', kept⟩

end

/-- The workspaces that further compilations lead to, those of nets among them, whether they succeed
or fail. Terminals are nodes that exist. -/
inductive Later (ws : Workspace) : Workspace → Prop where
  | now : Later ws ws
  | compile {ws' : Workspace} {terminals : List Value} (options : CompileOptions) : Later ws ws' →
      (∀ n ∈ nodesIn terminals, ws'.Exists n) → Later ws (ws'.compile terminals options).2
  | build {ws' : Workspace} {terminals : List Value} (options : NetOptions) : Later ws ws' →
      (∀ n ∈ Net.terminalNodes terminals, ws'.Exists n) →
      Later ws (ws'.buildNet terminals options).2

theorem Later.keepsNames (built : ws.Built) (later : Later ws ws') :
    ws'.Built ∧ KeepsNames ws ws' := by
  induction later with
  | now => exact ⟨built, .refl ws⟩
  | compile options _ exist ih =>
    obtain ⟨built', kept⟩ := ih.1.compile_keepsNames exist options
    exact ⟨built', ih.2.trans kept⟩
  | build options _ exist ih =>
    obtain ⟨built', kept⟩ := ih.1.buildNet_keepsNames exist options
    exact ⟨built', ih.2.trans kept⟩

end Workspace

namespace Net

variable {ws ws' now later : Workspace} {terminals : List Value} {options : NetOptions} {net : Net}

/-- A net that was built knows the names of its nodes after compiling, and each node has one. -/
theorem built_named (built : ws.Built) (exist : ∀ n ∈ terminalNodes terminals, ws.Exists n)
    (run : ws.buildNet terminals options = (.ok net, ws')) :
    ∀ p ∈ net.compiledNames, p.2.isSome = true := by
  obtain ⟨vs, verbose, s, now, spread', compiled, built_net⟩ := buildNet_steps run
  have nodes : terminalNodes terminals = nodesIn vs := by simp only [terminalNodes, spread']
  rw [nodes] at exist
  have built' : ({ ws with verbose } : Workspace).Built := .report verbose ws.journal built
  obtain ⟨-, named, -⟩ := built'.compile_spec exist compiled
  have start : ∀ p ∈ (ofSchedule now s options).compiledNames, p.2.isSome = true := by
    intro p hp
    obtain ⟨n, hn, rfl⟩ := List.mem_map.mp hp
    exact named n hn
  rcases built_net with ⟨-, rfl, -⟩ | ⟨-, moved, move, rfl, -⟩
  · exact start
  · have fixed := keeps_move running_fixed.toMovable now.label options.config.device
      (ofSchedule now s options) ⟨rfl, rfl, rfl, rfl, rfl, rfl⟩
    rw [leads_of_ok move] at fixed
    rwa [← fixed.compiledNames] at start

theorem Reached.named (built : ws.Built) (exist : ∀ n ∈ terminalNodes terminals, ws.Exists n)
    (reached : Reached ws terminals options net) : ∀ p ∈ net.compiledNames, p.2.isSome = true := by
  obtain ⟨base, ws', run⟩ := reached.origin
  rw [(reached.fixed built exist run).compiledNames]
  exact built_named built exist run

theorem checkStructure_iff : checkStructure ws net = .ok ⟨⟩ net ↔
    (net.config.checkStructure = true → ∀ p ∈ net.compiledNames, ws.name p.1 = p.2) := by
  have leads := leads_checkStructure ws net
  unfold Leads at leads
  split at leads
  next run =>
    obtain ⟨rfl, named⟩ := leads
    simpa [run] using named
  next run => simpa [run] using leads

/-- A net that may run may still run after further compilations. -/
theorem Reached.passes_later (built : ws.Built)
    (exist : ∀ n ∈ terminalNodes terminals, ws.Exists n)
    (reached : Reached ws terminals options net) (built' : now.Built) (compiled : Later now later)
    (passes : checkStructure now net = .ok ⟨⟩ net) : checkStructure later net = .ok ⟨⟩ net := by
  rw [checkStructure_iff] at passes ⊢
  intro check p hp
  obtain ⟨x, name⟩ := Option.isSome_iff_exists.mp (reached.named built exist p hp)
  have old := passes check p hp
  rw [name] at old ⊢
  exact (compiled.keepsNames built').2 p.1 x old

end Net

/-- Naming, for any nodes of a graph, in either mode, and with any mapping. Every search for a free
number ends. Every node of the order has a name afterwards; names that nodes had before stay; a new
name is the name of no other node of the graph, whether it is in the order or not, and was the name
of none before; the result is the set of changes; and naming again changes nothing. A net of the graph
that was let through by its check for renamed nodes is so after any further compilations. -/
theorem Workspace.Built.names_resolved {ws : Workspace} {id : Nat} {order : List NodeRef}
    {mapping : Option Keywords} (built : ws.Built) (known : ∀ n ∈ order, ws.Exists n ∧ n.graph = id)
    (mapped : ∀ n, .node n ∈ (mapping.getD []).map (·.2) → ws.Exists n) (mode : NamingMode) :
    (∀ (nm : Namer) (stem : String), nm.Search stem (nm.counter stem) (nm.nextNumber stem)) ∧
    (∃ assigned ws', ws.resolveNames id order mode.name mapping = (.ok assigned, ws') ∧
      Resolved ws id order assigned ws') ∧
    ∀ (start : Workspace) (terminals : List Value) (options : NetOptions) (net : Net)
      (later : Workspace), start.Built → (∀ n ∈ Net.terminalNodes terminals, start.Exists n) →
      Net.Reached start terminals options net → Later ws later →
      Net.checkStructure ws net = .ok ⟨⟩ net → Net.checkStructure later net = .ok ⟨⟩ net :=
  ⟨Namer.search_nextNumber, built.resolveNames_resolved known mapped mode,
    fun _ _ _ _ _ built' exist reached compiled passes =>
      reached.passes_later built' exist built compiled passes⟩

/-- The sum is unnamed when a net of the product was built. -/
theorem Workspace.names_resolved_sample : ∃ now net,
    Net.Reached Sample.graph [.node ⟨0, 2⟩] Sample.options net ∧ now.name ⟨0, 3⟩ = none ∧
      (∃ assigned ws', now.resolveNames 0 [⟨0, 3⟩, ⟨0, 2⟩, ⟨0, 0⟩] "sequential"
          (some [("total", .node ⟨0, 3⟩)]) = (.ok assigned, ws') ∧
        Resolved now 0 [⟨0, 3⟩, ⟨0, 2⟩, ⟨0, 0⟩] assigned ws') ∧
      Net.checkStructure (now.compile Sample.terminals).2 net = .ok ⟨⟩ net := by
  have check : Sample.graph.builds [.node ⟨0, 2⟩] Sample.options (fun now net =>
      decide ((now.graph 0).nodes.size = 4) && (now.name ⟨0, 3⟩).isNone &&
      net.compiledNames.all fun p => now.name p.1 == p.2) = true := by cbv
  obtain ⟨net, now, run, check⟩ := of_builds check
  simp only [Bool.and_eq_true, decide_eq_true_eq, Option.isNone_iff_eq_none, List.all_eq_true,
    beq_iff_eq] at check
  obtain ⟨⟨size, blank⟩, named⟩ := check
  have exist : ∀ n ∈ Net.terminalNodes [.node ⟨0, 2⟩], Sample.graph.Exists n := by
    intro n mem
    obtain rfl : n = ⟨0, 2⟩ := by
      simpa [Net.terminalNodes, Net.spread, nodesIn, Value.node?] using mem
    exact ⟨_, rfl, by decide⟩
  have built : now.Built := by
    have built := (Sample.graph_built.buildNet_keepsNames exist Sample.options).1
    rwa [run] at built
  have there : ∀ n : NodeRef, n.graph = 0 → n.handle < 4 → now.Exists n := by
    rintro ⟨_, k⟩ rfl bound
    exact exists_of_lt_size (bound.trans_eq size.symm)
  have sum : ∀ n ∈ nodesIn Sample.terminals, now.Exists n := by
    intro n mem
    obtain rfl : n = ⟨0, 3⟩ := by simpa [Sample.terminals, nodesIn, Value.node?] using mem
    exact there _ rfl (by decide)
  obtain ⟨-, resolved, later⟩ := @Built.names_resolved now 0 [⟨0, 3⟩, ⟨0, 2⟩, ⟨0, 0⟩]
    (some [("total", .node ⟨0, 3⟩)]) built (by simp [there]) (by simp [there]) .sequential
  refine ⟨now, net, .built run, blank, resolved, ?_⟩
  exact later _ _ _ net _ Sample.graph_built exist (.built run) (.compile {} .now sum)
    (Net.checkStructure_iff.mpr fun _ => named)

end Backprop
