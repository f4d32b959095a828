import Mathlib
import Backprop.Proofs.Nets
import Backprop.Proofs.Overlay
/-!
# Compiling with a given registry

* `Workspace.bare` forgets the registries of a workspace, and is an overlay.
* `Workspace.Supplied`: what a given registry decides about a schedule.
* `Workspace.Built.given_registry`: it is the only one that counts, if it holds an operation.
-/

namespace Backprop

open Workspace

/-- A graph without its registry. -/
def Graph.bare (g : Graph) : Graph := { g with registry := {} }

namespace Workspace

/-- A workspace without the registries of its graphs. -/
def bare (ws : Workspace) : Workspace := { ws with graphs := ws.graphs.map Graph.bare }

variable {ws ws' : Workspace}

theorem graph?_bare (ws : Workspace) (id : Nat) : ws.bare.graph? id = (ws.graph? id).map Graph.bare :=
  Array.getElem?_map

/-- Graphs that are renamed in lose their registries afterwards as well. -/
theorem bare_rename (ws : Workspace) (n : NodeRef) (name : Option String) :
    ws.bare.rename n name = (ws.rename n name).bare := by
  have graphs : (ws.bare.rename n name).graphs = (ws.rename n name).bare.graphs := by
    simp only [rename, setGraph, graph, graph?_bare]
    cases found : ws.graph? n.graph with
    | some g =>
      change (ws.graphs.map Graph.bare).setIfInBounds g.id (g.rename n.handle name).bare = _
      rw [← Array.map_setIfInBounds]
      rfl
    | none =>
      have outside : ws.graphs.size ≤ n.graph := Array.getElem?_eq_none_iff.mp found
      change (ws.graphs.map Graph.bare).setIfInBounds n.graph _ =
        (ws.graphs.setIfInBounds n.graph _).map Graph.bare
      rw [Array.setIfInBounds_eq_of_size_le (by simpa using outside),
        Array.setIfInBounds_eq_of_size_le outside]
  exact congrArg (fun graphs => { ws with graphs }) graphs

theorem overlay_bare : Overlay bare where
  node ws := by
    funext n
    simp only [node, graph?_bare]
    cases ws.graph? n.graph <;> rfl
  names ws id := by
    simp only [graph, graph?_bare]
    cases ws.graph? id <;> rfl
  bound ws := by
    simp only [handleBound, bare, Array.foldl_map]
    rfl
  rename := bare_rename
  report _ _ := rfl
  debug _ := rfl

/-! ### Schedules -/

end Workspace

theorem Registry.contains_of_get {r : Registry} {kind : String} {op : Operation}
    (found : r.get kind = .ok op) : r.contains kind = true := by
  unfold Registry.get at found
  split at found
  next some => exact Option.isSome_iff_exists.mpr ⟨_, some⟩
  next => cases found

/-- A registry in which `add` subtracts. -/
def Sample.odd : Registry :=
  ⟨[⟨"mul", Kernel.mulForward, some Kernel.mulBackward, none, 1⟩,
    ⟨"add", Kernel.subForward, some Kernel.subBackward, none, 1⟩]⟩

def Sample.supplied (r : Registry) : NetOptions := { Sample.options with registry := some r }

namespace Workspace

variable {ws ws' : Workspace}

/-- What a registry decides about a schedule for roots: every instruction runs the operation that the
registry has for its node, and there is no schedule if it lacks one. -/
structure Supplied (ws : Workspace) (r : Registry) (roots : List NodeRef)
    (result : Except Error Schedule) : Prop where
  operations : ∀ s, result = .ok s → ∀ i ∈ s.forward, ∃ n, ws.Reaches roots n ∧
    (ws.node n).isOperation = true ∧ i.handle = n.handle ∧ r.get (ws.node n).kind = .ok i.operation
  missing : ∀ n, ws.Reaches roots n → (ws.node n).isOperation = true →
    r.contains (ws.node n).kind = false → ∃ e, result = .error e

variable {r : Registry} {roots : List NodeRef} {result : Except Error Schedule}

/-- A registry that holds an operation is used. -/
theorem registryFor_given (some : r.isEmpty = false) (ws : Workspace) (id : Nat) :
    ws.registryFor id (Option.some r) = r := by
  rw [registryFor, some]
  rfl

/-- What compiles with a registry that holds an operation is supplied by it. -/
theorem Supplied.of_schedules (some : r.isEmpty = false)
    (sched : ∀ s, result = .ok s → ∃ keep id order marks,
      Schedules ws (Option.some r) roots keep s id order marks) : Supplied ws r roots result := by
  constructor
  · intro s done i hi
    obtain ⟨keep, id, order, marks, ord, compiled, -⟩ := sched s done
    rw [registryFor_given some] at compiled
    obtain ⟨n, hn, operation, instructs⟩ := compiled.operation_of_instruction hi
    exact ⟨n, (ord.mem_iff n).mp hn, operation, instructs.handle, instructs.operation⟩
  · intro n reaches operation lacks
    cases done : result with
    | error e => exact ⟨e, rfl⟩
    | ok s =>
      exfalso
      obtain ⟨keep, id, order, marks, ord, compiled, -⟩ := sched s done
      rw [registryFor_given some] at compiled
      obtain ⟨i, -, instructs⟩ :=
        compiled.instruction_of_operation ((ord.mem_iff n).mpr reaches) operation
      exact absurd (Registry.contains_of_get instructs.operation) (by simp [lacks])

section
variable (built : ws.Built) (some : r.isEmpty = false)
include built some

theorem Built.compile_supplied {terminals : List Value} {options : CompileOptions}
    (given : options.registry = Option.some r) (exist : ∀ n ∈ nodesIn terminals, ws.Exists n) :
    Supplied ws r (nodesIn terminals) (ws.compile terminals options).1 := by
  refine .of_schedules some fun s done => ?_
  obtain ⟨⟨id, order, marks, sched⟩, -⟩ := built.compile_spec exist (Prod.ext done rfl)
  rw [given] at sched
  exact ⟨_, id, order, marks, sched⟩

theorem Built.buildNet_supplied {terminals : List Value} {options : NetOptions}
    (given : options.registry = Option.some r) (exist : ∀ n ∈ Net.terminalNodes terminals, ws.Exists n) :
    Supplied ws r (Net.terminalNodes terminals)
      ((ws.buildNet terminals options).1.map (·.schedule)) := by
  refine .of_schedules some fun s done => ?_
  cases result : (ws.buildNet terminals options).1 with
  | error e =>
    rw [result] at done
    cases done
  | ok net =>
    rw [result] at done
    cases done
    obtain ⟨⟨id, order, marks, sched⟩, -⟩ := Net.built_spec built exist (Prod.ext result rfl)
    rw [given] at sched
    exact ⟨_, id, order, marks, sched⟩

end

/-! ### Two workspaces -/

section
variable (some : r.isEmpty = false) (same : ws'.bare = ws.bare)
include some same

theorem compile_alike {terminals : List Value} {options : CompileOptions}
    (given : options.registry = Option.some r) :
    (ws'.compile terminals options).1 = (ws.compile terminals options).1 ∧
      (ws'.compile terminals options).2.bare = (ws.compile terminals options).2.bare := by
  have alone : ∀ ws id, (bare ws).registryFor id options.registry =
      ws.registryFor id options.registry := fun _ _ => by
    rw [given, registryFor_given some, registryFor_given some]
  have run := overlay_bare.compile alone ws terminals
  rw [← same, overlay_bare.compile alone ws' terminals] at run
  exact Prod.mk.inj run

theorem buildNet_alike {terminals : List Value} {options : NetOptions}
    (given : options.registry = Option.some r) :
    (ws'.buildNet terminals options).1 = (ws.buildNet terminals options).1 := by
  have alone : ∀ ws id, (bare ws).registryFor id options.registry =
      ws.registryFor id options.registry := fun _ _ => by
    rw [given, registryFor_given some, registryFor_given some]
  rw [← overlay_bare.buildNet alone ws' terminals, same, overlay_bare.buildNet alone ws terminals]

end

/-- A registry that holds an operation is the only one that counts when it is given: schedules that are
compiled with it, alone or for a net, run its operations, there are none if it lacks an operation that is
reached, and they are the same whatever registries the graphs have. -/
theorem Built.given_registry (built : ws.Built) (some : r.isEmpty = false) :
    (∀ terminals options, options.registry = Option.some r → (∀ n ∈ nodesIn terminals, ws.Exists n) →
      Supplied ws r (nodesIn terminals) (ws.compile terminals options).1 ∧
        ∀ ws' : Workspace, ws'.bare = ws.bare →
          (ws'.compile terminals options).1 = (ws.compile terminals options).1) ∧
    ∀ terminals options, options.registry = Option.some r →
      (∀ n ∈ Net.terminalNodes terminals, ws.Exists n) →
      Supplied ws r (Net.terminalNodes terminals)
          ((ws.buildNet terminals options).1.map (·.schedule)) ∧
        ∀ ws' : Workspace, ws'.bare = ws.bare →
          (ws'.buildNet terminals options).1 = (ws.buildNet terminals options).1 :=
  ⟨fun _ _ given exist => ⟨built.compile_supplied some given exist,
      fun _ same => (compile_alike some same given).1⟩,
    fun _ _ given exist => ⟨built.buildNet_supplied some given exist,
      fun _ same => buildNet_alike some same given⟩⟩

theorem given_registry_sample : Sample.odd.isEmpty = false ∧
    ∃ net now, Sample.graph.buildNet Sample.terminals (Sample.supplied Sample.odd) = (.ok net, now) ∧
      Supplied Sample.graph Sample.odd (Net.terminalNodes Sample.terminals) (.ok net.schedule) ∧
      ∀ ws' : Workspace, ws'.bare = Sample.graph.bare →
        (ws'.buildNet Sample.terminals (Sample.supplied Sample.odd)).1 = .ok net := by
  have some : Sample.odd.isEmpty = false := rfl
  have check : Sample.graph.builds Sample.terminals (Sample.supplied Sample.odd) (fun _ _ => true) = true := by
    cbv
  obtain ⟨net, now, build, -⟩ := of_builds check
  obtain ⟨supplied, alike⟩ := (Sample.graph_built.given_registry some).2 Sample.terminals
    (Sample.supplied Sample.odd) rfl Sample.terminals_exist
  rw [build] at supplied alike
  exact ⟨some, net, now, build, supplied, alike⟩

/-- A net is built with an empty registry, which has no operation for its product. -/
theorem empty_registry_ignored : ∃ net now,
    Sample.graph.buildNet Sample.terminals (Sample.supplied {}) = (.ok net, now) ∧
      Sample.graph.Reaches (Net.terminalNodes Sample.terminals) ⟨0, 2⟩ ∧
      (Sample.graph.node ⟨0, 2⟩).isOperation = true ∧
      ({} : Registry).contains (Sample.graph.node ⟨0, 2⟩).kind = false := by
  have check : Sample.graph.builds Sample.terminals (Sample.supplied {}) (fun _ _ => true) = true := by
    cbv
  obtain ⟨net, now, build, -⟩ := of_builds check
  have sum : Sample.graph.Reaches (Net.terminalNodes Sample.terminals) ⟨0, 3⟩ := .root (by decide)
  have inputs : Sample.graph.inputs ⟨0, 3⟩ = [⟨0, 2⟩, ⟨0, 0⟩] := by cbv
  exact ⟨net, now, build, .input sum (by simp [inputs]), by cbv, rfl⟩

/-- An empty registry is as good as none. -/
theorem compile_empty_registry (ws : Workspace) (terminals : List Value) (options : CompileOptions)
    (empty : r.isEmpty = true) : ws.compile terminals { options with registry := some r } =
      ws.compile terminals { options with registry := none } := by
  have own : ∀ (ws : Workspace) id, ws.registryFor id (some r) = ws.registryFor id none := fun ws id => by
    rw [registryFor, empty]
    rfl
  simp only [compile, own]

end Workspace

end Backprop
