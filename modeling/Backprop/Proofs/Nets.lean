import Backprop.Proofs.WellFormed
import Backprop.Proofs.Calls
/-!
# Nets that calls lead to

* `Workspace.Built.compile_spec`: what compiling for existing nodes yields.
* `Net.Reached` are the nets that building and calls lead to.
* `Net.Reached.spec`: such a net runs a compiled, well-formed schedule and is not in a pass.
-/

namespace Backprop

open Workspace

namespace Workspace.SameShape

variable {ws ws' : Workspace} {registry : Registry} {marks : GradientMarks} {s : Schedule}
  {n : NodeRef} {i : Instruction}

theorem congr {β : Type} (h : SameShape ws ws') (f : Node → β)
    (unnamed : ∀ n name, f { n with name } = f n) (n : NodeRef) :
    f (ws'.node n) = f (ws.node n) := by
  obtain ⟨name, node⟩ := h.node n
  rw [node]
  exact unnamed _ name

theorem symm (h : SameShape ws ws') : SameShape ws' ws := by
  refine ⟨fun id => (h.registry id).symm, fun n => (h.exist n).symm, fun n => ?_⟩
  obtain ⟨name, node⟩ := h.node n
  exact ⟨(ws.node n).name, by rw [node]⟩

theorem source (h : SameShape ws ws') : ws'.source = ws.source := by
  funext n
  unfold Workspace.source
  rw [h.congr (·.role) (fun _ _ => rfl) n, h.congr (·.args) (fun _ _ => rfl) n]

theorem slotFor (h : SameShape ws ws') : s.slotFor ws' = s.slotFor ws := by
  funext n
  rw [Schedule.slotFor, h.source]
  rfl

theorem argOf (h : SameShape ws ws') : s.argOf ws' = s.argOf ws := by
  funext v
  cases v with
  | node n => rw [Schedule.argOf, Schedule.argOf, h.slotFor]
  | _ => rfl

theorem markedArgs (h : SameShape ws ws') : s.markedArgs ws' marks = s.markedArgs ws marks := by
  funext args
  simp only [Schedule.markedArgs, h.slotFor]

theorem slotsOf (h : SameShape ws ws') : s.slotsOf ws' = s.slotsOf ws := by
  funext t
  rw [Schedule.slotsOf, h.congr (·.isSelector) (fun _ _ => rfl) t,
    h.congr (·.slotCount) (fun _ _ => rfl) t, h.slotFor]
  rfl

theorem instructs (h : SameShape ws ws') (instructs : Instructs ws' registry marks s n i) :
    Instructs ws registry marks s n i := by
  obtain ⟨handle, operation, args, kwargs, outputs, positions, gradient, differentiable, placed⟩ :=
    instructs
  rw [h.congr (·.kind) (fun _ _ => rfl)] at operation
  rw [h.congr (·.args) (fun _ _ => rfl), h.argOf] at args
  rw [h.congr (·.kwargs) (fun _ _ => rfl), h.argOf] at kwargs
  rw [h.congr (·.outputs) (fun _ _ => rfl)] at outputs
  rw [h.congr (·.args) (fun _ _ => rfl), h.markedArgs] at positions
  rw [h.congr (·.devicePlacement) (fun _ _ => rfl)] at placed
  exact ⟨handle, operation, args, kwargs, outputs, positions, gradient, differentiable, placed⟩

theorem describes (h : SameShape ws ws') {info : SlotInfo} (describes : Describes ws' marks n info) :
    Describes ws marks n info := by
  obtain ⟨plain, handle, output, kind, persistent, gradient, placed⟩ := describes
  rw [h.congr (·.isSelector) (fun _ _ => rfl)] at plain
  rw [h.congr (·.slotCount) (fun _ _ => rfl)] at output
  rw [h.congr Layout.slotKind (fun _ _ => rfl)] at kind
  rw [h.congr (·.isParam) (fun _ _ => rfl)] at persistent
  rw [h.congr (·.devicePlacement) (fun _ _ => rfl)] at placed
  exact ⟨plain, handle, output, kind, persistent, gradient, placed⟩

/-- What a schedule holds does not depend on names. -/
theorem compiled (h : SameShape ws ws') {order terminals : List NodeRef} {keep : List String}
    (c : Compiled ws' registry marks order terminals keep s) :
    Compiled ws registry marks order terminals keep s := by
  have operations : (order.filter fun n => (ws'.node n).isOperation) =
      order.filter fun n => (ws.node n).isOperation :=
    List.filter_congr fun n _ => h.congr (·.isOperation) (fun _ _ => rfl) n
  constructor
  case nodes => exact c.nodes
  case settles =>
    refine ⟨c.settles.known, fun n hn => ?_⟩
    rw [← c.settles.settled n hn]
    exact (h.congr marks.ofNode (fun _ _ => rfl) n).symm
  case numbered => exact c.numbered
  case slots =>
    intro info mem
    obtain ⟨index, n, hn, describes⟩ := c.slots info mem
    exact ⟨index, n, hn, h.describes describes⟩
  case places =>
    intro n hn plain k hk
    rw [← h.congr (·.isSelector) (fun _ _ => rfl)] at plain
    rw [← h.congr (·.slotCount) (fun _ _ => rfl)] at hk
    exact c.places n hn plain k hk
  case indices => exact c.indices
  case forward =>
    rw [← operations]
    exact c.forward.imp fun _ _ => h.instructs
  case backward => exact c.backward
  case uses => exact c.uses
  case plan => exact c.plan
  case terminalSlots => rw [c.terminalSlots, h.slotFor]
  case retained =>
    intro info mem
    rw [c.retained info mem, h.slotsOf]
  case names => exact c.names

end Workspace.SameShape

/-! ### Compiling for terminals -/

/-- The nodes among values. -/
def nodesIn (vs : List Value) : List NodeRef := vs.filterMap Value.node?

theorem eq_nodesIn_of_mapM {vs : List Value} {nodes : List NodeRef} {f : Value → Error}
    (h : vs.mapM (fun v => match v.node? with
      | some n => Except.ok n
      | none => .error (f v)) = .ok nodes) : nodes = nodesIn vs := by
  have each := forall₂_of_mapM h
  clear h
  induction each with
  | nil => rfl
  | @cons v n vs nodes first _ ih =>
    cases found : v.node? with
    | none => rw [found] at first; cases first
    | some m =>
      rw [found] at first
      cases first
      rw [nodesIn, List.filterMap_cons_some found, ih]
      rfl

theorem checkTerminals_spec {vs : List Value} {id : Nat} {nodes : List NodeRef}
    (h : checkTerminals vs = .ok (id, nodes)) : nodes = nodesIn vs ∧ ∀ n ∈ nodes, n.graph = id := by
  unfold checkTerminals at h
  dsimp only at h
  split at h
  · cases h
  · obtain ⟨found, each, h⟩ := ok_of_bind h
    have eq := eq_nodesIn_of_mapM each
    split at h
    · cases h
    next n rest =>
      split at h
      next same =>
        cases h
        refine ⟨eq, fun m hm => ?_⟩
        rcases List.mem_cons.mp hm with rfl | hm
        · rfl
        · exact eq_of_beq (List.all_eq_true.mp same m hm)
      next => cases h

/-- A schedule for terminals of a graph: an order of everything that they depend on, and what the
compiler made of it. -/
structure Schedules (ws : Workspace) (registry : Option Registry) (terminals : List NodeRef)
    (keep : List String) (s : Schedule) (id : Nat) (order : List NodeRef)
    (marks : GradientMarks) : Prop where
  orders : ws.Orders id terminals order
  compiled : Compiled ws (ws.registryFor id registry) marks order terminals keep s
  wellFormed : s.WellFormed

theorem Workspace.SameShape.schedules {ws ws' : Workspace} (h : SameShape ws ws')
    {registry : Option Registry} {terminals : List NodeRef} {keep : List String} {s : Schedule}
    {id : Nat} {order : List NodeRef} {marks : GradientMarks}
    (sched : Schedules ws' registry terminals keep s id order marks) :
    Schedules ws registry terminals keep s id order marks := by
  obtain ⟨orders, compiled, wellFormed⟩ := sched
  have same := h.compiled compiled
  simp only [registryFor, h.registry] at same
  exact ⟨h.symm.orders orders, same, wellFormed⟩

namespace Workspace

variable {ws ws' : Workspace} {terminals : List Value} {options : CompileOptions} {s : Schedule}

/-- The order that compiling goes by has everything that the terminals depend on. -/
theorem Built.orders_of_topologicalOrder {id : Nat} {nodes order : List NodeRef} (built : ws.Built)
    (exist : ∀ n ∈ nodesIn terminals, ws.Exists n)
    (checked : checkTerminals terminals = .ok (id, nodes))
    (topological : ws.topologicalOrder nodes = .ok order) :
    nodes = nodesIn terminals ∧ ws.Orders id nodes order := by
  obtain ⟨rfl, graph⟩ := checkTerminals_spec checked
  obtain ⟨order', found, ord⟩ := built.sound.topologicalOrder fun n hn => ⟨exist n hn, graph n hn⟩
  obtain rfl : order' = order := Except.ok.inj (found.symm.trans topological)
  exact ⟨rfl, ord⟩

/-- The steps of compiling, if it succeeds. -/
theorem compile_ok_steps (run : ws.compile terminals options = (.ok s, ws')) :
    ∃ id nodes order assigned named, checkTerminals terminals = .ok (id, nodes) ∧
      ws.topologicalOrder nodes = .ok order ∧
      ws.resolveNames id order options.naming = (.ok assigned, named) ∧
      named.duplicateNames order = [] ∧
      Schedule.ofOrder named (named.registryFor id options.registry) order nodes options.keep
        options.naming = .ok s ∧ ws' = named.report s.summary := by
  unfold compile at run
  dsimp only at run
  split at run
  next => cases run
  next id nodes order ordered =>
    obtain ⟨⟨id', nodes'⟩, checked, ordered⟩ := ok_of_bind ordered
    obtain ⟨order', topological, ordered⟩ := ok_of_bind ordered
    cases ordered
    split at run
    next => cases run
    next assigned named resolved =>
      split at run
      next => cases run
      next s' compiled =>
        cases run
        split at compiled
        next => cases compiled
        next distinct =>
          exact ⟨_, _, order, assigned, named, checked, topological, resolved, by simpa using distinct,
            compiled, rfl⟩

/-- Compiling orders everything that the terminals depend on, names what has no name, and makes a
schedule if no name occurs twice. -/
theorem Built.compile_steps (built : ws.Built) (exist : ∀ n ∈ nodesIn terminals, ws.Exists n)
    (run : ws.compile terminals options = (.ok s, ws')) : ∃ id order named,
      ws.Orders id (nodesIn terminals) order ∧ named.Built ∧ SameShape ws named ∧
      (∀ n ∈ order, (named.name n).isSome = true) ∧ named.duplicateNames order = [] ∧
      Schedule.ofOrder named (ws.registryFor id options.registry) order (nodesIn terminals)
        options.keep options.naming = .ok s ∧ ws' = named.report s.summary := by
  obtain ⟨id, nodes, order, assigned, named, checked, ordered, resolved, distinct, made, rfl⟩ :=
    compile_ok_steps run
  obtain ⟨rfl, ord⟩ := built.orders_of_topologicalOrder exist checked ordered
  obtain ⟨built', same, complete⟩ := resolveNames_spec built ord.exist resolved
  simp only [registryFor, same.registry] at made
  exact ⟨_, order, named, ord, built', same, complete, distinct, made, rfl⟩

/-- Compiling for nodes that exist yields a schedule for them, and each gets a name of its own. -/
theorem Built.compile_spec (built : ws.Built) (exist : ∀ n ∈ nodesIn terminals, ws.Exists n)
    (run : ws.compile terminals options = (.ok s, ws')) :
    (∃ id order marks,
      Schedules ws options.registry (nodesIn terminals) options.keep s id order marks) ∧
      (∀ n ∈ s.nodes, (ws'.name n).isSome = true) ∧ (s.nodes.map ws'.name).Nodup := by
  obtain ⟨id, order, named, ord, built', same, complete, distinct, compiled, rfl⟩ :=
    built.compile_steps exist run
  have ord' := same.orders ord
  obtain ⟨⟨marks, comp⟩, like⟩ := Schedule.compiled_of_ofOrder built'.sound ord' compiled
  have wellFormed := comp.wellFormed ord' built'.sound like complete distinct
  refine ⟨⟨id, order, marks, ord, same.compiled comp, wellFormed⟩, ?_⟩
  rw [comp.nodes]
  refine ⟨complete, ord.nodup.map_on fun a ha b hb eq => ?_⟩
  obtain ⟨name, hname⟩ := Option.isSome_iff_exists.mp (complete a ha)
  exact name_inj distinct ha hb hname (eq.symm.trans hname)

/-- Whether a net can be built that has a property together with the workspace afterwards. -/
def builds (ws : Workspace) (terminals : List Value) (options : NetOptions)
    (p : Workspace → Net → Bool) : Bool :=
  match ws.buildNet terminals options with
  | (.ok net, ws') => p ws' net
  | (.error _, _) => false

theorem of_builds {ws : Workspace} {terminals : List Value} {options : NetOptions}
    {p : Workspace → Net → Bool} (h : ws.builds terminals options p = true) :
    ∃ net now, ws.buildNet terminals options = (.ok net, now) ∧ p now net = true := by
  unfold builds at h
  split at h
  next net now run => exact ⟨net, now, run, h⟩
  next => cases h

end Workspace

/-! ### Building and calling -/

namespace Net

/-- The nodes that a net is built for. -/
def terminalNodes (terminals : List Value) : List NodeRef :=
  match spread terminals with
  | .ok vs => nodesIn vs
  | .error _ => []

variable {ws ws' : Workspace} {terminals : List Value} {options : NetOptions} {s : Schedule}
  {net : Net}

theorem runs_ofSchedule (ws : Workspace) (s : Schedule) (options : NetOptions) :
    Runs s (ofSchedule ws s options) := by
  refine ⟨rfl, ?_, fun _ _ _ _ found => by cases found⟩
  simp [ofSchedule, initialTable, Function.comp_def]

/-- A net is built for a schedule of the spread terminals, and moved to its device. -/
theorem buildNet_steps (run : ws.buildNet terminals options = (.ok net, ws')) :
    ∃ vs verbose s now, spread terminals = .ok vs ∧
      ({ ws with verbose } : Workspace).compile vs
        { keep := options.keep, naming := options.config.naming.name,
          registry := options.registry } = (.ok s, now) ∧
      (Device.normalize now.label options.config.device = Device.host ∧
          net = ofSchedule now s options ∧ ws' = now ∨
        Device.normalize now.label options.config.device ≠ Device.host ∧
          ∃ moved, move now.label options.config.device (ofSchedule now s options) = .ok ⟨⟩ moved ∧
            net = { moved with journal := {} } ∧ ws' = now.absorb moved.journal) := by
  unfold buildNet at run
  split at run
  next => cases run
  next vs spread' =>
    dsimp only at run
    obtain ⟨verbose, shown⟩ : ∃ verbose,
        (if options.config.debug then { ws with verbose := true } else ws) = { ws with verbose } := by
      split
      · exact ⟨true, rfl⟩
      · exact ⟨ws.verbose, rfl⟩
    rw [shown] at run
    split at run
    next => cases run
    next s now compiled =>
      refine ⟨vs, verbose, s, now, spread', compiled, ?_⟩
      split at run
      next => cases run
      next =>
        split at run
        next host =>
          cases run
          exact .inl ⟨host, rfl, rfl⟩
        next away =>
          split at run
          next moved move =>
            cases run
            exact .inr ⟨away, moved, move, rfl, rfl⟩
          next => cases run

/-- The net that was built runs the schedule that was compiled, on any device. -/
theorem built_spec (built : ws.Built) (exist : ∀ n ∈ terminalNodes terminals, ws.Exists n)
    (run : ws.buildNet terminals options = (.ok net, ws')) :
    (∃ id order marks, Schedules ws options.registry (terminalNodes terminals) options.keep
      net.schedule id order marks) ∧ Runs net.schedule net ∧ Idle net ∧
        net.table.addition = Value.add ∧ net.config = options.config := by
  obtain ⟨vs, verbose, s, now, spread', compiled, built_net⟩ := buildNet_steps run
  have nodes : terminalNodes terminals = nodesIn vs := by simp only [terminalNodes, spread']
  rw [nodes] at exist ⊢
  have shape : SameShape ws { ws with verbose } :=
    ⟨fun _ => rfl, fun _ => .rfl, fun _ => ⟨_, rfl⟩⟩
  have built' : ({ ws with verbose } : Workspace).Built := .report verbose ws.journal built
  obtain ⟨⟨id, order, marks, sched⟩, _⟩ :=
    built'.compile_spec (fun n hn => (shape.exist n).mpr (exist n hn)) compiled
  have sched' := shape.schedules sched
  have start : Serves s (ofSchedule now s options) (ofSchedule now s options) :=
    ⟨runs_ofSchedule now s options, rfl, rfl⟩
  rcases built_net with ⟨-, rfl, -⟩ | ⟨-, moved, move, rfl, -⟩
  · exact ⟨⟨id, order, marks, sched'⟩, start.runs, rfl, rfl, rfl⟩
  · have serves := keeps_move movable_serves now.label options.config.device _ start
    have idle := keeps_move movable_idle now.label options.config.device
      (ofSchedule now s options) rfl
    rw [leads_of_ok move] at serves idle
    have runs := serves.runs
    obtain rfl : moved.schedule = s := runs.schedule
    exact ⟨⟨id, order, marks, sched'⟩, ⟨rfl, runs.infos, runs.placed⟩, idle, serves.addition,
      serves.config⟩

/-- The state that a change ends in, with a result or with a failure. -/
def ends {α : Type} (m : NetM α) (net : Net) : Net :=
  match m net with
  | .ok _ net' => net'
  | .error _ net' => net'

theorem keeps_ends {I : Net → Prop} {α : Type} {m : NetM α} (h : Keeps I m) (holds : I net) :
    I (ends m net) := by
  have run := h net holds
  unfold Leads at run
  unfold ends
  split <;> simp_all

/-- The nets that building one and calling it lead to. -/
inductive Reached (ws : Workspace) (terminals : List Value) (options : NetOptions) : Net → Prop where
  | built {net : Net} {ws' : Workspace} : ws.buildNet terminals options = (.ok net, ws') →
      Reached ws terminals options net
  | call {net : Net} (call : Call) : Reached ws terminals options net →
      Reached ws terminals options (ends call.run net)

/-- A net that calls led to runs the schedule that was compiled, and is not in a pass. -/
theorem Reached.spec (built : ws.Built) (exist : ∀ n ∈ terminalNodes terminals, ws.Exists n)
    (reached : Reached ws terminals options net) :
    (∃ id order marks, Schedules ws options.registry (terminalNodes terminals) options.keep
      net.schedule id order marks) ∧ Runs net.schedule net ∧ Idle net ∧
        net.table.addition = Value.add ∧ net.config = options.config := by
  induction reached with
  | built run => exact built_spec built exist run
  | @call net call _ ih =>
    obtain ⟨⟨id, order, marks, sched⟩, runs, idle, addition, config⟩ := ih
    have serves : Serves net.schedule net net := ⟨runs, rfl, rfl⟩
    have kept := keeps_ends (call.keeps (stable_serves sched.wellFormed)) serves
    have schedule := kept.runs.schedule
    rw [schedule]
    refine ⟨⟨id, order, marks, sched⟩, kept.runs, keeps_ends (call.keeps stable_idle) idle,
      kept.addition.trans addition, kept.config.trans config⟩

/-- Whether a change succeeds, and leaves a net with a property. -/
def succeeds (net : Net) (m : NetM Unit) (p : Net → Bool) : Bool :=
  match m net with
  | .ok _ net' => p net'
  | .error .. => false

theorem succeeds_iff {m : NetM Unit} {p : Net → Bool} :
    net.succeeds m p = true ↔ ∃ net', m net = .ok ⟨⟩ net' ∧ p net' = true := by
  unfold succeeds
  split
  next net' run => simp [run]
  next run => simp [run]

/-- Whether a change fails, in a way and with a net that have a property. -/
def fails (net : Net) (m : NetM Unit) (p : Error → Net → Bool) : Bool :=
  match m net with
  | .ok .. => false
  | .error e net' => p e net'

theorem fails_iff {m : NetM Unit} {p : Error → Net → Bool} :
    net.fails m p = true ↔ ∃ e net', m net = .error e net' ∧ p e net' = true := by
  unfold fails
  split
  next run => simp [run]
  next e net' run => simp [run]

/-- Whether a value is this whole number. -/
def isWhole (k : Int) : Value → Bool
  | .int j => j == k
  | _ => false

theorem eq_of_isWhole {k : Int} {v : Value} (h : isWhole k v = true) : v = .int k := by
  unfold isWhole at h
  split at h
  next => rw [beq_iff_eq.mp h]
  next => cases h

theorem Reached.of_builds {p : Workspace → Net → Bool} (h : ws.builds terminals options p = true) :
    ∃ now net, Reached ws terminals options net ∧ p now net = true := by
  obtain ⟨net, now, run, h⟩ := Workspace.of_builds h
  exact ⟨now, net, .built run, h⟩

end Net

/-! ### A graph -/

namespace Sample

open Net

/-- A graph with the input `x` and the parameter `p`. -/
def leaves : Workspace :=
  let ws := ({} : Workspace).addGraph.1
  let ws := ws.setGraph ((ws.graph 0).input (some "x") true false).1
  match (ws.graph 0).param (.int 3) (some "p") (.int 1) (.int 1) "gradient" false with
  | .ok (g, _) => ws.setGraph g
  | .error _ => ws

/-- The graph of `x * p`. -/
def product : Workspace :=
  match leaves.applyIn 0 "mul" [.node ⟨0, 0⟩, .node ⟨0, 1⟩] [] with
  | .ok (ws, _) => ws
  | .error _ => leaves

/-- The graph of `x * p + x`. -/
def graph : Workspace :=
  match product.applyIn 0 "add" [.node ⟨0, 2⟩, .node ⟨0, 0⟩] [] with
  | .ok (ws, _) => ws
  | .error _ => product

theorem leaves_built : leaves.Built := by
  have start := (Workspace.Built.empty).addGraph.input 0 (some "x") true false
  unfold leaves
  dsimp only
  split
  next call => exact start.param call
  next => exact start

theorem product_built : product.Built := by
  unfold product
  split
  next call =>
    refine leaves_built.apply (fun n mem => ?_) call
    have two : n = ⟨0, 0⟩ ∨ n = ⟨0, 1⟩ := by simpa using mem
    rcases two with rfl | rfl
    · exact ⟨_, rfl, by decide⟩
    · exact ⟨_, rfl, by decide⟩
  next => exact leaves_built

theorem graph_built : graph.Built := by
  unfold graph
  split
  next call =>
    refine product_built.apply (fun n mem => ?_) call
    have two : n = ⟨0, 2⟩ ∨ n = ⟨0, 0⟩ := by simpa using mem
    rcases two with rfl | rfl
    · exact ⟨_, rfl, by decide⟩
    · exact ⟨_, rfl, by decide⟩
  next => exact product_built

def terminals : List Value := [.node ⟨0, 3⟩]

theorem terminals_exist : ∀ n ∈ terminalNodes terminals, graph.Exists n := by
  intro n mem
  obtain rfl : n = ⟨0, 3⟩ := by simpa [terminalNodes, terminals, spread, nodesIn, Value.node?] using mem
  exact ⟨_, rfl, by decide⟩

def options : NetOptions := { config := { defaultSeed := .int 1 } }

/-- A pass with `x` as 5. -/
def pass : PassOptions := { inputs := [("x", .int 5)] }

end Sample

end Backprop
