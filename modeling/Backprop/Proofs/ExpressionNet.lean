import Backprop.Proofs.ExpressionValue
/-!
# Nets of expressions

* `Schedules.lookup_inputSlots` and `Schedules.valueAt_ofSchedule`: a net that was just built finds
  inputs under the names of their nodes, and holds the values that parameters were recorded with.
* `Expression.Suits.record`: an expression over leaves of one graph can be recorded;
  `Expression.Recorded.reaches_iff` says what its result depends on.
* `Expression.Recorded.buildNet`: a net can be built for the result.
* `Expression.Suits.evaluates`: a forward pass of that net is the evaluation of the expression.
-/

namespace Backprop

open Workspace

/-! ### Nets as they were built -/

namespace Schedules

variable {ws now : Workspace} {registry : Option Registry} {terminals order : List NodeRef}
  {keep : List String} {s : Schedule} {id : Nat} {marks : GradientMarks} {n : NodeRef}
  {options : NetOptions}
variable (sched : Schedules ws registry terminals keep s id order marks)
include sched

/-- An input is found under the name that its node had when the net was built. -/
theorem lookup_inputSlots (like : s.NamedLike now s.nodes) (hn : n ∈ order)
    (input : (ws.node n).isInput = true) {name : String} (named : now.name n = some name) :
    s.inputSlots.lookup name = some (s.slotFor ws n) := by
  have leaf : (ws.node n).isLeaf = true := by simp [Node.isLeaf, input]
  have plain := Node.isSelector_of_isLeaf leaf
  have one : 0 < (ws.node n).slotCount := by simp [Node.slotCount, leaf]
  obtain ⟨info, mem, index, first, describes⟩ :=
    sched.compiled.info_of_output sched.orders hn plain one
  obtain ⟨m, hm, handle, text⟩ := like info mem first
  rw [sched.compiled.nodes] at hm
  obtain rfl : m = n := sched.orders.handle_inj hm hn (handle.trans describes.handle)
  rw [named] at text
  have kind : info.kind = .input := by
    rw [describes.kind]
    cases role : (ws.node m).role <;> simp [Node.isInput, Layout.slotKind, role] at input ⊢
  have member := sched.wellFormed.mem_inputSlots.mpr ⟨info, mem, kind, rfl⟩
  have slot : s.slotFor ws m = info.index := by
    rw [Schedule.slotFor, source_of_plain plain]
    exact index.symm
  have found := sched.wellFormed.lookup_inputSlots member
  rw [slot]
  rwa [text] at found

/-- At first the slot of a parameter holds the value that it was recorded with. -/
theorem valueAt_ofSchedule (same : SameShape ws now) (hn : n ∈ order) {data : ParamData}
    (role : (ws.node n).role = .param data) :
    (Net.ofSchedule now s options).table.valueAt (s.slotFor ws n) = data.value := by
  have plain : (ws.node n).isSelector = false := by simp [Node.isSelector, role]
  have one : 0 < (ws.node n).slotCount := by simp [Node.slotCount, Node.isLeaf, Node.isParam, role]
  obtain ⟨info, mem, index, _, describes⟩ :=
    sched.compiled.info_of_output sched.orders hn plain one
  have slot : s.slotFor ws n = info.index := by
    rw [Schedule.slotFor, source_of_plain plain]
    exact index.symm
  obtain ⟨k, hk⟩ := List.getElem?_of_mem mem
  have bound := (List.getElem?_eq_some_iff.mp hk).1
  have node : s.nodes.find? (·.handle == info.handle) = some n := by
    rw [sched.compiled.nodes]
    cases found : order.find? (·.handle == info.handle) with
    | none =>
      have := List.find?_eq_none.mp found n hn
      simp [describes.handle] at this
    | some m =>
      have handle : m.handle = info.handle := by simpa using List.find?_some found
      rw [sched.orders.handle_inj (List.mem_of_find?_eq_some found) hn (handle.trans describes.handle)]
  have value : Net.initialValue now s info = data.value := by
    simp only [Net.initialValue, node, Option.map_some, same.congr (·.role) (fun _ _ => rfl), role]
  rw [slot, sched.wellFormed.slotIndex k info hk, VariableTable.valueAt, VariableTable.at?,
    locate_nat (by simpa [Net.ofSchedule, Net.initialTable, VariableTable.size] using bound)]
  simp [Net.ofSchedule, Net.initialTable, hk, value]

/-- After a pass the slot of a terminal holds what the terminal denotes. -/
theorem valueAt_terminal {I : Interpretation} {t : VariableTable} {val : Valuation} (sound : ws.Sound)
    (computed : ∀ n ∈ order, (ws.node n).isSelector = false → ws.results I n = .ok
      ((List.range (ws.node n).slotCount).map fun k => val (s.slotAt n.handle k)))
    (held : ∀ r, s.HasSlot r → s.IsParam r ∨ s.IsRetained r → t.valueAt r = val r)
    (ht : n ∈ terminals) : ws.denoted I n = .ok (t.valueAt (s.slotFor ws n)) := by
  have slot : s.slotFor ws n ∈ s.terminals := by
    rw [sched.compiled.terminalSlots]
    exact List.mem_map_of_mem ht
  obtain ⟨info, mem, index, retained⟩ := sched.wellFormed.terminalSlots _ slot
  rw [held _ ⟨info, mem, index⟩ (.inr ⟨info, mem, index, retained⟩)]
  have agrees : s.Agrees ws I order order val := fun n hn plain _ => computed n hn plain
  obtain ⟨_, _, _, inside, _⟩ :=
    sched.compiled.info_of_node sched.orders sound (sched.orders.root_mem ht)
  exact agrees.denoted sound inside (.inr inside)

end Schedules

namespace Net

variable {now : Workspace} {s : Schedule} {options : NetOptions}

/-- At first nothing waits to be added to a derivative. -/
theorem readDer_ofSchedule (r : Slot) :
    ∃ d, (ofSchedule now s options).table.readDer r = .ok d := by
  have none : (ofSchedule now s options).table.partsAt r = [] := by
    unfold VariableTable.partsAt VariableTable.at?
    cases found : locate (ofSchedule now s options).table.size r with
    | none => rfl
    | some k =>
      simp only [ofSchedule, initialTable, Option.bind_some, List.getElem?_toArray,
        List.getElem?_map, Option.map_map]
      cases s.slots[k]? <;> rfl
  exact ⟨_, by rw [VariableTable.readDer, none]; rfl⟩

theorem quiet_ofSchedule (alone : options.reactions = []) : (ofSchedule now s options).Quiet := by
  intro _ r hr
  simp [ofSchedule, alone] at hr

theorem unrenamed_ofSchedule :
    ∀ p ∈ (ofSchedule now s options).compiledNames, now.name p.1 = p.2 := by
  simp [ofSchedule]

end Net

/-- The values of the terminals after a change to a net, or the error that it ends with. -/
def Net.answer (net : Net) (m : NetM Unit) : Except Error (List Value) :=
  match m net with
  | .ok _ net' => .ok (net'.outputs.map (·.2))
  | .error e _ => .error e

/-- Options for a net on the host that keeps nothing but the terminals, computes expressions with the
built-in kernels, and has no observer that acts on it. -/
structure NetOptions.IsPlain (options : NetOptions) : Prop where
  keep : options.keep = []
  registry : ∀ r, options.registry = some r → Expression.Supports r
  device : ∀ label, Device.normalize label options.config.device = Device.host
  reactions : options.reactions = []

/-! ### Expressions that can be recorded -/

namespace Expression

variable {e : Expression 0} {ws now : Workspace} {id next : Nat} {root n : NodeRef}
  {options : NetOptions} {held : NodeRef → Int}

/-- An expression over inputs and parameters of one graph, which differ in the names that they have.
Operators have a node among their operands, bound expressions are used, and the result is a node. -/
structure Suits (e : Expression 0) (ws : Workspace) (id : Nat) : Prop where
  hosts : ws.Hosts id
  leaves : ∀ n ∈ e.leaves, n.graph = id ∧ ws.Exists n ∧ (ws.node n).isLeaf = true
  apart : ws.NamesApart e.leaves
  recordable : e.isRecordable Fin.elim0 = true
  node : e.isNode Fin.elim0 = true

/-- What holds of a workspace once the nodes of an expression stand from a handle on. -/
structure Recorded (e : Expression 0) (ws : Workspace) (id next : Nat) (root : NodeRef) : Prop
    extends Suits e ws id where
  holds : ws.Holds id next (e.added id Fin.elim0 next)
  result : e.result id Fin.elim0 next = .node root
  graph : root.graph = id
  exist : ws.Exists root

/-- Recording such an expression succeeds. -/
theorem Suits.record (h : e.Suits ws id) : ∃ ws' root,
    e.record Fin.elim0 ws = .ok (ws', .node root) ∧
      e.Recorded ws' id (ws.graph id).size root ∧ ∀ n ∈ e.leaves, ws'.node n = ws.node n := by
  have sound := h.hosts.built.sound
  have there := h.hosts.there
  have none : (fun i => ((Fin.elim0 : Fin 0 → Value) i).node?.isSome) = Fin.elim0 :=
    funext fun i => i.elim0
  obtain ⟨run, hosts, operand⟩ := adds_record e (Fin.elim0 : Fin 0 → Value) h.hosts
    (fun i => i.elim0) (fun n hn => .node (h.leaves n hn).1 (h.leaves n hn).2.1)
    (by rw [none]; exact h.recordable)
  obtain ⟨root, node⟩ := Option.isSome_iff_exists.mp
    ((isSome_node?_result e Fin.elim0 (ws.graph id).size).trans (by rw [none]; exact h.node))
  have result := eq_node_of_node? node
  rw [result] at run operand
  have old : ∀ n ∈ e.leaves, _ := fun n hn =>
    (h.leaves n hn).2.1.grow (l := e.added id Fin.elim0 (ws.graph id).size) sound there
  refine ⟨_, root, run, ⟨⟨hosts, fun n hn => ?_, fun a ha b hb name => ?_, h.recordable, h.node⟩,
    fun k m found => (node_grow sound there found).2, result, ?_, ?_⟩, fun n hn => (old n hn).2⟩
  · rw [(old n hn).2]
    exact ⟨(h.leaves n hn).1, (old n hn).1, (h.leaves n hn).2.2⟩
  · rw [Workspace.name, Workspace.name, (old a ha).2, (old b hb).2]
    exact h.apart a ha b hb name
  · cases operand with
    | node graph _ => exact graph
  · cases operand with
    | node _ exist => exact exist

namespace Recorded

variable (h : e.Recorded ws id next root)
include h

/-- The new nodes run operations of expressions, and have no names. -/
theorem new_node {j : Nat} (hj : j < (e.added id Fin.elim0 next).length) :
    ∃ kind ∈ kinds, ∃ operands, ws.node ⟨id, next + j⟩ = called kind operands :=
  called_of_mem_added e _ _ _ (h.holds.eq_of_lt hj)

theorem isOperation_new {j : Nat} (hj : j < (e.added id Fin.elim0 next).length) :
    (ws.node ⟨id, next + j⟩).isOperation = true := by
  obtain ⟨kind, _, operands, node⟩ := h.new_node hj
  rw [node]
  rfl

theorem not_isOperation_leaf (hn : n ∈ e.leaves) : ¬ (ws.node n).isOperation = true := by
  simp [Node.isOperation, (h.leaves n hn).2.2]

/-- The result depends on the leaves and on the new nodes. -/
theorem reaches_iff : ws.Reaches [root] n ↔
    n ∈ e.leaves ∨ ∃ j < (e.added id Fin.elim0 next).length, n = ⟨id, next + j⟩ := by
  constructor
  · intro reaches
    have among : Throughout
        (fun n => n ∈ e.leaves ∨ ∃ j < (e.added id Fin.elim0 next).length, n = ⟨id, next + j⟩)
        id next (e.added id Fin.elim0 next).length := fun j hj => .inr ⟨j, hj, rfl⟩
    obtain ⟨inputs, result⟩ :=
      inputs_added e Fin.elim0 next (fun n hn => .inl hn) (fun i => i.elim0) among
    induction reaches with
    | root mem => exact result _ (by rw [List.mem_singleton.mp mem]; exact h.result)
    | input _ mem ih =>
      rcases ih with leaf | ⟨j, hj, rfl⟩
      · obtain ⟨args, kwargs⟩ := h.hosts.built.sound.leaf (h.leaves _ leaf).2.2
        simp [Workspace.inputs, Node.inputs, args, kwargs] at mem
      · exact inputs _ (h.holds.eq_of_lt hj) _ mem
  · have needed : ∀ m, e.result id Fin.elim0 next = .node m → ws.Reaches [root] m := fun m eq => by
      rw [h.result] at eq
      cases eq
      exact .root (List.mem_singleton_self root)
    obtain ⟨new, leaves, _⟩ := reaches_added e Fin.elim0 next Fin.elim0 h.recordable h.holds needed
    rintro (leaf | ⟨j, hj, rfl⟩)
    · exact leaves n leaf
    · exact new j hj

/-- Kernels are the built-in ones, wherever a net takes them from. -/
theorem supports (plain : options.IsPlain) : Supports (ws.registryFor id options.registry) := by
  unfold registryFor
  cases given : options.registry with
  | none => exact h.hosts.supports
  | some r =>
    dsimp only
    split
    · exact h.hosts.supports
    · exact plain.registry r given

theorem compilable (plain : options.IsPlain) :
    ws.Compilable (ws.registryFor id options.registry) [root] := by
  have unnamed : ∀ n name, ws.Reaches [root] n → ws.name n = some name → n ∈ e.leaves := by
    intro n name reaches named
    rcases h.reaches_iff.mp reaches with leaf | ⟨j, hj, rfl⟩
    · exact leaf
    · obtain ⟨kind, _, operands, node⟩ := h.new_node hj
      rw [Workspace.name, node] at named
      cases named
  refine ⟨fun a b name ha hb namea nameb => ?_, fun n reaches operation => ?_⟩
  · exact h.apart a (unnamed a name ha namea) b (unnamed b name hb nameb) name namea nameb
  · rcases h.reaches_iff.mp reaches with leaf | ⟨j, hj, rfl⟩
    · exact absurd operation (h.not_isOperation_leaf leaf)
    · obtain ⟨kind, known, operands, node⟩ := h.new_node hj
      obtain ⟨op, found, _, differentiable⟩ := Expression.builtin_get known
      refine ⟨op, ?_, differentiable⟩
      rw [node]
      exact (h.supports plain kind known).trans found

/-- A net can be built for the result. -/
theorem buildNet (plain : options.IsPlain) : ∃ s now,
    ws.buildNet [.node root] options = (.ok (Net.ofSchedule now s options), now) ∧
      SameShape ws now ∧ (∀ n name, ws.name n = some name → now.name n = some name) ∧
      s.NamedLike now s.nodes := by
  refine h.hosts.built.buildNet_ok rfl ?_ (fun n hn => ?_) (h.compilable plain) plain.keep
    plain.device
  · rw [← h.graph]
    rfl
  · rw [List.mem_singleton.mp hn]
    exact h.exist

end Recorded

/-- Whether the values of a pass bind the inputs of an expression by name, and nothing else. -/
structure Binds (e : Expression 0) (ws now : Workspace) (held : NodeRef → Int)
    (inputs : Keywords) : Prop where
  given : ∀ p ∈ inputs, ∃ n ∈ e.leaves, (ws.node n).isInput = true ∧ now.name n = some p.1 ∧
    p.2 = .int (held n)
  complete : ∀ n ∈ e.leaves, (ws.node n).isInput = true → ∃ p ∈ inputs, now.name n = some p.1

/-- Whether parameters of an expression were recorded with these values. -/
def ParamsHold (e : Expression 0) (ws : Workspace) (held : NodeRef → Int) : Prop :=
  ∀ n ∈ e.leaves, ∀ data, (ws.node n).role = .param data → data.value = .int (held n)

section
variable {s : Schedule} {order : List NodeRef} {marks : GradientMarks} {id' : Nat}
  {inputs : Keywords} {pass : PassOptions}
variable (h : e.Recorded ws id next root)
variable (sched : Schedules ws options.registry [root] options.keep s id' order marks)
variable (like : s.NamedLike now s.nodes)
include h sched

/-- A net of an expression holds the leaves and the new nodes. -/
theorem Recorded.mem_order : n ∈ order ↔
    n ∈ e.leaves ∨ ∃ j < (e.added id Fin.elim0 next).length, n = ⟨id, next + j⟩ :=
  (sched.orders.mem_iff n).trans h.reaches_iff

theorem Recorded.leaf_mem (hn : n ∈ e.leaves) : n ∈ order :=
  (h.mem_order sched).mpr (.inl hn)

theorem Recorded.new_mem {j : Nat} (hj : j < (e.added id Fin.elim0 next).length) :
    ⟨id, next + j⟩ ∈ order :=
  (h.mem_order sched).mpr (.inr ⟨j, hj, rfl⟩)

/-- The operations of a net of an expression are the new nodes. -/
theorem Recorded.eq_new (hn : n ∈ order) (operation : (ws.node n).isOperation = true) :
    ∃ j < (e.added id Fin.elim0 next).length, n = ⟨id, next + j⟩ :=
  ((h.mem_order sched).mp hn).resolve_left fun leaf => h.not_isOperation_leaf leaf operation

theorem Recorded.input_mem (hn : n ∈ order) (input : (ws.node n).isInput = true) :
    n ∈ e.leaves := by
  rcases (h.mem_order sched).mp hn with leaf | ⟨j, hj, rfl⟩
  · exact leaf
  · have := h.isOperation_new hj
    simp [Node.isOperation, Node.isLeaf, input] at this

include like

/-- Only the inputs of an expression are bound. -/
theorem Binds.lookup (binds : e.Binds ws now held inputs) {p : String × Value} (hp : p ∈ inputs) :
    ∃ n ∈ e.leaves, s.inputSlots.lookup p.1 = some (s.slotFor ws n) ∧ p.2 = .int (held n) := by
  obtain ⟨n, hn, input, named, value⟩ := binds.given p hp
  exact ⟨n, hn, sched.lookup_inputSlots like (h.leaf_mem sched hn) input named, value⟩

/-- An input of an expression is bound to its value. -/
theorem Binds.stagedValue (binds : e.Binds ws now held inputs) (hn : n ∈ e.leaves)
    (input : (ws.node n).isInput = true) :
    (Net.ofSchedule now s options).stagedValue inputs (s.slotFor ws n) = some (.int (held n)) := by
  unfold Net.stagedValue
  change ((inputs.reverse.find? fun p => s.inputSlots.lookup p.1 == some (s.slotFor ws n)).map
    (·.2)).or none = _
  cases found : inputs.reverse.find? fun p => s.inputSlots.lookup p.1 == some (s.slotFor ws n) with
  | none =>
    obtain ⟨p, hp, named⟩ := binds.complete n hn input
    have := List.find?_eq_none.mp found p (List.mem_reverse.mpr hp)
    simp [sched.lookup_inputSlots like (h.leaf_mem sched hn) input named] at this
  | some p =>
    obtain ⟨m, hm, slot, value⟩ :=
      binds.lookup h sched like (List.mem_reverse.mp (List.mem_of_find?_eq_some found))
    have same : s.slotFor ws m = s.slotFor ws n := by
      have slot' : s.inputSlots.lookup p.1 = some (s.slotFor ws n) := by
        simpa using List.find?_some found
      exact Option.some.inj (slot.symm.trans slot')
    have alone : ∀ k ∈ e.leaves, (ws.node k).isSelector = false ∧ 0 < (ws.node k).slotCount := by
      intro k hk
      have leaf := (h.leaves k hk).2.2
      exact ⟨Node.isSelector_of_isLeaf leaf, by simp [Node.slotCount, leaf]⟩
    have eq : m = n := by
      rw [Schedule.slotFor, Schedule.slotFor, source_of_plain (alone m hm).1,
        source_of_plain (alone n hn).1] at same
      exact (sched.compiled.slotAt_inj sched.orders (h.leaf_mem sched hm) (alone m hm).1
        (alone m hm).2 (h.leaf_mem sched hn) (alone n hn).1 (alone n hn).2 same).1
    rw [eq] at value
    rw [Option.map_some, value]
    rfl

/-- The leaves of an expression denote their values in a pass. -/
theorem Binds.denoted_leaf (same : SameShape ws now) (holds : e.ParamsHold ws held)
    (binds : e.Binds ws now held inputs) (hn : n ∈ e.leaves) (testing : Bool) :
    ws.denoted ((Net.ofSchedule now s options).meaning ws options inputs testing) n =
      .ok (.int (held n)) := by
  have leaf := (h.leaves n hn).2.2
  refine denoted_of_results ((results_leaf leaf).trans ?_)
  change Except.ok [(Net.ofSchedule now s options).leafValue ws inputs n] = _
  unfold Net.leafValue
  cases role : (ws.node n).role with
  | param data =>
    rw [if_pos (by simp [Node.isParam, role])]
    change Except.ok [(Net.ofSchedule now s options).table.valueAt (s.slotFor ws n)] = _
    rw [sched.valueAt_ofSchedule same (h.leaf_mem sched hn) role, holds n hn data role]
  | input =>
    rw [if_neg (by simp [Node.isParam, role])]
    change Except.ok [((Net.ofSchedule now s options).stagedValue inputs (s.slotFor ws n)).getD
      .none] = _
    rw [binds.stagedValue h sched like hn (by simp [Node.isInput, role])]
    rfl
  | operation => simp [Node.isLeaf, Node.isInput, Node.isParam, role] at leaf
  | selector k => simp [Node.isLeaf, Node.isInput, Node.isParam, role] at leaf

/-- A net of an expression is ready for a pass that binds its inputs. -/
theorem Binds.ready (binds : e.Binds ws now held pass.inputs)
    (runs : Net.Runs s (Net.ofSchedule now s options)) :
    Net.Ready now pass (Net.ofSchedule now s options) := by
  refine sched.ready runs Net.unrenamed_ofSchedule (fun p hp none => ?_)
    (fun _ r _ => Net.readDer_ofSchedule r) fun n hn input => ?_
  · obtain ⟨n, _, found, _⟩ := binds.lookup h sched like hp
    cases found.symm.trans none
  · have leaf := h.input_mem sched hn input
    exact ⟨_, .int (held n), binds.stagedValue h sched like leaf input, rfl,
      by simp [Net.arrived, Net.ofSchedule]⟩

end

/-- A forward pass of the net of an expression is its evaluation. -/
theorem Recorded.answer_forward (h : e.Recorded ws id next root) (plain : options.IsPlain)
    {s : Schedule} (build : ws.buildNet [.node root] options = (.ok (Net.ofSchedule now s options), now))
    (same : SameShape ws now) (like : s.NamedLike now s.nodes) (holds : e.ParamsHold ws held)
    {pass : PassOptions} (binds : e.Binds ws now held pass.inputs) {mode : Mode}
    (named : Mode.ofName pass.mode = .ok mode) :
    (Net.ofSchedule now s options).answer (Net.forward now pass) =
      (e.eval held Fin.elim0).map fun x => [x.toValue] := by
  have sound := h.hosts.built.sound
  have exist : ∀ n ∈ Net.terminalNodes [.node root], ws.Exists n := by
    intro n hn
    rw [List.mem_singleton.mp hn]
    exact h.exist
  let net := Net.ofSchedule now s options
  obtain ⟨⟨id', order, marks, sched⟩, runs, idle, _⟩ := Net.built_spec h.hosts.built exist build
  have sched' : Schedules ws options.registry [root] options.keep s id' order marks := sched
  let I := net.meaning ws options pass.inputs (mode == Mode.test)
  have interprets := sched.interprets_host runs rfl options pass.inputs (mode == Mode.test)
  have ends := sched.leads_forward (I := I) sound runs idle (Net.quiet_ofSchedule plain.reactions)
    interprets (binds.ready h sched' like runs) named rfl
  have yields := yields_added (I := I) sound (h.supports plain) e Fin.elim0 Fin.elim0 next h.holds
    (fun i => i.elim0) fun n hn => binds.denoted_leaf h sched' like same holds hn _
  rw [h.result] at yields
  unfold Net.answer
  cases run : Net.forward now pass net with
  | ok _ net' =>
    obtain ⟨val, computed, kept, _⟩ := (leads_of_ok run).mp ends
    have fine : ws.Succeeds I id next (e.added id Fin.elim0 next).length := fun j hj =>
      ⟨_, computed _ (h.new_mem sched' hj) (Node.isSelector_of_isOperation (h.isOperation_new hj))⟩
    obtain ⟨x, evaluated, denotes⟩ := yields.of_succeeds fine
    have value := sched.valueAt_terminal sound computed kept (List.mem_singleton_self root)
    rw [show ws.denoted I root = .ok x.toValue from denotes] at value
    have serves : Net.Serves net.schedule net net := ⟨runs, rfl, rfl⟩
    have after := (leads_of_ok run).mp
      ((Net.Call.forward now pass).keeps (Net.stable_serves sched.wellFormed) net serves)
    have terminals : net'.schedule.terminals = [s.slotFor ws root] := by
      rw [after.runs.schedule]
      exact sched'.compiled.terminalSlots
    have outputs : net'.outputs.map (·.2) = [x.toValue] := by
      rw [Except.ok.inj value]
      simp [Net.outputs, terminals, VariableTable.valueAt]
      rfl
    dsimp only
    rw [outputs, evaluated]
    rfl
  | error err net' =>
    obtain ⟨n, hn, operation, failed, before⟩ := (leads_of_error run).mp ends
    obtain ⟨j, hj, rfl⟩ := h.eq_new sched' hn operation
    have fine : ws.Succeeds I id next j := fun i hi =>
      before _ (h.new_mem sched' (hi.trans hj)) (h.isOperation_new (hi.trans hj))
        (Nat.add_lt_add_left hi next)
    rw [yields.of_failsWith ⟨j, hj, failed, fine⟩]
    rfl

/-- Recording an expression, building a net for its result and running it forward is evaluating the
expression on numbers, from left to right: the pass yields the value, or fails with the error, of the
evaluation. Nothing fails before the pass, and nodes keep the names by which inputs are bound. -/
theorem Suits.evaluates (h : e.Suits ws id) (plain : options.IsPlain) : ∃ ws' root net now,
    e.record Fin.elim0 ws = .ok (ws', .node root) ∧
    ws'.buildNet [.node root] options = (.ok net, now) ∧
    (∀ n ∈ e.leaves, ∀ name, ws.name n = some name → now.name n = some name) ∧
    ∀ held pass mode, e.ParamsHold ws held → e.Binds ws now held pass.inputs →
      Mode.ofName pass.mode = .ok mode →
      net.answer (Net.forward now pass) = (e.eval held Fin.elim0).map fun x => [x.toValue] := by
  obtain ⟨ws', root, record, recorded, old⟩ := h.record
  obtain ⟨s, now, build, same, kept, like⟩ := recorded.buildNet plain
  refine ⟨ws', root, _, now, record, build, fun n hn name named => kept n name ?_,
    fun held pass mode holds binds named => ?_⟩
  · rwa [Workspace.name, old n hn]
  · refine recorded.answer_forward plain build same like (fun n hn data role => ?_) ⟨?_, ?_⟩ named
    · rw [old n hn] at role
      exact holds n hn data role
    · intro p hp
      obtain ⟨n, hn, input, rest⟩ := binds.given p hp
      exact ⟨n, hn, by rwa [old n hn], rest⟩
    · intro n hn input
      rw [old n hn] at input
      exact binds.complete n hn input

/-- The difference of two and the product of `x * p` with its own negative. -/
def sample : Expression 0 :=
  .bind (.apply .mul (.node ⟨0, 0⟩) (.node ⟨0, 1⟩))
    (.apply .sub (.constant 2) (.apply .mul (.bound 0) (.neg (.bound 0))))

theorem mem_leaves_sample {n : NodeRef} (hn : n ∈ sample.leaves) : n = ⟨0, 0⟩ ∨ n = ⟨0, 1⟩ := by
  simpa [sample, leaves] using hn

theorem suits_sample : sample.Suits Sample.leaves 0 := by
  have names : (some "x" : Option String) ≠ some "p" := by decide
  refine ⟨⟨Sample.leaves_built, by decide, fun _ _ => rfl⟩, fun n hn => ?_,
    fun a ha b hb name first second => ?_, rfl, rfl⟩
  · rcases mem_leaves_sample hn with rfl | rfl
    · exact ⟨rfl, ⟨_, rfl, by decide⟩, rfl⟩
    · exact ⟨rfl, ⟨_, rfl, by decide⟩, rfl⟩
  · rcases mem_leaves_sample ha with rfl | rfl <;> rcases mem_leaves_sample hb with rfl | rfl
    · rfl
    · exact absurd (first.trans second.symm) names
    · exact absurd (second.trans first.symm) names
    · rfl

theorem isPlain_sample : Sample.options.IsPlain where
  keep := rfl
  registry r given := by cases given
  device label := by cbv
  reactions := rfl

/-- With `x` as 5 and `p` as 3 the pass yields 227. -/
theorem evaluates_sample : ∃ ws' root net now,
    sample.record Fin.elim0 Sample.leaves = .ok (ws', .node root) ∧
    ws'.buildNet [.node root] Sample.options = (.ok net, now) ∧
    net.answer (Net.forward now Sample.pass) = .ok [.int 227] := by
  obtain ⟨ws', root, net, now, record, build, kept, ends⟩ := suits_sample.evaluates isPlain_sample
  have named : now.name ⟨0, 0⟩ = some "x" := kept ⟨0, 0⟩ (by simp [sample, leaves]) "x" rfl
  refine ⟨ws', root, net, now, record, build, ?_⟩
  rw [ends (fun n => if n = ⟨0, 0⟩ then 5 else 3) Sample.pass .normal ?_ ⟨?_, ?_⟩ rfl]
  · rfl
  · intro n hn data role
    rcases mem_leaves_sample hn with rfl | rfl
    · cases role
    · cases role
      rfl
  · intro p hp
    obtain rfl := List.mem_singleton.mp hp
    exact ⟨⟨0, 0⟩, by simp [sample, leaves], rfl, named, rfl⟩
  · intro n hn input
    rcases mem_leaves_sample hn with rfl | rfl
    · exact ⟨_, List.mem_singleton_self _, named⟩
    · cases input

end Expression

end Backprop
