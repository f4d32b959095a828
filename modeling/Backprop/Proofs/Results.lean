import Mathlib
import Backprop.Proofs.Denotation
import Backprop.Proofs.ForwardPass
/-!
# Forward passes compute what the graph denotes

* `Net.meaning` interprets the graph of a net: inputs have the values that a pass binds them to, and
  parameters those that the net holds.
* `Schedules.run_results`: the instructions of a net yield the results of all operations, or stop at
  the failing one of least handle.
* `Reached.forward_denotes`: so does a forward pass, and it leaves them in the slots that are kept.
-/

namespace Backprop

open Workspace

namespace Net

variable {ws : Workspace} {terminals : List Value} {options : NetOptions} {net net' : Net}
  {mode : Mode} {pass : PassOptions}

/-- The value of a leaf in a pass: a parameter's own, and the one that is given for an input. -/
def leafValue (net : Net) (ws : Workspace) (inputs : Keywords) (n : NodeRef) : Value :=
  if (ws.node n).isParam then net.table.valueAt (net.schedule.slotFor ws n)
  else (net.stagedValue inputs (net.schedule.slotFor ws n)).getD .none

/-- The name that the instruction of a node goes by. -/
def shownName (net : Net) (n : NodeRef) : String :=
  ((net.schedule.forward.find? (·.handle == n.handle)).map (·.name)).getD ""

/-- What the graph of a net is interpreted in when a pass runs. -/
def meaning (net : Net) (ws : Workspace) (options : NetOptions) (inputs : Keywords)
    (testing : Bool) : Interpretation where
  registry := options.registry
  testing
  shown := net.shownName
  leaf := net.leafValue ws inputs

/-- What arrives for an input in a pass. -/
def inputValue (net : Net) (inputs : Keywords) (r : Slot) : Value :=
  match (net.stagedValue inputs r).map (net.arrived r) with
  | some (.ok v) => v
  | _ => .none

/-- Whether an interpretation gives nodes the names and leaves the values that a pass does, with every
constant where it is. -/
structure Interprets (net : Net) (ws : Workspace) (order : List NodeRef) (inputs : Keywords)
    (I : Interpretation) : Prop where
  shown : I.shown = net.shownName
  constants : ∀ i ∈ net.schedule.forward, net.constantsOf i = .ok i.constants
  leaves : ∀ n ∈ order, (ws.node n).isLeaf = true →
    net.boundValuation inputs (net.schedule.slotFor ws n) = I.leaf n

theorem Interprets.agrees {order : List NodeRef} {inputs : Keywords} {I : Interpretation}
    (interprets : net.Interprets ws order inputs I) :
    net.schedule.Agrees ws I order [] (net.boundValuation inputs) := by
  intro n hn plain ready
  have leaf : (ws.node n).isLeaf = true := by simpa using ready
  have bound := interprets.leaves n hn leaf
  rw [Schedule.slotFor, source_of_plain plain] at bound
  rw [results_leaf leaf, Node.slotCount, if_pos leaf]
  simp [bound]

/-- On the host an instruction runs on its own constants. -/
theorem constantsOf_host (device : net.device = Device.host) (i : Instruction) :
    net.constantsOf i = .ok i.constants := by
  simp [constantsOf, places, device]

end Net

/-! ### Instructions -/

namespace Schedules

section
variable {ws : Workspace} {registry : Option Registry} {terminals order : List NodeRef}
  {keep : List String} {id : Nat} {marks : GradientMarks} {net : Net} {inputs : Keywords}
variable (sched : Schedules ws registry terminals keep net.schedule id order marks)
include sched

/-- Before the first instruction the slot of a parameter holds its value, and that of an input what
has arrived for it. -/
theorem bound_eq (runs : Net.Runs net.schedule net) (inputs : Keywords) {n : NodeRef} (hn : n ∈ order)
    (leaf : (ws.node n).isLeaf = true) :
    net.boundValuation inputs (net.schedule.slotFor ws n) =
      if (ws.node n).isParam then net.table.valueAt (net.schedule.slotFor ws n)
      else net.inputValue inputs (net.schedule.slotFor ws n) := by
  have plain := Node.isSelector_of_isLeaf leaf
  have one : 0 < (ws.node n).slotCount := by simp [Node.slotCount, leaf]
  obtain ⟨info, mem, index, _, describes⟩ :=
    sched.compiled.info_of_output sched.orders hn plain one
  have slot : net.schedule.slotFor ws n = info.index := by
    rw [Schedule.slotFor, source_of_plain plain]
    exact index.symm
  have kind : (net.table.at? info.index).map (·.info.kind) = some info.kind := by
    have look := congrArg (Option.map SlotInfo.kind) (runs.at?_info sched.wellFormed mem)
    simpa only [Option.map_map, Function.comp_def, Option.map_some] using look
  unfold Net.boundValuation
  rw [slot, kind, describes.kind]
  cases role : (ws.node n).role with
  | input =>
    simp only [Layout.slotKind, role, Node.isParam, Bool.false_eq_true, if_false]
    rfl
  | param data => simp [Layout.slotKind, role, Node.isParam]
  | _ => simp [Node.isLeaf, Node.isInput, Node.isParam, role] at leaf

/-- On the host an interpretation with the values of leaves themselves is one for a pass. -/
theorem interprets_host (runs : Net.Runs net.schedule net) (device : net.device = Device.host)
    (options : NetOptions) (inputs : Keywords) (testing : Bool) :
    net.Interprets ws order inputs (net.meaning ws options inputs testing) := by
  refine ⟨rfl, fun i _ => Net.constantsOf_host device i, fun n hn leaf => ?_⟩
  rw [sched.bound_eq runs inputs hn leaf]
  have arrives : net.inputValue inputs (net.schedule.slotFor ws n) =
      (net.stagedValue inputs (net.schedule.slotFor ws n)).getD .none := by
    unfold Net.inputValue
    cases net.stagedValue inputs (net.schedule.slotFor ws n) with
    | none => rfl
    | some v => simp [Net.arrived, device]
  rw [arrives]
  rfl

/-- Instructions stand in the order of the handles of their operations. -/
theorem handles_eq : net.schedule.forward.map (·.handle) =
    (order.filter fun n => (ws.node n).isOperation).map (·.handle) := by
  have each := sched.compiled.forward
  generalize (order.filter fun n => (ws.node n).isOperation) = operations at each ⊢
  generalize net.schedule.forward = l at each ⊢
  induction each with
  | nil => rfl
  | cons first _ ih => rw [List.map_cons, List.map_cons, first.handle, ih]

theorem shownName_eq {n : NodeRef} {i : Instruction} (hi : i ∈ net.schedule.forward)
    (handle : i.handle = n.handle) : net.shownName n = i.name := by
  have nodup : (net.schedule.forward.map (·.handle)).Nodup := by
    rw [sched.handles_eq]
    exact sched.orders.nodup_handles.sublist (List.filter_sublist.map _)
  unfold Net.shownName
  cases found : net.schedule.forward.find? (·.handle == n.handle) with
  | none =>
    have := List.find?_eq_none.mp found i hi
    simp [handle] at this
  | some j =>
    have same : j.handle = n.handle := by simpa using List.find?_some found
    have eq := List.inj_on_of_nodup_map nodup (List.mem_of_find?_eq_some found) hi
      (same.trans handle.symm)
    rw [eq]
    rfl

/-- A pass can start if every input is bound to something, nothing else is given, no node was
renamed, and derivatives to be added to can be read. -/
theorem ready (runs : Net.Runs net.schedule net)
    {now : Workspace} (unrenamed : ∀ p ∈ net.compiledNames, now.name p.1 = p.2) {pass : PassOptions}
    (known : ∀ p ∈ pass.inputs, net.schedule.inputSlots.lookup p.1 ≠ none)
    (readable : pass.accumulate = true → ∀ r, net.schedule.IsParam r → ∃ d, net.table.readDer r = .ok d)
    (bound : ∀ n ∈ order, (ws.node n).isInput = true → ∃ v x,
      net.stagedValue pass.inputs (net.schedule.slotFor ws n) = some v ∧ v.isNone = false ∧
        net.arrived (net.schedule.slotFor ws n) v = .ok x) :
    Net.Ready now pass net := by
  have wf := sched.wellFormed
  refine ⟨fun _ => unrenamed, known, fun r has => ?_, fun p hp => ?_⟩
  · obtain ⟨info, mem, rfl⟩ := (runs.has wf r).mp has
    unfold VariableTable.startDer
    rw [runs.persistentAt wf mem]
    split
    next keep =>
      simp only [Bool.and_eq_true] at keep
      exact readable keep.2 _ ((wf.isParam_iff mem).mpr keep.1)
    next => exact ⟨_, rfl⟩
  · obtain ⟨info, mem, kind, rfl⟩ := wf.mem_inputSlots.mp hp
    obtain ⟨index, n, hn, describes⟩ := sched.compiled.slots info mem
    have input : (ws.node n).isInput = true := by
      have := describes.kind.symm.trans kind
      cases role : (ws.node n).role <;> simp [Layout.slotKind, Node.isInput, role] at this ⊢
    have first : info.output = 0 := by
      have bound := describes.output
      simp only [Node.slotCount, Node.isLeaf, input, Bool.true_or, if_true] at bound
      omega
    have found := bound n hn input
    rw [Schedule.slotFor, source_of_plain describes.plain, ← describes.handle, ← first,
      ← index] at found
    exact found

end

/-! ### Running instructions -/

section
variable {ws : Workspace} {I : Interpretation} {terminals order : List NodeRef} {keep : List String}
  {id : Nat} {marks : GradientMarks} {net : Net} {inputs : Keywords}
variable (sched : Schedules ws I.registry terminals keep net.schedule id order marks)
include sched

/-- Running all instructions yields the results of all nodes, or stops at the failing operation of
least handle. -/
theorem run_results (sound : ws.Sound) (interprets : net.Interprets ws order inputs I) :
    match net.valuesAfter I.testing (net.boundValuation inputs) net.schedule.forward with
    | .ok val => ∀ n ∈ order, (ws.node n).isSelector = false →
        ws.results I n =
          .ok ((List.range (ws.node n).slotCount).map fun k => val (net.schedule.slotAt n.handle k))
    | .error e => ∃ n ∈ order, (ws.node n).isOperation = true ∧ ws.results I n = .error e ∧
        ∀ m ∈ order, (ws.node m).isOperation = true → m.handle < n.handle →
          ∃ outs, ws.results I m = .ok outs := by
  have shown : ∀ n ∈ order, ∀ i ∈ net.schedule.forward, i.handle = n.handle → I.shown n = i.name :=
    fun n _ i hi handle => by rw [interprets.shown, sched.shownName_eq hi handle]
  have run := sched.valuesAfter_results sound interprets.constants shown sched.compiled.forward [] _
    rfl (List.Subset.refl _) interprets.agrees
  split
  next val ends =>
    rw [ends] at run
    intro n hn plain
    refine run n hn plain ?_
    cases operation : (ws.node n).isOperation with
    | true => exact .inr (List.mem_filter.mpr ⟨hn, operation⟩)
    | false => exact .inl (Node.isLeaf_of_not_isOperation plain (by simp [operation]))
  next e ends =>
    rw [ends] at run
    obtain ⟨pre, n, post, split, failed, fine⟩ := run
    have member : n ∈ order.filter fun n => (ws.node n).isOperation := by rw [split]; simp
    obtain ⟨hn, operation⟩ := List.mem_filter.mp member
    refine ⟨n, hn, operation, failed, fun m hm operation' less => fine m ?_⟩
    have among : m ∈ pre ++ n :: post := by
      rw [← split]
      exact List.mem_filter.mpr ⟨hm, operation'⟩
    have sorted := sched.orders.sorted.sublist
      (List.filter_sublist (p := fun n => (ws.node n).isOperation))
    rw [split] at sorted
    exact mem_before sorted among less

/-- A forward pass that can start stops at the failing operation of least handle. -/
theorem of_stopped (sound : ws.Sound) {now : Workspace} {pass : PassOptions}
    (interprets : net.Interprets ws order pass.inputs I) (idle : Net.Idle net)
    (ready : Net.Ready now pass net) {mode : Mode} (named : Mode.ofName pass.mode = .ok mode)
    (testing : I.testing = (mode == Mode.test)) {e : Error}
    (stopped : Net.Stopped now pass net net.schedule.forward e) :
    ∃ n ∈ order, (ws.node n).isOperation = true ∧ ws.results I n = .error e ∧
      ∀ m ∈ order, (ws.node m).isOperation = true → m.handle < n.handle →
        ∃ outs, ws.results I m = .ok outs := by
  cases stopped with
  | mode bad =>
    rw [named] at bad
    cases bad
  | busy busy =>
    rw [idle] at busy
    cases busy
  | unready unready => exact absurd ready unready
  | kernel named' failed =>
    obtain rfl := Except.ok.inj (named.symm.trans named')
    have results := sched.run_results sound interprets
    rw [testing, failed] at results
    exact results

/-- A forward pass leaves the results of all nodes in the slots that are kept, and parameters as they
were, or it fails like the failing operation of least handle. -/
theorem leads_forward (sound : ws.Sound) (runs : Net.Runs net.schedule net) (idle : Net.Idle net)
    (quiet : net.Quiet) {now : Workspace} {pass : PassOptions}
    (interprets : net.Interprets ws order pass.inputs I) (ready : Net.Ready now pass net)
    {mode : Mode} (named : Mode.ofName pass.mode = .ok mode)
    (testing : I.testing = (mode == Mode.test)) :
    Leads (Net.forward now pass) net
      (fun _ net' => ∃ val : Valuation,
        (∀ n ∈ order, (ws.node n).isSelector = false → ws.results I n = .ok
          ((List.range (ws.node n).slotCount).map fun k => val (net.schedule.slotAt n.handle k))) ∧
        (∀ r, net.schedule.HasSlot r → net.schedule.IsParam r ∨ net.schedule.IsRetained r →
          net'.table.valueAt r = val r) ∧
        ∀ r, net.schedule.IsParam r → val r = net.table.valueAt r)
      (fun e _ => ∃ n ∈ order, (ws.node n).isOperation = true ∧ ws.results I n = .error e ∧
        ∀ m ∈ order, (ws.node m).isOperation = true → m.handle < n.handle →
          ∃ outs, ws.results I m = .ok outs) := by
  have wf := sched.wellFormed
  have results := sched.run_results sound interprets
  apply (Net.leads_forwardPass wf runs (Net.silent_notifyObservers now) quiet now pass).mono
  · rintro _ _ ⟨mode', last, after, rfl⟩
    obtain rfl := Except.ok.inj (named.symm.trans after.named)
    obtain ⟨base, val, prepared, values, between⟩ := after.state
    rw [List.take_length] at values between
    rw [testing, values] at results
    refine ⟨val, results, fun r has kept => (between.values r has).1 ⟨wf.available has, ?_⟩,
      fun r param => ?_⟩
    · exact .inr (kept.imp_right .inl)
    · obtain ⟨info, mem, index, kind⟩ := param
      have leaf : net.schedule.IsLeaf r := ⟨info, mem, index, by rw [kind]; decide⟩
      rw [(Net.isForward_of_valuesAfter wf runs values).leaves r leaf,
        ← prepared.valueAt wf runs ⟨info, mem, index⟩]
      exact prepared.params r ⟨info, mem, index, kind⟩
  · exact fun e _ stopped => sched.of_stopped sound interprets idle ready named testing stopped

end

end Schedules

/-! ### Nets that calls lead to -/

namespace Net

/-- A forward pass on the host computes what the graph denotes. It succeeds exactly if no operation
that a terminal depends on fails, and then all slots that are kept hold their results and parameters
are as before; and if not, it fails like the failing operation of least handle. Every such operation
has one instruction, which has its kernels, in the order of handles. -/
theorem Reached.forward_denotes {ws : Workspace} {terminals : List Value} {options : NetOptions}
    {net : Net} {mode : Mode} (built : ws.Built) (exist : ∀ n ∈ terminalNodes terminals, ws.Exists n)
    (reached : Reached ws terminals options net) (quiet : net.Quiet)
    (device : net.device = Device.host) (now : Workspace)
    (unrenamed : ∀ p ∈ net.compiledNames, now.name p.1 = p.2) (pass : PassOptions)
    (named : Mode.ofName pass.mode = .ok mode)
    (known : ∀ p ∈ pass.inputs, net.schedule.inputSlots.lookup p.1 ≠ none)
    (readable : pass.accumulate = true → ∀ r, net.schedule.IsParam r →
      ∃ d, net.table.readDer r = .ok d)
    (bound : ∀ n, ws.Reaches (terminalNodes terminals) n → (ws.node n).isInput = true → ∃ v,
      net.stagedValue pass.inputs (net.schedule.slotFor ws n) = some v ∧ v ≠ .none) :
    let I := net.meaning ws options pass.inputs (mode == Mode.test)
    let Runs (n : NodeRef) := ws.Reaches (terminalNodes terminals) n ∧ (ws.node n).isOperation = true
    ((∃ net', Net.forward now pass net = .ok ⟨⟩ net') ↔
      ∀ n, Runs n → ∃ outs, ws.results I n = .ok outs) ∧
    (∀ net', Net.forward now pass net = .ok ⟨⟩ net' →
      (∀ t ∈ terminalNodes terminals,
        ws.denoted I t = .ok (net'.table.valueAt (net.schedule.slotFor ws t))) ∧
      (∀ info ∈ net.schedule.slots, info.retained = true → ∃ n outs,
        ws.Reaches (terminalNodes terminals) n ∧ n.handle = info.handle ∧
          ws.results I n = .ok outs ∧
          outs[info.output]? = some (net'.table.valueAt info.index)) ∧
      ∀ r, net.schedule.IsParam r → net'.table.valueAt r = net.table.valueAt r) ∧
    (∀ e net', Net.forward now pass net = .error e net' → ∃ n, Runs n ∧
      ws.results I n = .error e ∧
      ∀ m, Runs m → m.handle < n.handle → ∃ outs, ws.results I m = .ok outs) ∧
    ∃ operations : List NodeRef, (operations.Pairwise fun a b => a.handle < b.handle) ∧
      (∀ n, n ∈ operations ↔ Runs n) ∧
      List.Forall₂ (fun n i => i.handle = n.handle ∧
          (ws.registryFor n.graph options.registry).get (ws.node n).kind = .ok i.operation)
        operations net.schedule.forward := by
  intro I Runs
  obtain ⟨⟨id, order, marks, sched⟩, runs, idle, _⟩ := reached.spec built exist
  have wf := sched.wellFormed
  have ord := sched.orders
  have inOrder : ∀ n, Runs n ↔ n ∈ order ∧ (ws.node n).isOperation = true := fun n => by
    rw [ord.mem_iff]
  have ready := sched.ready runs unrenamed known readable fun n hn input => by
    obtain ⟨v, staged, some⟩ := bound n ((ord.mem_iff n).mp hn) input
    refine ⟨v, v, staged, ?_, by simp [arrived, device]⟩
    cases v <;> first | rfl | exact absurd rfl some
  have interprets := sched.interprets_host runs device options pass.inputs (mode == Mode.test)
  have ends := sched.leads_forward (I := I) built.sound runs idle quiet interprets ready named rfl
  have fails : ∀ e net', Net.forward now pass net = .error e net' → ∃ n, Runs n ∧
      ws.results I n = .error e ∧
      ∀ m, Runs m → m.handle < n.handle → ∃ outs, ws.results I m = .ok outs := by
    intro e net' run
    obtain ⟨n, hn, operation, failed, fine⟩ := (leads_of_error run).mp ends
    refine ⟨n, (inOrder n).mpr ⟨hn, operation⟩, failed, fun m hm less => ?_⟩
    obtain ⟨hm, operation'⟩ := (inOrder m).mp hm
    exact fine m hm operation' less
  refine ⟨⟨fun succeeds n hn => ?_, fun fine => ?_⟩, fun net' run => ?_, fails, _,
    ord.sorted.sublist List.filter_sublist, fun n => List.mem_filter.trans (inOrder n).symm, ?_⟩
  · obtain ⟨net', run⟩ := succeeds
    obtain ⟨hn, operation⟩ := (inOrder n).mp hn
    obtain ⟨val, computed, _⟩ := (leads_of_ok run).mp ends
    have plain : (ws.node n).isSelector = false := by
      simp only [Node.isOperation, Bool.and_eq_true, Bool.not_eq_true'] at operation
      exact operation.2
    exact ⟨_, computed n hn plain⟩
  · cases run : Net.forward now pass net with
    | ok _ net' => exact ⟨net', rfl⟩
    | error e net' =>
      obtain ⟨n, hn, failed, _⟩ := fails e net' run
      obtain ⟨outs, computed⟩ := fine n hn
      rw [failed] at computed
      cases computed
  · obtain ⟨val, computed, held, same⟩ := (leads_of_ok run).mp ends
    refine ⟨fun t ht => ?_, fun info mem retained => ?_, fun r param => ?_⟩
    · have slot : net.schedule.slotFor ws t ∈ net.schedule.terminals := by
        rw [sched.compiled.terminalSlots]
        exact List.mem_map_of_mem ht
      obtain ⟨info, mem, index, retained⟩ := wf.terminalSlots _ slot
      rw [held _ ⟨info, mem, index⟩ (.inr ⟨info, mem, index, retained⟩)]
      have agrees : net.schedule.Agrees ws I order order val :=
        fun n hn plain _ => computed n hn plain
      obtain ⟨_, _, _, inside, _⟩ :=
        sched.compiled.info_of_node ord built.sound (ord.root_mem ht)
      exact agrees.denoted built.sound inside (.inr inside)
    · obtain ⟨index, n, hn, describes⟩ := sched.compiled.slots info mem
      refine ⟨n, _, (ord.mem_iff n).mp hn, describes.handle.symm, computed n hn describes.plain, ?_⟩
      rw [held _ ⟨info, mem, rfl⟩ (.inr ⟨info, mem, rfl, retained⟩), List.getElem?_map,
        List.getElem?_range describes.output, index, describes.handle]
      rfl
    · have has : net.schedule.HasSlot r := by
        obtain ⟨info, mem, index, _⟩ := param
        exact ⟨info, mem, index⟩
      rw [held r has (.inl param), same r param]
  · have graph : ∀ n ∈ order.filter (fun n => (ws.node n).isOperation), n.graph = id :=
      fun n hn => ord.graph n (List.mem_filter.mp hn).1
    refine ((List.forall₂_and_left _ _).mpr ⟨graph, sched.compiled.forward⟩).imp fun n i h => ?_
    obtain ⟨same, instructs⟩ := h
    exact ⟨instructs.handle, by rw [same]; exact instructs.operation⟩

/-- A forward pass leaves `x * p + x` in the slot of the sum. -/
theorem forward_denotes_sample : ∃ now net net',
    Reached Sample.graph Sample.terminals Sample.options net ∧
      Net.forward now Sample.pass net = .ok ⟨⟩ net' ∧
      Sample.graph.denoted
        (net.meaning Sample.graph Sample.options Sample.pass.inputs false) ⟨0, 3⟩ =
          .ok (net'.table.valueAt (net.schedule.slotFor Sample.graph ⟨0, 3⟩)) := by
  have check : Sample.graph.builds Sample.terminals Sample.options (fun now net =>
      !net.observed && net.device == Device.host &&
        net.compiledNames.all (fun p => now.name p.1 == p.2) &&
        Sample.pass.inputs.all (fun p => (net.schedule.inputSlots.lookup p.1).isSome) &&
        net.schedule.nodes.all (fun n => !(Sample.graph.node n).isInput ||
          (net.stagedValue Sample.pass.inputs (net.schedule.slotFor Sample.graph n)).any
            fun v => !v.isNone) &&
        net.succeeds (Net.forward now Sample.pass) fun _ => true) = true := by cbv
  obtain ⟨now, net, reached, check⟩ := Reached.of_builds check
  simp only [Bool.and_eq_true, Bool.not_eq_true', List.all_eq_true, beq_iff_eq] at check
  obtain ⟨⟨⟨⟨⟨alone, device⟩, unrenamed⟩, known⟩, bound⟩, run⟩ := check
  obtain ⟨net', run, _⟩ := succeeds_iff.mp run
  obtain ⟨⟨_, _, _, sched⟩, _⟩ := reached.spec Sample.graph_built Sample.terminals_exist
  have denotes := reached.forward_denotes Sample.graph_built Sample.terminals_exist
    (fun observed => by rw [alone] at observed; cases observed) device now unrenamed Sample.pass rfl
    (fun p hp => by simpa [Option.isSome_iff_ne_none] using known p hp) (fun on => by cases on)
    fun n reaches input => ?_
  · exact ⟨now, net, net', reached, run, (denotes.2.1 net' run).1 ⟨0, 3⟩ (by decide)⟩
  · have hn : n ∈ net.schedule.nodes := by
      rw [sched.compiled.nodes]
      exact (sched.orders.mem_iff n).mpr reaches
    have some := bound n hn
    simp only [input, Bool.not_true, Bool.false_or, Option.any_eq_true] at some
    obtain ⟨v, staged, some⟩ := some
    refine ⟨v, staged, fun none => ?_⟩
    rw [none] at some
    cases some

end Net

end Backprop
