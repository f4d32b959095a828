import Mathlib
import Backprop.Proofs.Gradient
import Backprop.Proofs.GradientPaths
import Backprop.Proofs.Seeding
/-!
# Whole numbers forward and backward

* `Workspace.IsArithmetic`: whatever roots depend on is a leaf or a sum, difference, product, negative or
  power of whole numbers, with a constant exponent that is not negative.
* `Schedules.whole_forward`: then a forward pass that succeeds computes whole numbers only.
* `Schedules.whole_sweeps`: and the backward pass sends whole numbers only, if no power that derivatives are
  passed through has exponent zero.
* `Net.Reached.whole_backward`: it does not fail then, and every power sends back what its derivative is.
-/

namespace Backprop

open Workspace

/-- Terminals that pass the check are some. -/
theorem checkTerminals_ne_nil {vs : List Value} {id : Nat} {nodes : List NodeRef}
    (h : checkTerminals vs = .ok (id, nodes)) : nodes ≠ [] := by
  rintro rfl
  unfold checkTerminals at h
  dsimp only at h
  split at h
  · cases h
  · obtain ⟨found, each, h⟩ := ok_of_bind h
    split at h
    · cases h
    next => split at h <;> cases h

/-- Terminals that a schedule is compiled for pass the check. -/
theorem Workspace.checkTerminals_of_compile {ws ws' : Workspace} {terminals : List Value}
    {options : CompileOptions} {s : Schedule} (run : ws.compile terminals options = (.ok s, ws')) :
    ∃ id nodes, checkTerminals terminals = .ok (id, nodes) := by
  unfold compile at run
  dsimp only at run
  split at run
  next => cases run
  next ordered =>
    obtain ⟨⟨id, nodes⟩, checked, -⟩ := ok_of_bind ordered
    exact ⟨id, nodes, checked⟩

/-- The calls of arithmetic operations. The exponent of a power is a constant that is not negative. -/
inductive Arithmetic : String → List Value → Prop where
  | add (a b : Value) : Arithmetic "add" [a, b]
  | sub (a b : Value) : Arithmetic "sub" [a, b]
  | mul (a b : Value) : Arithmetic "mul" [a, b]
  | neg (a : Value) : Arithmetic "neg" [a]
  | pow (a : Value) (p : Nat) : Arithmetic "pow" [a, .int p]

/-- Whether everything that roots depend on is a leaf or a built-in arithmetic operation on nodes and whole
numbers. -/
structure Workspace.IsArithmetic (ws : Workspace) (registry : Option Registry) (roots : List NodeRef) :
    Prop where
  calls : ∀ n, ws.Reaches roots n → (ws.node n).isOperation = true →
    Arithmetic (ws.node n).kind (ws.node n).args
  operands : ∀ n, ws.Reaches roots n → (ws.node n).isOperation = true →
    ∀ v ∈ (ws.node n).args, (∃ m, v = .node m) ∨ ∃ k, v = .int k
  positional : ∀ n, ws.Reaches roots n → (ws.node n).isOperation = true → (ws.node n).kwargs = []
  builtin : ∀ n, ws.Reaches roots n → (ws.node n).isOperation = true →
    (ws.registryFor n.graph registry).get (ws.node n).kind = Registry.builtin.get (ws.node n).kind

/-- A whole number. -/
def Whole (v : Value) : Prop := ∃ k : Int, v = .int k

/-- A call is that of a term, or of a power with exponent zero. -/
theorem Arithmetic.term_or_power {kind : String} {args : List Value} (h : Arithmetic kind args) :
    (∃ t : Term Value, kind = t.kind ∧ args = t.args) ∨ ∃ a, kind = "pow" ∧ args = [a, .int 0] := by
  cases h with
  | add a b => exact .inl ⟨.add a b, rfl, rfl⟩
  | sub a b => exact .inl ⟨.sub a b, rfl, rfl⟩
  | mul a b => exact .inl ⟨.mul a b, rfl, rfl⟩
  | neg a => exact .inl ⟨.neg a, rfl, rfl⟩
  | pow a p =>
    cases p with
    | zero => exact .inr ⟨a, rfl, rfl⟩
    | succ p => exact .inl ⟨.pow a p, rfl, by simp [Term.args]⟩

/-- On whole numbers a call computes a whole number. -/
theorem Arithmetic.forward {kind : String} {args : List Value} {operation : Operation} {f : Value → Int}
    (h : Arithmetic kind args) (get : Registry.builtin.get kind = .ok operation)
    (constants : ∀ k, f (.int k) = k) :
    ∃ w : Int, operation.forward (args.map fun v => .int (f v)) [] = .ok (.int w) := by
  rcases h.term_or_power with ⟨t, rfl, rfl⟩ | ⟨a, rfl, rfl⟩
  · exact ⟨_, Term.forward get constants false⟩
  · obtain rfl : _ = operation := Except.ok.inj get
    refine ⟨f a ^ 0, ?_⟩
    simp only [List.map_cons, List.map_nil, constants]
    rfl

/-- A node among the arguments of a term is an operand. -/
theorem Term.lt_of_node {t : Term Value} {k : Nat} {m : NodeRef} (h : t.args[k]? = some (.node m)) :
    k < t.operands.length := by
  obtain ⟨bound, -⟩ := List.getElem?_eq_some_iff.mp h
  cases t with
  | pow a p =>
    cases k with
    | zero => exact Nat.one_pos
    | succ k =>
      obtain rfl : k = 0 := by
        simp only [Term.args, List.length_cons, List.length_nil] at bound
        omega
      cases h
  | _ => exact bound

/-- The whole number that an operand stands for. -/
def Schedule.numberOf (s : Schedule) (ws : Workspace) (val : Valuation) : Value → Int
  | .node m =>
    match val (s.slotFor ws m) with
    | .int k => k
    | _ => 0
  | .int k => k
  | _ => 0

theorem Schedule.numberOf_node {s : Schedule} {ws : Workspace} {val : Valuation} {m : NodeRef}
    (h : Whole (val (s.slotFor ws m))) : val (s.slotFor ws m) = .int (s.numberOf ws val (.node m)) := by
  obtain ⟨k, h⟩ := h
  simp only [numberOf, h]

/-- A whole number is the seed of the last terminal. -/
theorem Net.seedsAt_int (net : Net) (c : Int) (r : Slot) : net.seedsAt (.int c) r =
    (if net.schedule.terminals.getLast? = some r then [c] else []).map .int := by
  change (if net.schedule.terminals.getLast? = some r then [Value.int c] else []) = _
  split <;> rfl

/-- The derivative that a slot begins a backward pass with, if it had a whole number before the seed. -/
theorem Net.startAdjoint_whole {net : Net} (addition : net.table.addition = Value.add) {accumulate : Bool}
    {r : Slot} {k : Int} (begins : net.table.startDer accumulate r = .ok (.int k)) (c : Int) :
    net.startAdjoint accumulate (.int c) r =
      .ok (.int (k + if net.schedule.terminals.getLast? = some r then c else 0)) := by
  rw [Net.startAdjoint, begins, net.seedsAt_int]
  refine (Net.totalOf_whole addition _ k).trans ?_
  split <;> simp

/-- A positional argument that is a node is read. -/
theorem Instructs.reads_node {ws : Workspace} {registry : Registry} {marks : GradientMarks} {s : Schedule}
    {n m : NodeRef} {i : Instruction} (h : Instructs ws registry marks s n i)
    (arg : .node m ∈ (ws.node n).args) : s.slotFor ws m ∈ i.reads := by
  refine List.mem_append_left _ (List.mem_filterMap.mpr ⟨s.argOf ws (.node m), ?_, rfl⟩)
  rw [h.args]
  exact List.mem_map_of_mem arg

/-- What an instruction sends from the slopes of its term is whole numbers. -/
theorem Instructs.whole_entries {ws : Workspace} {registry : Registry} {marks : GradientMarks} {s : Schedule}
    {n : NodeRef} {i : Instruction} (instructs : Instructs ws registry marks s n i) {t : Term Value}
    (args : (ws.node n).args = t.args) {slopes : List Int} (length : slopes.length = t.operands.length)
    {d : Int} {more : List Value} (r : Slot) :
    ∀ p ∈ i.entriesFor (if d = 0 then [] else (slopes.map fun w => .int (d * w)) ++ more) r, Whole p.2 := by
  intro p hp
  obtain ⟨⟨k, slot⟩, among, entry⟩ := List.mem_filterMap.mp hp
  rw [instructs.gradientPositions, args] at among
  obtain ⟨m, arg, -, -⟩ := Schedule.mem_markedArgs.mp among
  dsimp only at entry
  split at entry
  next =>
    obtain ⟨x, found, rfl⟩ := Option.map_eq_some_iff.mp entry
    obtain ⟨found, -⟩ := Option.filter_eq_some_iff.mp found
    split at found
    next => simp at found
    next =>
      have bound : k < slopes.length := length ▸ t.lt_of_node arg
      rw [List.getElem?_append_left (by simpa using bound), List.getElem?_map] at found
      obtain ⟨w, -, rfl⟩ := Option.map_eq_some_iff.mp found
      exact ⟨d * w, rfl⟩
  next => cases entry

namespace Schedules

variable {ws : Workspace} {options : NetOptions} {terminals order : List NodeRef} {keep : List String}
  {id : Nat} {marks : GradientMarks} {n m : NodeRef} {i : Instruction} {net : Net} {val : Valuation}
  {pass : PassOptions}
variable (sched : Schedules ws options.registry terminals keep net.schedule id order marks)
  (arithmetic : ws.IsArithmetic options.registry terminals)
include sched

/-- A whole number is a seed for the last terminal. -/
theorem seedable_int (some : terminals ≠ []) (c : Int) : net.Seedable (.int c) := by
  change net.schedule.terminals ≠ []
  rwa [sched.compiled.terminalSlots, Ne, List.map_eq_nil_iff]

/-- The derivatives that a backward pass begins with are whole numbers. -/
theorem whole_starts (runs : Net.Runs net.schedule net) (addition : net.table.addition = Value.add)
    {accumulate : Bool} (before : accumulate = true → ∀ r, net.schedule.IsParam r →
      ∃ d, net.table.readDer r = .ok d ∧ Whole d) (c : Int) :
    ∀ r, net.schedule.HasSlot r → ∃ d, net.startAdjoint accumulate (.int c) r = .ok d ∧ Whole d := by
  rintro r ⟨info, mem, rfl⟩
  obtain ⟨d, begins, k, rfl⟩ : ∃ d, net.table.startDer accumulate info.index = .ok d ∧ Whole d := by
    unfold VariableTable.startDer
    split
    next kept =>
      rw [runs.persistentAt sched.wellFormed mem, sched.wellFormed.persistent info mem, Bool.and_eq_true,
        decide_eq_true_eq] at kept
      exact before kept.2 _ ⟨info, mem, rfl, kept.1⟩
    next => exact ⟨_, rfl, 0, rfl⟩
  exact ⟨_, Net.startAdjoint_whole addition begins c, _, rfl⟩

include arithmetic

/-- An instruction takes the whole numbers that its operands stand for. -/
theorem whole_arguments (hn : n ∈ order) (operation : (ws.node n).isOperation = true)
    (instructs : Instructs ws (ws.registryFor id options.registry) marks net.schedule n i)
    (whole : ∀ m, .node m ∈ (ws.node n).args → Whole (val (net.schedule.slotFor ws m))) :
    net.argumentsOf val i =
      .ok ((ws.node n).args.map fun v => .int (net.schedule.numberOf ws val v), []) := by
  have reaches := (sched.orders.mem_iff n).mp hn
  have operands := arithmetic.operands n reaches operation
  have kwargs := arithmetic.positional n reaches operation
  have constants : net.constantsOf i = .ok i.constants := by
    refine Net.constantsOf_of_still (by rw [instructs.kwargs, kwargs]; rfl) fun a ha => ?_
    rw [instructs.args] at ha
    obtain ⟨v, hv, rfl⟩ := List.mem_map.mp ha
    rcases operands v hv with ⟨m, rfl⟩ | ⟨k, rfl⟩ <;> rfl
  have read : ∀ v ∈ (ws.node n).args, (net.schedule.argOf ws v).value val
      (Net.constantOf (net.schedule.argOf ws v)) = .int (net.schedule.numberOf ws val v) := by
    intro v hv
    rcases operands v hv with ⟨m, rfl⟩ | ⟨k, rfl⟩
    · exact Schedule.numberOf_node (whole m hv)
    · rfl
  rw [Net.argumentsOf, constants]
  refine congrArg Except.ok ?_
  rw [instructs.arguments_eq, kwargs, List.map_congr_left read]
  rfl

/-- The operation of an instruction is the built-in one. -/
theorem builtin_operation (hn : n ∈ order) (operation : (ws.node n).isOperation = true)
    (instructs : Instructs ws (ws.registryFor id options.registry) marks net.schedule n i) :
    Registry.builtin.get (ws.node n).kind = .ok i.operation := by
  rw [← arithmetic.builtin n ((sched.orders.mem_iff n).mp hn) operation, sched.orders.graph n hn]
  exact instructs.operation

/-- An instruction that takes whole numbers has one result, a whole number. -/
theorem whole_result (hn : n ∈ order) (operation : (ws.node n).isOperation = true)
    (instructs : Instructs ws (ws.registryFor id options.registry) marks net.schedule n i)
    (hi : i ∈ net.schedule.forward) (forward : net.IsForward pass.inputs false val)
    (whole : ∀ m, .node m ∈ (ws.node n).args → Whole (val (net.schedule.slotFor ws m))) :
    ∃ o, i.outputs = [o] ∧ Whole (val o) := by
  obtain ⟨w, run⟩ := (arithmetic.calls n ((sched.orders.mem_iff n).mp hn) operation).forward
    (sched.builtin_operation arithmetic hn operation instructs)
    (f := net.schedule.numberOf ws val) fun _ => rfl
  have outputs := forward.instructions i hi
  unfold Net.outputsOf at outputs
  rw [sched.whole_arguments arithmetic hn operation instructs whole] at outputs
  obtain ⟨result, run', split⟩ := ok_of_bind (f := fun v => Net.splitOutputs i v) outputs
  cases run.symm.trans run'
  unfold Net.splitOutputs at split
  split at split
  next one =>
    obtain ⟨o, one⟩ := List.length_eq_one_iff.mp one
    rw [one] at split
    exact ⟨o, one, w, (List.singleton_inj.mp (Except.ok.inj split)).symm⟩
  next => cases split

/-- A forward pass that begins with whole numbers and succeeds has computed whole numbers. -/
theorem whole_forward (forward : net.IsForward pass.inputs false val)
    (leaves : ∀ r, net.schedule.IsLeaf r → Whole (net.boundValuation pass.inputs r)) :
    ∀ r, net.schedule.HasSlot r → Whole (val r) := by
  have wf := sched.wellFormed
  -- Along the forward list, by what is there before an instruction.
  have prefixes : ∀ pre post, net.schedule.forward = pre ++ post →
      ∀ r, net.schedule.IsLeaf r ∨ Written pre r → Whole (val r) := by
    intro pre
    induction pre using List.reverseRecOn with
    | nil =>
      rintro post - r (leaf | written)
      · rw [forward.leaves r leaf]
        exact leaves r leaf
      · simp at written
    | append_singleton pre i ih =>
      intro post split r available
      have split : net.schedule.forward = pre ++ i :: post := by simp [split]
      have before := ih (i :: post) split
      rw [written_append_singleton, ← or_assoc] at available
      rcases available with earlier | output
      · exact before r earlier
      · have hi : i ∈ net.schedule.forward := by simp [split]
        obtain ⟨n, hn, operation, instructs⟩ := sched.compiled.operation_of_instruction hi
        obtain ⟨o, outputs, whole⟩ := sched.whole_result arithmetic hn operation instructs hi forward
          fun m arg => before _ (wf.readsBefore _ _ _ split _ (instructs.reads_node arg))
        rw [outputs, List.mem_singleton] at output
        exact output ▸ whole
  exact fun r has => prefixes net.schedule.forward [] (by simp) r (wf.available has)

section
variable (whole : ∀ r, net.schedule.HasSlot r → Whole (val r)) (hn : n ∈ order)
  (operation : (ws.node n).isOperation = true) (hi : i ∈ net.schedule.forward)
  (instructs : Instructs ws (ws.registryFor id options.registry) marks net.schedule n i)
include whole hn operation hi instructs

/-- An instruction that applies a term sends its slopes times the derivative of its result, and nothing if
that is zero. -/
theorem whole_reaction {t : Term Value} (kind : (ws.node n).kind = t.kind) (args : (ws.node n).args = t.args)
    {o : Slot} (outputs : i.outputs = [o]) {adj : Cotangent} {d : Int} (adjoint : adj o = .ok (.int d)) :
    ∃ more, net.reaction val adj i = .ok (if d = 0 then [] else
      ((t.map (net.schedule.numberOf ws val)).slopes.map fun w => .int (d * w)) ++ more) := by
  have get := sched.builtin_operation arithmetic hn operation instructs
  rw [kind] at get
  have arguments := sched.whole_arguments arithmetic hn operation instructs fun m arg =>
    whole _ (sched.wellFormed.reads_hasSlot hi (instructs.reads_node arg))
  rw [args] at arguments
  exact Net.reaction_of_term get (fun _ => rfl) arguments outputs adjoint

/-- A power sends its exponent times the power before it times the derivative of its result to its base. -/
theorem whole_power {p : Nat} (kind : (ws.node n).kind = "pow") (args : (ws.node n).args = [.node m, .int p])
    (positive : p ≠ 0) (marked : marks.marked n = true) (marked' : marks.marked m = true)
    {o : Slot} (outputs : i.outputs = [o]) {adj : Cotangent} {d : Int} (adjoint : adj o = .ok (.int d)) :
    net.sent val adj i (net.schedule.slotFor ws m) = .ok (if d = 0 then [] else
      [(⟨i.index, 0⟩, .int (d * (p * net.schedule.numberOf ws val (.node m) ^ (p - 1))))]) := by
  obtain ⟨p, rfl⟩ := Nat.exists_eq_succ_of_ne_zero positive
  obtain ⟨more, reacts⟩ := sched.whole_reaction arithmetic whole hn operation hi instructs
    (t := .pow (.node m) p) kind (by simpa [Term.args] using args) outputs adjoint
  have positions : i.gradientPositions = [(0, net.schedule.slotFor ws m)] := by
    rw [instructs.gradientPositions, args]
    simp [Schedule.markedArgs, marked']
  rw [Net.sent_of_reaction (instructs.requiresGradient.trans marked) reacts, Instruction.entriesFor,
    positions]
  by_cases zero : d = 0
  · simp [Instruction.entries, zero]
  · simp [Instruction.entries, zero, Term.map, Term.slopes, Value.isNone]

/-- A power with exponent zero divides by zero where its base is zero. -/
theorem zeroth_power (kind : (ws.node n).kind = "pow") (args : (ws.node n).args = [.node m, .int 0])
    (zero : val (net.schedule.slotFor ws m) = .int 0) {o : Slot} (outputs : i.outputs = [o])
    {adj : Cotangent} {d : Int} (adjoint : adj o = .ok (.int d)) (some : d ≠ 0) :
    net.reaction val adj i = .error .divisionByZero := by
  have get := sched.builtin_operation arithmetic hn operation instructs
  rw [kind] at get
  have backward : i.operation.backward = .some Kernel.powBackward :=
    congrArg Operation.backward (Except.ok.inj get).symm
  have base : net.schedule.numberOf ws val (.node m) = 0 := by
    simp only [Schedule.numberOf, zero]
  have arguments : net.argumentsOf val i = .ok ([.int 0, .int 0], []) := by
    rw [sched.whole_arguments arithmetic hn operation instructs fun m arg =>
      whole _ (sched.wellFormed.reads_hasSlot hi (instructs.reads_node arg)), args, List.map_cons, base]
    rfl
  have failed : Kernel.powBackward [.int 0, .int 0, .int d] [] = .error .divisionByZero := rfl
  have douts : i.outputs.mapM adj = .ok [.int d] := by
    rw [outputs, List.mapM_cons, adjoint]
    rfl
  unfold Net.reaction
  refine (bind_eq_of_ok douts (if_pos (by simp [some, Value.isZero]))).trans ?_
  unfold Net.dersOf
  rw [arguments, backward]
  change (do return Net.derivativesOf (← Kernel.powBackward [.int 0, .int 0, .int d] [])) = _
  rw [failed]
  rfl

end

/-- A backward pass over whole numbers keeps to them, if no power that derivatives are passed through has
exponent zero. -/
theorem whole_sweeps (sound : ws.Sound) (addition : net.table.addition = Value.add)
    (forward : net.IsForward pass.inputs false val)
    (whole : ∀ r, net.schedule.HasSlot r → Whole (val r))
    (exponents : ∀ n a, ws.Reaches terminals n → ws.Differentiated n → (ws.node n).kind = "pow" →
      (ws.node n).args ≠ [a, .int 0]) :
    net.Sweeps val (fun _ => Whole) fun _ => Whole where
  total r d l held sent := by
    obtain ⟨k, rfl⟩ := held
    obtain ⟨ks, rfl⟩ : l ∈ Set.range (List.map Value.int) := by
      rw [Set.range_list_map]
      exact fun x hx => (sent x hx).imp fun _ => Eq.symm
    exact ⟨_, Net.totalOf_whole addition ks k, _, rfl⟩
  reacts i hi gradient adj held := by
    obtain ⟨n, hn, operation, instructs⟩ := sched.compiled.operation_of_instruction hi
    have reaches := (sched.orders.mem_iff n).mp hn
    have wanted : ws.Differentiated n := by
      rw [← sched.compiled.settles.marked_iff sound sched.orders hn, ← instructs.requiresGradient]
      exact gradient
    obtain ⟨o, outputs, -⟩ := sched.whole_result arithmetic hn operation instructs hi forward
      fun m arg => whole _ (sched.wellFormed.reads_hasSlot hi (instructs.reads_node arg))
    obtain ⟨_, adjoint, d, rfl⟩ := held o (by simp [outputs])
    rcases (arithmetic.calls n reaches operation).term_or_power with ⟨t, kind, args⟩ | ⟨a, kind, args⟩
    · obtain ⟨more, reacts⟩ := sched.whole_reaction arithmetic whole hn operation hi instructs kind args
        outputs adjoint
      refine ⟨_, reacts, instructs.whole_entries args ?_⟩
      rw [Term.length_slopes, Term.operands_map, List.length_map]
    · exact absurd args (exponents n a reaches wanted kind)

end Schedules

namespace Net

variable {ws : Workspace} {terminals : List Value} {options : NetOptions} {net : Net}

/-- A net is built for some terminal. -/
theorem Reached.terminalNodes_ne_nil (reached : Reached ws terminals options net) :
    terminalNodes terminals ≠ [] := by
  induction reached with
  | call _ _ ih => exact ih
  | built run =>
    obtain ⟨vs, verbose, s, now, spread', compiled, -⟩ := buildNet_steps run
    obtain ⟨id, nodes, checked⟩ := Workspace.checkTerminals_of_compile compiled
    obtain ⟨eq, -⟩ := checkTerminals_spec checked
    simp only [terminalNodes, spread', ← eq]
    exact checkTerminals_ne_nil checked

/-- A forward pass that succeeds could start, and computed values. -/
theorem values_of_forward (wf : net.schedule.WellFormed) (runs : Runs net.schedule net) (quiet : net.Quiet)
    {now : Workspace} {pass : PassOptions} (normal : pass.mode = "normal") {mid : Net}
    (half : Net.forward now pass net = .ok ⟨⟩ mid) :
    Ready now pass net ∧
      ∃ val, net.valuesAfter false (net.boundValuation pass.inputs) net.schedule.forward = .ok val := by
  obtain ⟨mode, last, after, -⟩ :=
    (leads_of_ok half).mp (leads_forwardPass wf runs (silent_notifyObservers now) quiet now pass)
  obtain rfl : Mode.normal = mode := by
    have named := after.named
    rw [normal] at named
    exact Except.ok.inj named
  obtain ⟨-, val, -, values, -⟩ := after.state
  rw [List.take_length] at values
  exact ⟨after.ready, val, values⟩

/-- The instruction of a power sends the derivative of its result, times the exponent and the power before
it, to the base. It sends nothing if that derivative is zero. -/
def SendsPower (net : Net) (ws : Workspace) (val : Valuation) (adj : Cotangent) (n m : NodeRef) (p : Nat) :
    Prop :=
  ∃ i ∈ net.schedule.backward, i.handle = n.handle ∧ ∃ (o : Slot) (a d : Int),
    i.outputs = [o] ∧ val (net.schedule.slotFor ws m) = .int a ∧ adj o = .ok (.int d) ∧
      net.sent val adj i (net.schedule.slotFor ws m) =
        .ok (if d = 0 then [] else [(⟨i.index, 0⟩, .int (d * (p * a ^ (p - 1))))])

/-- An evaluation of sums, differences, products, negatives and powers of whole numbers succeeds with every
whole number as seed if its forward half does, unless derivatives are passed through a power with exponent
zero. All that it computes is whole numbers, and powers send what their derivatives are. -/
theorem Reached.whole_backward (built : ws.Built) (exist : ∀ n ∈ terminalNodes terminals, ws.Exists n)
    (reached : Reached ws terminals options net) (quiet : net.Quiet)
    (arithmetic : ws.IsArithmetic options.registry (terminalNodes terminals))
    (exponents : ∀ n a, ws.Reaches (terminalNodes terminals) n → ws.Differentiated n →
      (ws.node n).kind = "pow" → (ws.node n).args ≠ [a, .int 0])
    (now : Workspace) (pass : PassOptions) (normal : pass.mode = "normal")
    (leaves : ∀ r, net.schedule.IsLeaf r → Whole (net.boundValuation pass.inputs r))
    (before : pass.accumulate = true → ∀ r, net.schedule.IsParam r →
      ∃ d, net.table.readDer r = .ok d ∧ Whole d)
    (mid : Net) (half : Net.forward now pass net = .ok ⟨⟩ mid) (c : Int) :
    ∃ net' val adj, Net.evaluate now pass (.int c) net = .ok ⟨⟩ net' ∧
      net.IsForward pass.inputs false val ∧
      net.IsAdjoint (net.startAdjoint pass.accumulate (.int c)) val adj ∧
      (∀ r, net.schedule.HasSlot r → Whole (val r) ∧ ∃ d, adj r = .ok d ∧ Whole d) ∧
      (∀ r, net.schedule.IsLeaf r ∨ net.schedule.IsRetained r →
        ∀ key, net'.slotOfKey key = .ok r → outcome (getDer key) net' = adj r) ∧
      ∀ n m p, ws.Reaches (terminalNodes terminals) n → (ws.node n).role = .operation →
        (ws.node n).kind = "pow" → (ws.node n).args = [.node m, .int (p : Nat)] → ws.Differentiated m →
          net.SendsPower ws val adj n m p := by
  obtain ⟨⟨id, order, marks, sched⟩, runs, idle, addition, -⟩ := reached.spec built exist
  have wf := sched.wellFormed
  have sound := built.sound
  obtain ⟨ready, val, values⟩ := values_of_forward wf runs quiet normal half
  have forward := isForward_of_valuesAfter wf runs values
  have whole := sched.whole_forward arithmetic forward leaves
  have sweeps := sched.whole_sweeps arithmetic sound addition forward whole exponents
  have starts := sched.whole_starts runs addition before c
  have seedable := sched.seedable_int reached.terminalNodes_ne_nil c
  have ends := leads_evaluatePass wf runs (silent_notifyObservers now) quiet now pass normal (.int c)
  cases run : Net.evaluate now pass (.int c) net with
  | error e net' =>
    have failed := (leads_of_error run).mp ends
    exact absurd failed (sweeps.not_failed wf normal idle ready seedable values starts)
  | ok _ net' =>
    obtain ⟨val', values', read⟩ := Evaluated.outcome_getDer wf ((leads_of_ok run).mp ends)
    obtain rfl : val = val' := Except.ok.inj (values.symm.trans values')
    have held := fun r has => sweeps.adjointAfter wf starts (List.Subset.refl _) (r := r) has
    refine ⟨net', val, _, rfl, forward, isAdjoint_adjointAfter wf rfl, fun r has => ⟨whole r has, held r has⟩,
      read, fun n m p reaches role kind args wanted => ?_⟩
    have operation := (Node.isOperation_iff _).mpr role
    have hn := (sched.orders.mem_iff n).mpr reaches
    have arg : .node m ∈ (ws.node n).args := by simp [args]
    have hm := sched.orders.input_mem hn (mem_inputs_of_arg arg)
    have wanted' : ws.Differentiated n := .argument arg wanted
    obtain ⟨i, hi, instructs⟩ := sched.compiled.instruction_of_operation hn operation
    obtain ⟨o, outputs, -⟩ := sched.whole_result arithmetic hn operation instructs hi forward
      fun m arg => whole _ (wf.reads_hasSlot hi (instructs.reads_node arg))
    obtain ⟨_, adjoint, d, rfl⟩ := held o (wf.outputs_hasSlot hi (by simp [outputs]))
    have marked := (sched.compiled.settles.marked_iff sound sched.orders hn).mpr wanted'
    have marked' := (sched.compiled.settles.marked_iff sound sched.orders hm).mpr wanted
    refine ⟨i, ?_, instructs.handle, o, _, d, outputs,
      Schedule.numberOf_node (whole _ (wf.reads_hasSlot hi (instructs.reads_node arg))), adjoint, ?_⟩
    · rw [sched.compiled.backward, List.mem_reverse, List.mem_filter]
      exact ⟨hi, instructs.requiresGradient.trans marked⟩
    · refine sched.whole_power arithmetic whole hn operation hi instructs kind args ?_ marked marked' outputs
        adjoint
      rintro rfl
      exact exponents n _ reaches wanted' kind args

end Net

/-! ### Powers of a parameter -/

namespace Sample

open Net

/-- The graph of a power of a parameter `p`. -/
def powered (value : Int) (exponent : Nat) : Workspace :=
  let ws := ({} : Workspace).addGraph.1
  match (ws.graph 0).param (.int value) (some "p") (.int 1) (.int 1) "gradient" false with
  | .ok (g, _) => recorded (ws.setGraph g) "pow" [.node ⟨0, 0⟩, .int exponent]
  | .error _ => ws

theorem powered_built (value : Int) (exponent : Nat) : (powered value exponent).Built := by
  have start := (Workspace.Built.empty).addGraph
  unfold powered
  dsimp only
  split
  next call =>
    refine recorded_built (start.param call) fun n mem => ?_
    obtain rfl : n = ⟨0, 0⟩ := by simpa using mem
    cases call
    exact ⟨_, rfl, Nat.one_pos⟩
  next => exact start

theorem powered_exist (value : Int) (exponent : Nat) :
    ∀ n ∈ terminalNodes [.node ⟨0, 1⟩], (powered value exponent).Exists n := by
  intro n mem
  obtain rfl : n = ⟨0, 1⟩ := by simpa [terminalNodes, spread, nodesIn, Value.node?] using mem
  exact ⟨_, rfl, Nat.one_lt_two⟩

/-- A power depends on itself and its parameter. -/
theorem mem_of_powered {value : Int} {exponent : Nat} {n : NodeRef}
    (reaches : (powered value exponent).Reaches (terminalNodes [.node ⟨0, 1⟩]) n) :
    n = ⟨0, 0⟩ ∨ n = ⟨0, 1⟩ := by
  induction reaches with
  | @root n mem =>
    refine .inr ?_
    simpa [terminalNodes, spread, nodesIn, Value.node?] using mem
  | @input n m _ input among =>
    rcases among with rfl | rfl
    · have none : (powered value exponent).inputs ⟨0, 0⟩ = [] := rfl
      simp [none] at input
    · have one : (powered value exponent).inputs ⟨0, 1⟩ = [⟨0, 0⟩] := rfl
      exact .inl (by simpa [one] using input)

theorem powered_arithmetic (value : Int) (exponent : Nat) :
    (powered value exponent).IsArithmetic options.registry (terminalNodes [.node ⟨0, 1⟩]) where
  calls n reaches operation := by
    rcases mem_of_powered reaches with rfl | rfl
    · cases operation
    · exact .pow (.node ⟨0, 0⟩) exponent
  operands n reaches operation v hv := by
    rcases mem_of_powered reaches with rfl | rfl
    · cases operation
    · have args : ((powered value exponent).node ⟨0, 1⟩).args = [.node ⟨0, 0⟩, .int exponent] := rfl
      rw [args] at hv
      simp only [List.mem_cons, List.not_mem_nil, or_false] at hv
      exact hv.imp (fun h => ⟨_, h⟩) fun h => ⟨_, h⟩
  positional n reaches operation := by
    rcases mem_of_powered reaches with rfl | rfl
    · cases operation
    · rfl
  builtin n reaches operation := by
    rcases mem_of_powered reaches with rfl | rfl
    · cases operation
    · rfl
end Sample

namespace Net

/-- The derivative of the square of 3, with 7 as seed. -/
theorem whole_backward_squared : ∃ now net net' val adj,
    Reached (Sample.powered 3 2) [.node ⟨0, 1⟩] Sample.options net ∧
      Net.evaluate now {} (.int 7) net = .ok ⟨⟩ net' ∧
      net.IsAdjoint (net.startAdjoint false (.int 7)) val adj ∧
      net.SendsPower (Sample.powered 3 2) val adj ⟨0, 1⟩ ⟨0, 0⟩ 2 := by
  have check : (Sample.powered 3 2).builds [.node ⟨0, 1⟩] Sample.options (fun now net =>
      !net.observed && net.succeeds (Net.forward now {}) (fun _ => true) &&
        net.schedule.slots.all fun info =>
          decide (info.kind = .op) || isWhole 3 (net.boundValuation [] info.index)) = true := by cbv
  obtain ⟨now, net, reached, check⟩ := Reached.of_builds check
  simp only [Bool.and_eq_true, Bool.not_eq_true', List.all_eq_true, Bool.or_eq_true,
    decide_eq_true_eq] at check
  obtain ⟨⟨alone, half⟩, three⟩ := check
  obtain ⟨mid, half, -⟩ := succeeds_iff.mp half
  have leaves : ∀ r, net.schedule.IsLeaf r → Whole (net.boundValuation [] r) := by
    rintro r ⟨info, mem, rfl, leaf⟩
    exact ⟨3, eq_of_isWhole ((three info mem).resolve_left leaf)⟩
  have exponents : ∀ n a, (Sample.powered 3 2).Reaches (terminalNodes [.node ⟨0, 1⟩]) n →
      (Sample.powered 3 2).Differentiated n → ((Sample.powered 3 2).node n).kind = "pow" →
      ((Sample.powered 3 2).node n).args ≠ [a, .int 0] := by
    intro n a reaches _ _ args
    rcases Sample.mem_of_powered reaches with rfl | rfl <;> cases args
  obtain ⟨net', val, adj, run, -, adjoint, -, -, powers⟩ := reached.whole_backward
    (Sample.powered_built 3 2) (Sample.powered_exist 3 2)
    (fun observed => by rw [alone] at observed; cases observed) (Sample.powered_arithmetic 3 2) exponents now
    {} rfl leaves (fun on => by cases on) mid half 7
  exact ⟨now, net, net', val, adj, reached, run, adjoint,
    powers ⟨0, 1⟩ ⟨0, 0⟩ 2 (.root (List.mem_singleton.mpr rfl)) rfl rfl rfl (.param rfl)⟩

/-- An evaluation in which only one instruction passes derivatives on fails if this one does. -/
theorem evaluate_error_of_only (wf : net.schedule.WellFormed) (runs : Runs net.schedule net) (idle : net.Idle)
    (quiet : net.Quiet) {now : Workspace} {pass : PassOptions} (normal : pass.mode = "normal")
    (ready : Ready now pass net) {seed : Value} (seedable : net.Seedable seed) {val : Valuation}
    (values : net.valuesAfter false (net.boundValuation pass.inputs) net.schedule.forward = .ok val)
    (starts : ∀ r, net.schedule.HasSlot r → ∃ d, net.startAdjoint pass.accumulate seed r = .ok d)
    {i : Instruction} (only : net.schedule.forward.filter (·.requiresGradient) = [i]) {e : Error}
    (failed : net.reaction val (net.adjointAfter (net.startAdjoint pass.accumulate seed) val []) i =
      .error e) :
    ∃ net', Net.evaluate now pass seed net = .error e net' := by
  have ends := leads_evaluatePass wf runs (silent_notifyObservers now) quiet now pass normal seed
  cases run : Net.evaluate now pass seed net with
  | ok _ net' =>
    obtain ⟨val', last, values', returned, -⟩ := (leads_of_ok run).mp ends
    obtain rfl : val = val' := Except.ok.inj (values.symm.trans values')
    obtain ⟨ders, reacts⟩ := returned.reacts i [] (by rw [only])
    cases failed.symm.trans reacts
  | error e' net' =>
    cases (leads_of_error run).mp ends with
    | forward stopped => exact absurd stopped (not_stopped normal idle ready values)
    | seeds bad => exact absurd seedable bad
    | start has failed =>
      obtain ⟨d, begun⟩ := starts _ has
      cases begun.symm.trans failed
    | backward values' failed' =>
      cases values.symm.trans values'
      obtain ⟨done, j, rest, split, failed'⟩ := failed'
      rw [wf.backwardList, only, List.reverse_singleton, eq_comm, List.append_eq_singleton_iff] at split
      obtain ⟨none, one⟩ | ⟨-, none⟩ := split
      · obtain ⟨rfl, rfl⟩ := List.cons.inj one
        rw [List.reverse_eq_nil_iff.mp none] at failed'
        obtain rfl := Except.error.inj (failed.symm.trans failed')
        exact ⟨net', rfl⟩
      · cases none

/-- The power of 0 with exponent zero has a value, and its derivative divides by zero. -/
theorem whole_backward_zeroth : ∃ now net mid net',
    Reached (Sample.powered 0 0) [.node ⟨0, 1⟩] Sample.options net ∧
      Net.forward now {} net = .ok ⟨⟩ mid ∧
      Net.evaluate now {} (.int 1) net = .error .divisionByZero net' := by
  have check : (Sample.powered 0 0).builds [.node ⟨0, 1⟩] Sample.options (fun now net =>
      !net.observed && net.succeeds (Net.forward now {}) (fun _ => true) &&
        net.schedule.slots.map (fun info => (info.index, decide (info.kind = .op))) ==
          [(0, false), (1, true)] &&
        isWhole 0 (net.boundValuation [] 0) && net.schedule.slotFor (Sample.powered 0 0) ⟨0, 0⟩ == 0 &&
        net.schedule.terminals == [1] &&
        net.schedule.forward.map (fun i => (i.outputs, i.requiresGradient)) == [([1], true)]) = true := by cbv
  obtain ⟨now, net, reached, check⟩ := Reached.of_builds check
  simp only [Bool.and_eq_true, Bool.not_eq_true', beq_iff_eq] at check
  obtain ⟨⟨⟨⟨⟨⟨alone, half⟩, slots⟩, zero⟩, base⟩, last⟩, only⟩ := check
  obtain ⟨mid, half, -⟩ := succeeds_iff.mp half
  have quiet : net.Quiet := fun observed => by rw [alone] at observed; cases observed
  have arithmetic := Sample.powered_arithmetic 0 0
  obtain ⟨⟨id, order, marks, sched⟩, runs, idle, addition, -⟩ :=
    reached.spec (Sample.powered_built 0 0) (Sample.powered_exist 0 0)
  have wf := sched.wellFormed
  have leaf : net.schedule.IsLeaf 0 := by
    have mem : (0, false) ∈ net.schedule.slots.map fun info => (info.index, decide (info.kind = .op)) := by
      rw [slots]
      exact List.mem_cons_self
    obtain ⟨info, mem, fields⟩ := List.mem_map.mp mem
    simp only [Prod.mk.injEq, decide_eq_false_iff_not] at fields
    exact ⟨info, mem, fields⟩
  have leaves : ∀ r, net.schedule.IsLeaf r → net.boundValuation [] r = .int 0 := by
    rintro r ⟨info, mem, rfl, kind⟩
    have among := List.mem_map_of_mem (f := fun info => (info.index, decide (info.kind = .op))) mem
    rw [slots] at among
    simp only [kind, List.mem_cons, Prod.mk.injEq, List.not_mem_nil, or_false, decide_false, and_true,
      Bool.false_eq_true, and_false] at among
    rw [among]
    exact eq_of_isWhole zero
  have normal : ({} : PassOptions).mode = "normal" := rfl
  obtain ⟨ready, val, values⟩ := values_of_forward wf runs quiet normal half
  have forward := isForward_of_valuesAfter wf runs values
  have whole := sched.whole_forward arithmetic forward fun r leaf => ⟨0, leaves r leaf⟩
  have starts : ∀ r, net.schedule.HasSlot r → ∃ d, net.startAdjoint false (.int 1) r = .ok d ∧ Whole d :=
    sched.whole_starts runs addition (fun on => by cases on) 1
  -- The power has the only instruction.
  obtain ⟨i, only, fields⟩ := List.map_eq_singleton_iff.mp only
  simp only [Prod.mk.injEq] at fields
  obtain ⟨outputs, gradient⟩ := fields
  have hn : ⟨0, 1⟩ ∈ order := sched.orders.root_mem (List.mem_singleton.mpr rfl)
  obtain ⟨j, hj, instructs⟩ := sched.compiled.instruction_of_operation hn rfl
  obtain rfl : j = i := List.mem_singleton.mp (only ▸ hj)
  have alone : net.schedule.forward.filter (·.requiresGradient) = [j] := by
    rw [only, List.filter_singleton, gradient]
    rfl
  have begun : net.adjointAfter (net.startAdjoint false (.int 1)) val [] 1 = .ok (.int 1) := by
    have begins : net.table.startDer false 1 = .ok (.int 0) := by simp [VariableTable.startDer]
    have seeded := startAdjoint_whole addition begins 1
    rw [last] at seeded
    exact congrArg (fun d => d >>= fun d => net.totalOf d []) seeded
  have base : val (net.schedule.slotFor (Sample.powered 0 0) ⟨0, 0⟩) = .int 0 := by
    rw [base, forward.leaves 0 leaf]
    exact leaves 0 leaf
  have failed :=
    sched.zeroth_power arithmetic whole hn rfl hj instructs rfl rfl base outputs begun one_ne_zero
  obtain ⟨net', run⟩ := evaluate_error_of_only wf runs idle quiet normal ready
    (sched.seedable_int (List.cons_ne_nil _ _) 1) values
    (fun r has => (starts r has).imp fun _ h => h.1) alone failed
  exact ⟨now, net, mid, net', reached, half, run⟩

end Net

end Backprop
