import Mathlib
import Backprop.Proofs.Derivatives
import Backprop.Proofs.Responses
import Backprop.Proofs.Sweep
/-!
# Shapes of derivatives in a backward pass

* `Net.Shaped` says what a slot may have got: nothing, a derivative in the shape of its value, or, where the
  seed goes, one without axes. Adding derivatives keeps it (`Shaped.totalOf`).
* `Net.Responds` says that an instruction takes such derivatives; then it sends derivatives in the shapes of
  its arguments (`Responds.reaction`), and so does the whole backward pass (`sweeps_shaped`).
* `Net.Reached.scalar_seed`: from a plain number, every parameter gets a derivative in its shape or none.
-/

namespace Backprop

namespace Net

open Kernel

variable {s : Schedule} {net : Net} {val : Valuation} {q r : Slot} {i : Instruction} {d : Value}
  {start : Cotangent} {inputs : Keywords}

/-- What has reached a slot: nothing, a derivative in the shape of its value, or at the slot `q` one without
axes. -/
def Shaped (val : Valuation) (q r : Slot) (d : Value) : Prop :=
  d = .int 0 ∨ ∃ D, d.Varies D ∧ (D = (val r).shape ∨ D = [] ∧ r = q)

/-- A derivative that may be there is added to what has reached a slot. -/
theorem Shaped.accumulated (addition : net.table.addition = Value.add) {total : Value} {E : Shape}
    (h : Shaped val q r total) (hd : d.Varies E) (shape' : E = (val r).shape ∨ E = [] ∧ r = q) :
    ∃ t, VariableTable.accumulated net.table.addition total d = .ok t ∧ Shaped val q r t := by
  unfold VariableTable.accumulated
  rw [addition]
  rcases h with rfl | ⟨D, varies, shape⟩
  · exact ⟨d, rfl, .inr ⟨E, hd, shape'⟩⟩
  · have fits : ∃ F, Shape.broadcast? D E = some F ∧ (F = (val r).shape ∨ F = [] ∧ r = q) := by
      rcases shape with rfl | ⟨rfl, -⟩
      · have stretch : Shape.Stretches E (val r).shape := by
          rcases shape' with rfl | ⟨rfl, -⟩
          · exact .refl _
          · exact .nil _
        exact ⟨_, stretch.broadcast?.2, .inl rfl⟩
      · exact ⟨E, (Shape.Stretches.nil E).broadcast?.1, shape'⟩
    obtain ⟨F, fits, result⟩ := fits
    obtain ⟨y, factor, -, rfl⟩ := hd.factor
    obtain ⟨t, sum, ht⟩ := Operator.floats_add.apply_varies varies factor fits
    rw [varies.isZero, if_neg Bool.false_ne_true]
    exact ⟨t, sum, .inr ⟨F, ht, result⟩⟩

theorem Shaped.totalOf (addition : net.table.addition = Value.add) : ∀ {l : List Value} {total : Value},
    Shaped val q r total → (∀ d ∈ l, d.Varies (val r).shape) →
      ∃ t, net.totalOf total l = .ok t ∧ Shaped val q r t := by
  intro l
  induction l with
  | nil => exact fun h _ => ⟨_, rfl, h⟩
  | cons d l ih =>
    intro total h each
    obtain ⟨hd, each⟩ := List.forall_mem_cons.mp each
    obtain ⟨t, first, ht⟩ := h.accumulated addition hd (.inl rfl)
    obtain ⟨t', rest, ht'⟩ := ih ht each
    exact ⟨t', by rw [Net.totalOf, List.foldlM_cons, first]; exact rest, ht'⟩

/-- The derivatives of an instruction's result that it takes are those in the shape of the result, and at
the slot `q` those without axes. -/
def Responds (net : Net) (val : Valuation) (q : Slot) (i : Instruction) : Prop :=
  ∃ args kw o, net.argumentsOf val i = .ok (args, kw) ∧ i.outputs = [o] ∧
    Takes (val o) (val o).shape i.operation args kw ∧ (o = q → Takes (val o) [] i.operation args kw)

/-- The result of an instruction of one output is what its slot holds. -/
theorem IsForward.result (h : net.IsForward inputs false val) (hi : i ∈ net.schedule.forward)
    {args : List Value} {kw : Keywords} {o : Slot} (arguments : net.argumentsOf val i = .ok (args, kw))
    (one : i.outputs = [o]) : i.operation.forward args kw = .ok (val o) := by
  have outputs := h.instructions i hi
  unfold outputsOf at outputs
  rw [arguments, one] at outputs
  obtain ⟨result, run, split⟩ := ok_of_bind (f := fun v => splitOutputs i v) outputs
  simp only [splitOutputs, one, List.length_singleton, if_true] at split
  cases split
  exact run

/-- What an instruction of one output computes. -/
theorem outputsOf_of_forward {args : List Value} {kw : Keywords} {o : Slot} {v : Value}
    (arguments : net.argumentsOf val i = .ok (args, kw)) (one : i.outputs = [o])
    (run : i.operation.forward args kw = .ok v) : net.outputsOf false val i = .ok [v] := by
  unfold outputsOf
  rw [arguments]
  refine bind_eq_of_ok rfl (bind_eq_of_ok run ?_)
  simp only [splitOutputs, one, List.length_singleton, if_true]

/-- An argument whose derivative is accumulated is the value of its slot. -/
theorem argument_of_slot {args : List Value} {kw : Keywords}
    (arguments : net.argumentsOf val i = .ok (args, kw)) {k : Nat} {v : Value}
    (arg : i.args[k]? = some (.slot r)) (found : args[k]? = some v) : v = val r := by
  obtain ⟨c, -, same⟩ := ok_of_bind arguments
  cases same
  simp only [List.getElem?_map, List.getElem?_zip_eq_some, Option.map_eq_some_iff]
    at found
  obtain ⟨⟨a, x⟩, ⟨here, -⟩, rfl⟩ := found
  cases arg.symm.trans here
  rfl

/-- What is sent from the derivatives of all arguments. -/
theorem entriesFor_varies (wf : net.schedule.WellFormed) (hi : i ∈ net.schedule.forward)
    {args ders : List Value} {kw : Keywords} (arguments : net.argumentsOf val i = .ok (args, kw))
    (answers : List.Forall₂ Value.Answers args ders) :
    ∀ p ∈ i.entriesFor ders r, p.2.Varies (val r).shape := by
  intro p hp
  obtain ⟨⟨k, slot⟩, among, entry⟩ := List.mem_filterMap.mp hp
  dsimp only at entry
  split at entry
  next same =>
    subst same
    obtain ⟨d, found, rfl⟩ := Option.map_eq_some_iff.mp entry
    obtain ⟨found, some⟩ := Option.filter_eq_some_iff.mp found
    obtain ⟨bound, rfl⟩ := List.getElem?_eq_some_iff.mp found
    have bound' : k < args.length := answers.length_eq ▸ bound
    have answer := answers.get bound' bound
    have here := argument_of_slot arguments (wf.gradientArgs i hi _ among)
      (List.getElem?_eq_getElem bound')
    rcases answer with none | varies
    · rw [show ders[k] = .none from none] at some
      cases some
    · exact here ▸ varies
  next => cases entry

/-- An instruction sends derivatives in the shapes of its arguments. -/
theorem Responds.reaction (responds : Responds net val q i) (wf : net.schedule.WellFormed)
    (forward : net.IsForward inputs false val) (hi : i ∈ net.schedule.forward) {adj : Cotangent}
    (shaped : ∀ o ∈ i.outputs, ∃ d, adj o = .ok d ∧ Shaped val q o d) :
    ∃ ders, net.reaction val adj i = .ok ders ∧
      ∀ r, ∀ p ∈ i.entriesFor ders r, p.2.Varies (val r).shape := by
  obtain ⟨args, kw, o, arguments, one, takes, takes'⟩ := responds
  obtain ⟨d, adjoint, shape⟩ := shaped o (by simp [one])
  have douts : i.outputs.mapM adj = .ok [d] := by
    rw [one, List.mapM_cons, adjoint]
    rfl
  unfold Net.reaction
  rw [douts]
  rcases shape with rfl | ⟨D, varies, shape⟩
  · refine ⟨[], rfl, fun r p hp => ?_⟩
    simp [Instruction.entriesFor, Instruction.entries] at hp
  · have counts : ([d].any fun d => !d.isZero) = true := by simp [varies.isZero]
    have takes'' : Takes (val o) D i.operation args kw := by
      rcases shape with rfl | ⟨rfl, same⟩
      · exact takes
      · exact takes' same
    obtain ⟨b, backward, ders, run, answers⟩ := takes''.returns (forward.result hi arguments one) varies
    refine ⟨ders, ?_, fun r => entriesFor_varies wf hi arguments answers⟩
    refine (if_pos counts).trans ?_
    unfold dersOf
    rw [arguments, backward]
    exact bind_eq_of_ok rfl (bind_eq_of_ok rfl (bind_eq_of_ok run rfl))

section
variable (wf : net.schedule.WellFormed) (addition : net.table.addition = Value.add)
  (forward : net.IsForward inputs false val)
  (responds : ∀ i ∈ net.schedule.forward, i.requiresGradient = true → Responds net val q i)
  (starts : ∀ r, net.schedule.HasSlot r → ∃ d, start r = .ok d ∧ Shaped val q r d)

omit starts in
include wf addition forward responds in
/-- So does the whole backward pass. -/
theorem sweeps_shaped : Sweeps net val (fun r d => d.Varies (val r).shape) (Shaped val q) where
  total _ _ _ held sent := held.totalOf addition sent
  reacts i hi gradient _ held := (responds i hi gradient).reaction wf forward hi held

include wf addition forward responds starts

/-- What has reached a slot once a list of instructions has sent its derivatives. -/
theorem adjointAfter_shaped {l : List Instruction} (sub : l ⊆ net.schedule.forward)
    (has : net.schedule.HasSlot r) :
    ∃ d, net.adjointAfter start val l r = .ok d ∧ Shaped val q r d :=
  (sweeps_shaped wf addition forward responds).adjointAfter wf starts sub has

/-- No instruction of the backward pass fails. -/
theorem reaction_of_split {done rest : List Instruction}
    (split : net.schedule.backward = done.reverse ++ i :: rest) :
    ∃ ders, net.reaction val (net.adjointAfter start val done) i = .ok ders :=
  (sweeps_shaped wf addition forward responds).reaction_of_split wf starts split

end

/-! ### Seeds without axes -/

section
variable {pass : PassOptions} {seed : Value} {x : Float}
  (wf : net.schedule.WellFormed) (runs : Runs net.schedule net) (addition : net.table.addition = Value.add)
  (plain : net.seedOf seed = .float x) (last : net.schedule.terminals.getLast? = some q)
  (before : pass.accumulate = true → ∀ r, net.schedule.IsParam r → ∃ d, net.table.readDer r = .ok d ∧
    (d = .int 0 ∨ d.Varies (val r).shape))
include wf runs addition plain last before

/-- A plain number as seed reaches the last terminal. -/
theorem startAdjoint_shaped (has : net.schedule.HasSlot r) :
    ∃ d, net.startAdjoint pass.accumulate seed r = .ok d ∧ Shaped val q r d := by
  have first : ∃ d, net.table.startDer pass.accumulate r = .ok d ∧ (d = .int 0 ∨ d.Varies (val r).shape) := by
    obtain ⟨info, mem, rfl⟩ := has
    unfold VariableTable.startDer
    rw [runs.persistentAt wf mem, wf.persistent info mem]
    split
    next both =>
      simp only [Bool.and_eq_true, decide_eq_true_eq] at both
      exact before both.2 _ ⟨info, mem, rfl, both.1⟩
    next => exact ⟨_, rfl, .inl rfl⟩
  have seeds : net.seedsAt seed r = if q = r then [.float x] else [] := by
    unfold seedsAt
    rw [plain, last]
    simp only [Option.some.injEq]
  obtain ⟨d, starts, hd⟩ := first
  unfold startAdjoint
  rw [starts, seeds]
  by_cases here : q = r
  · subst here
    have begun : Shaped val q q d := hd.imp_right fun varies => ⟨_, varies, .inl rfl⟩
    obtain ⟨t, sum, ht⟩ := begun.accumulated addition (.real x rfl rfl) (.inr ⟨rfl, rfl⟩)
    rw [if_pos rfl]
    exact ⟨t, (totalOf_singleton ..).trans sum, ht⟩
  · rw [if_neg here]
    exact ⟨d, rfl, hd.imp_right fun varies => ⟨_, varies, .inl rfl⟩⟩

end

theorem Reached.forward_ok {ws : Workspace} {terminals : List Value} {options : NetOptions}
    {now : Workspace} {pass : PassOptions} (built : ws.Built)
    (exist : ∀ n ∈ terminalNodes terminals, ws.Exists n) (reached : Reached ws terminals options net)
    (quiet : net.Quiet) (ready : Ready now pass net) (normal : pass.mode = "normal")
    (values : net.valuesAfter false (net.boundValuation pass.inputs) net.schedule.forward = .ok val) :
    ∃ mid, Net.forward now pass net = .ok ⟨⟩ mid := by
  obtain ⟨⟨id, order, marks, sched⟩, runs, idle, -⟩ := reached.spec built exist
  have ends := leads_forwardPass sched.wellFormed runs (silent_notifyObservers now) quiet now pass
  cases outcome : Net.forward now pass net with
  | ok _ mid => exact ⟨mid, rfl⟩
  | error e mid => exact absurd ((leads_of_error outcome).mp ends) (not_stopped normal idle ready values)

/-- A normal evaluation whose seed is a plain number succeeds whenever its forward pass does, and leaves at
every parameter no derivative or one in exactly the shape of its value, if the backward kernels take
derivatives in the shapes of the results, the one of the last terminal also one without axes. -/
theorem Reached.scalar_seed {ws : Workspace} {terminals : List Value} {options : NetOptions}
    (built : ws.Built) (exist : ∀ n ∈ terminalNodes terminals, ws.Exists n)
    (reached : Reached ws terminals options net) (quiet : net.Quiet) (now : Workspace)
    (pass : PassOptions) (normal : pass.mode = "normal") {seed : Value} {x : Float}
    (plain : net.seedOf seed = .float x) {q : Slot}
    (last : net.schedule.terminals.getLast? = some q) {mid : Net}
    (run : Net.forward now pass net = .ok ⟨⟩ mid) (val : Valuation)
    (values : net.valuesAfter false (net.boundValuation pass.inputs) net.schedule.forward = .ok val)
    (responds : ∀ i ∈ net.schedule.forward, i.requiresGradient = true → Responds net val q i)
    (flat : net.schedule.IsParam q → (val q).shape = [])
    (before : pass.accumulate = true → ∀ r, net.schedule.IsParam r → ∃ d, net.table.readDer r = .ok d ∧
      (d = .int 0 ∨ d.Varies (val r).shape)) :
    ∃ net', Net.evaluate now pass seed net = .ok ⟨⟩ net' ∧
      ∀ r, net.schedule.IsParam r → ∀ key, net'.slotOfKey key = .ok r →
        ∃ d, outcome (getDer key) net' = .ok d ∧ (d = .int 0 ∨ d.shape = (val r).shape) := by
  obtain ⟨⟨id, order, marks, sched⟩, runs, idle, addition, -⟩ := reached.spec built exist
  have wf := sched.wellFormed
  have silent := silent_notifyObservers now
  obtain ⟨mode, final, after, -⟩ := (leads_of_ok run).mp (leads_forwardPass wf runs silent quiet now pass)
  have forward := isForward_of_valuesAfter wf runs values
  have starts : ∀ r, net.schedule.HasSlot r →
      ∃ d, net.startAdjoint pass.accumulate seed r = .ok d ∧ Shaped val q r d :=
    fun r has => startAdjoint_shaped wf runs addition plain last before has
  have ends := leads_evaluatePass wf runs silent quiet now pass normal seed
  cases outcome : Net.evaluate now pass seed net with
  | ok _ net' =>
    refine ⟨net', rfl, fun r param key slot => ?_⟩
    obtain ⟨info, mem, rfl, kind⟩ := param
    obtain ⟨val', values', read⟩ := Evaluated.outcome_getDer wf ((leads_of_ok outcome).mp ends)
    cases values.symm.trans values'
    obtain ⟨d, adjoint, shaped⟩ := adjointAfter_shaped wf addition forward responds starts
      (List.Subset.refl _) ⟨info, mem, rfl⟩
    rw [read _ (.inl ⟨info, mem, rfl, by simp [kind]⟩) key slot]
    refine ⟨d, adjoint, shaped.imp_right ?_⟩
    rintro ⟨D, varies, rfl | ⟨rfl, here⟩⟩
    · exact varies.shape
    · subst here
      exact varies.shape.trans (flat ⟨info, mem, rfl, kind⟩).symm
  | error e net' =>
    exfalso
    cases (leads_of_error outcome).mp ends with
    | forward stopped => exact not_stopped normal after.idle after.ready values stopped
    | seeds bad =>
      refine bad ?_
      unfold Seedable
      rw [plain]
      intro none
      rw [none] at last
      cases last
    | start has failed =>
      obtain ⟨d, begun, -⟩ := starts _ has
      cases begun.symm.trans failed
    | backward values' failed =>
      cases values.symm.trans values'
      obtain ⟨done, i, rest, split, failed⟩ := failed
      obtain ⟨ders, reacts⟩ := reaction_of_split wf addition forward responds starts split
      cases reacts.symm.trans failed

end Net

/-! ### A column and its transpose -/

namespace Sample

open Net Kernel

/-- A column of doubles. -/
def column (x y : Float) : TypedArray := ⟨.float64, [2, 1], #[x, y], rfl⟩

def row (x y : Float) : TypedArray := ⟨.float64, [1, 2], #[x, y], rfl⟩

/-- A workspace with a call recorded in its first graph, if that can be. -/
def recorded (ws : Workspace) (kind : String) (args : List Value) : Workspace :=
  match ws.applyIn 0 kind args [] with
  | .ok (ws, _) => ws
  | .error _ => ws

/-- The graph of a parameter `p` that is a column, and its transpose. -/
def turned (x y : Float) : Workspace :=
  let ws := ({} : Workspace).addGraph.1
  match (ws.graph 0).param (.array (column x y)) (some "p") (.int 1) (.int 1) "gradient" false with
  | .ok (g, _) => recorded (ws.setGraph g) "transpose" [.node ⟨0, 0⟩]
  | .error _ => ws

/-- The graph of `p.T * p + p`. -/
def stretched (x y : Float) : Workspace :=
  recorded (recorded (turned x y) "mul" [.node ⟨0, 1⟩, .node ⟨0, 0⟩]) "add" [.node ⟨0, 2⟩, .node ⟨0, 0⟩]

/-- The seed is a plain number. -/
def seeded (z : Float) : NetOptions := { config := { defaultSeed := .float z } }

/-- The instructions that compute `p.T * p + p`. -/
def steps : List Instruction := [
  { index := 0, handle := 1, name := "transpose1", args := [.slot 0], kwargs := [], outputs := [1],
    operation := differentiated "transpose" transposeForward transposeBackward,
    gradientPositions := [(0, 0)], requiresGradient := true },
  { index := 1, handle := 2, name := "mul1", args := [.slot 1, .slot 0], kwargs := [], outputs := [2],
    operation := differentiated "mul" mulForward mulBackward,
    gradientPositions := [(0, 1), (1, 0)], requiresGradient := true },
  { index := 2, handle := 3, name := "add1", args := [.slot 2, .slot 0], kwargs := [], outputs := [3],
    operation := differentiated "add" addForward addBackward,
    gradientPositions := [(0, 2), (1, 0)], requiresGradient := true }]

/-- A net that computes `p.T * p + p`. -/
def IsStretched (x y z : Float) (now : Workspace) (net : Net) : Prop :=
  net.schedule.forward = steps ∧ net.schedule.terminals = [3] ∧ net.schedule.inputSlots = [] ∧
    net.boundValuation [] 0 = .array (column x y) ∧ net.config.defaultSeed = .float z ∧
    net.observed = false ∧ (net.compiledNames.all fun p => now.name p.1 == p.2) = true

variable {x y z : Float} {ws now : Workspace} {net : Net}

theorem recorded_built {kind : String} {args : List Value} (built : ws.Built)
    (exist : ∀ n, .node n ∈ args → ws.Exists n) : (recorded ws kind args).Built := by
  unfold recorded
  split
  next call => exact built.apply (fun n mem => exist n (by simpa using mem)) call
  next => exact built

theorem turned_built : (turned x y).Built := by
  have start := (Workspace.Built.empty).addGraph
  unfold turned
  dsimp only
  split
  next call =>
    refine recorded_built (start.param call) fun n mem => ?_
    obtain rfl : n = ⟨0, 0⟩ := by simpa using mem
    cases call
    exact ⟨_, rfl, Nat.one_pos⟩
  next => exact start

theorem stretched_built : (stretched x y).Built := by
  unfold stretched
  refine recorded_built (recorded_built turned_built fun n mem => ?_) fun n mem => ?_
  · have two : n = ⟨0, 1⟩ ∨ n = ⟨0, 0⟩ := by simpa using mem
    rcases two with rfl | rfl
    · exact ⟨_, rfl, by cbv⟩
    · exact ⟨_, rfl, by cbv⟩
  · have two : n = ⟨0, 2⟩ ∨ n = ⟨0, 0⟩ := by simpa using mem
    rcases two with rfl | rfl
    · exact ⟨_, rfl, by cbv⟩
    · exact ⟨_, rfl, by cbv⟩

theorem stretched_exist : ∀ n ∈ terminalNodes [.node ⟨0, 3⟩], (stretched x y).Exists n := by
  intro n mem
  obtain rfl : n = ⟨0, 3⟩ := by simpa [terminalNodes, spread, nodesIn, Value.node?] using mem
  have found : ((stretched x y).graph? 0).any (fun g => 3 < g.nodes.size) = true := by cbv
  obtain ⟨g, found, bound⟩ := (Option.any_eq_true _ _).mp found
  exact ⟨g, found, of_decide_eq_true bound⟩

/-- Whether a net is built that has a property. -/
def Makes (ws : Workspace) (terminals : List Value) (options : NetOptions)
    (p : Workspace → Net → Prop) : Prop :=
  match ws.buildNet terminals options with
  | (.ok net, now) => p now net
  | (.error _, _) => False

theorem stretched_net (x y z : Float) : ∃ now net,
    Reached (stretched x y) [.node ⟨0, 3⟩] (seeded z) net ∧ IsStretched x y z now net := by
  have built : Makes (stretched x y) [.node ⟨0, 3⟩] (seeded z) (IsStretched x y z) := by
    cbv
    exact ⟨rfl, rfl, trivial⟩
  unfold Makes at built
  split at built
  next net now run => exact ⟨now, net, .built run, built⟩
  next => exact built.elim

theorem stretched_ready (h : IsStretched x y z now net) : Ready now {} net := by
  obtain ⟨-, -, inputs, -, -, -, names⟩ := h
  refine ⟨fun _ p hp => beq_iff_eq.mp (List.all_eq_true.mp names p hp), fun p hp => ?_, fun r _ => ?_,
    fun p hp => ?_⟩
  · cases hp
  · exact ⟨.int 0, by simp [VariableTable.startDer]⟩
  · rw [inputs] at hp
    cases hp

/-- The product and the sum have as many columns and rows as the column has entries. -/
theorem stretched_results (x y : Float) : ∃ m s,
    transposeForward [.array (column x y)] [] = .ok (.array (row x y)) ∧
      mulForward [.array (row x y), .array (column x y)] [] = .ok m ∧ m.Varies [2, 2] ∧
      addForward [m, .array (column x y)] [] = .ok s ∧ s.Varies [2, 2] := by
  have turn : transposeForward [.array (column x y)] [] = .ok (.array (row x y)) := by cbv
  have hr : (Value.array (row x y)).Varies [1, 2] := .elements (.array _) rfl rfl
  have hc : (Value.array (column x y)).Factor (.typed (column x y)) := .elements (.array _)
  have square : Shape.broadcast? [1, 2] [2, 1] = some [2, 2] := rfl
  have same : Shape.broadcast? [2, 2] [2, 1] = some [2, 2] := rfl
  obtain ⟨m, product, hm⟩ := Operator.floats_mul.apply_varies hr hc square
  obtain ⟨s, sum, hs⟩ := Operator.floats_add.apply_varies hm hc same
  exact ⟨m, s, turn, (binaryKernel_eq ..).trans product, hm, (binaryKernel_eq ..).trans sum, hs⟩

/-- Each instruction takes a derivative in the shape of its result, and the last one a number. -/
theorem stretched_responds (h : IsStretched x y z now net) : ∃ val,
    net.valuesAfter false (net.boundValuation []) net.schedule.forward = .ok val ∧
      (val 3).Varies [2, 2] ∧ ∀ i ∈ net.schedule.forward, Responds net val 3 i := by
  obtain ⟨forward, -, -, p, -⟩ := h
  obtain ⟨m, s, turn, product, hm, sum, hs⟩ := stretched_results x y
  rw [← p] at turn product sum
  refine ⟨(((net.boundValuation []).write [1] [.array (row x y)]).write [2] [m]).write [3] [s], ?_, hs, ?_⟩
  · rw [forward, steps, valuesAfter_cons, outputsOf_of_forward rfl rfl turn, Except.bind, valuesAfter_cons,
      outputsOf_of_forward rfl rfl product, Except.bind, valuesAfter_cons, outputsOf_of_forward rfl rfl sum]
    rfl
  · have first : net.boundValuation [] 0 |>.Carries (column x y) := p ▸ .array _
    have small : s.shape.length ≤ Shape.maximalRank :=
      (congrArg List.length hs.shape).trans_le (by decide)
    have small' : m.shape.length ≤ Shape.maximalRank :=
      (congrArg List.length hm.shape).trans_le (by decide)
    obtain ⟨a, ha, -⟩ := hm.factor
    rw [forward]
    intro i hi
    simp only [steps, List.mem_cons, List.not_mem_nil, or_false] at hi
    rcases hi with rfl | rfl | rfl
    · refine ⟨_, _, 1, rfl, rfl, ?_, fun same => absurd same (by decide)⟩
      exact .transpose first (List.cons_ne_nil _ _) rfl
    · refine ⟨_, _, 2, rfl, rfl, ?_, fun same => absurd same (by decide)⟩
      exact .mul (.elements (.array (row x y))) (.elements first) rfl small' (.inl rfl)
    · have typed : (m.isTyped || (net.boundValuation [] 0).isTyped) = true := by
        rw [first.isTyped, Bool.or_true]
      refine ⟨_, _, 3, rfl, rfl, ?_, fun _ => ?_⟩
      · exact .add ha (.elements first) typed small (.inl rfl)
      · exact .add ha (.elements first) typed small (.inr ⟨rfl, trivial⟩)

end Sample

namespace Net

/-- The seed 1.0 for `p.T * p + p`, which is a square. -/
theorem scalar_seed_column : ∃ now net net', ∃ val : Valuation,
    Reached (Sample.stretched 1 2) [.node ⟨0, 3⟩] {} net ∧ Net.evaluate now {} .none net = .ok ⟨⟩ net' ∧
      (val 3).shape = [2, 2] ∧ ∀ r, net.schedule.IsParam r → ∀ key, net'.slotOfKey key = .ok r →
        ∃ d, outcome (getDer key) net' = .ok d ∧ (d = .int 0 ∨ d.shape = (val r).shape) := by
  obtain ⟨now, net, reached, stretched⟩ := Sample.stretched_net 1 2 1.0
  obtain ⟨val, values, square, responds⟩ := Sample.stretched_responds stretched
  have ready := Sample.stretched_ready stretched
  obtain ⟨forward, terminals, -, -, seed, alone, -⟩ := stretched
  have quiet : net.Quiet := fun observed => by rw [alone] at observed; cases observed
  have last : net.schedule.terminals.getLast? = some 3 := by rw [terminals]; rfl
  have plain : net.seedOf .none = .float 1.0 := seed
  obtain ⟨mid, run⟩ := reached.forward_ok Sample.stretched_built Sample.stretched_exist quiet ready rfl
    values
  obtain ⟨⟨_, _, _, sched⟩, -⟩ := reached.spec Sample.stretched_built Sample.stretched_exist
  have flat : net.schedule.IsParam 3 → (val 3).shape = [] := by
    rintro ⟨info, mem, index, kind⟩
    refine absurd ?_ (sched.wellFormed.not_written_of_isLeaf ⟨info, mem, index, by simp [kind]⟩)
    rw [forward]
    exact ⟨_, List.mem_of_getLast? rfl, List.mem_singleton.mpr rfl⟩
  obtain ⟨net', evaluate, ders⟩ := reached.scalar_seed Sample.stretched_built Sample.stretched_exist quiet
    now {} rfl plain last run val values (fun i hi _ => responds i hi) flat fun on => by cases on
  exact ⟨now, net, net', val, reached, evaluate, square.shape, ders⟩

/-- Whether a failure is that of a value without axes. -/
def isNoAxes : Error → Bool
  | .noAxes => true
  | _ => false

theorem eq_of_isNoAxes {e : Error} (h : isNoAxes e = true) : e = .noAxes := by
  unfold isNoAxes at h
  split at h
  next => rfl
  next => cases h

/-- A number has no transpose, so that 1.0 is no seed for `p.T`. -/
theorem scalar_seed_transpose : ∃ now net mid net',
    Reached (Sample.turned 1 2) [.node ⟨0, 1⟩] {} net ∧ Net.forward now {} net = .ok ⟨⟩ mid ∧
      Net.evaluate now {} .none net = .error .noAxes net' := by
  have check : ∀ x y z, (Sample.turned x y).builds [.node ⟨0, 1⟩] (Sample.seeded z) (fun now net =>
      net.succeeds (Net.forward now {}) (fun _ => true) &&
        net.fails (Net.evaluate now {} .none) (fun e _ => isNoAxes e)) = true := fun x y z => by cbv
  obtain ⟨now, net, reached, check⟩ := Reached.of_builds (check 1 2 1.0)
  simp only [Bool.and_eq_true] at check
  obtain ⟨run, fails⟩ := check
  obtain ⟨mid, run, -⟩ := succeeds_iff.mp run
  obtain ⟨e, net', failed, noAxes⟩ := fails_iff.mp fails
  rw [eq_of_isNoAxes noAxes] at failed
  exact ⟨now, net, mid, net', reached, run, failed⟩

end Net

end Backprop
