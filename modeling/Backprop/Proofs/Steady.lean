import Mathlib
import Backprop.Proofs.Sweep
import Backprop.Proofs.History
import Backprop.Proofs.Derivatives
/-!
# One net before different evaluations

Evaluations of a net that is where it was and has the same parameters differ in what they start with.

* `Net.Began`: what an evaluation that succeeds found.
* `Net.Steady` relates states of one net; evaluations that are given the same compute the same values
  there, by `Steady.boundValuation`, and can start where one has succeeded, by `Steady.ready`.
* `Net.Forwarded`: what evaluations without a backward pass leave.
* `Steady.of_evaluate`: evaluations keep a net steady.
-/

namespace Backprop

theorem Schedule.IsParam.hasSlot {s : Schedule} {r : Slot} (h : s.IsParam r) : s.HasSlot r := by
  obtain ⟨info, mem, index, -⟩ := h
  exact ⟨info, mem, index⟩

theorem Schedule.IsParam.isLeaf {s : Schedule} {r : Slot} (h : s.IsParam r) : s.IsLeaf r := by
  obtain ⟨info, mem, index, kind⟩ := h
  exact ⟨info, mem, index, by rw [kind]; decide⟩

theorem VariableTable.startDer_false (t : VariableTable) (r : Slot) : t.startDer false r = .ok (.int 0) := by
  simp [startDer]

namespace Net

variable {s : Schedule} {net net' base last last' : Net} {notify : Notify} {val : Valuation}
  {start start' : Cotangent} {r : Slot} {now : Workspace} {pass : PassOptions} {seed : Value}

/-! ### What an evaluation has begun with -/

theorem leads_const {ε σ α : Type} (m : EStateM ε σ α) (state : σ) {P : Prop} (h : P) :
    Leads m state (fun _ _ => P) fun _ _ => True := by
  unfold Leads
  cases m state
  · exact h
  · trivial

/-- Seeding succeeds only if every seed is meant for a slot. -/
theorem leads_seedDers_seedable (ws : Workspace) (seed : Value) (net : Net) :
    Leads (seedDers ws seed) net (fun _ _ => net.Seedable seed) fun _ _ => True := by
  simp only [seedDers, leads_bind, leads_get]
  have same : (if seed.isNone = true then net.config.defaultSeed else seed) = net.seedOf seed := rfl
  rw [same]
  split
  next entries dict =>
    simp only [Seedable, dict]
    refine Leads.forM (fun (seen : List (Value × Value)) _ => ∀ e ∈ seen, ∃ name r, e.1 = .text name ∧
      net.schedule.names.lookup name = some r) (by simp) ?_
    rintro seen ⟨key, v⟩ rest state - known
    dsimp only
    split
    next name =>
      simp only [leads_bind, leads_ofExcept, Schedule.slotOf]
      cases found : net.schedule.names.lookup name with
      | none => trivial
      | some q =>
        exact leads_const _ state (List.forall_mem_append.mpr
          ⟨known, by simpa using ⟨q, found⟩⟩)
    next => trivial
  next v plain =>
    have seedable : net.schedule.terminals ≠ [] → net.Seedable seed := by
      intro some
      unfold Seedable
      split
      next entries dict => exact (plain entries dict).elim
      next => exact some
    split
    next q last => exact leads_const _ net (seedable (List.ne_nil_of_mem (List.mem_of_getLast? last)))
    next => trivial

/-- So does a backward pass. -/
theorem leads_backwardPass_seedable (ws : Workspace) (seed : Value) (net : Net) :
    Leads (backwardPass ws notify seed) net (fun _ _ => net.Seedable seed) fun _ _ => True := by
  have seeds : ∀ net' : Net, net'.config = net.config → net'.schedule = net.schedule →
      Leads (attempt "Backward" "<seed>" (seedDers ws seed)) net' (fun _ _ => net.Seedable seed)
        fun _ _ => True := by
    intro net' config schedule
    rw [leads_attempt, ← seedable_eq config schedule]
    exact leads_seedDers_seedable ws seed net'
  have entered : Leads enter net (fun _ net' => net' = net.entered) fun _ _ => True := by
    simp only [enter, leads_bind, leads_get]
    split
    next => trivial
    next => rfl
  rw [backwardPass, leads_bind, leads_get]
  split
  next => trivial
  next =>
    rw [leads_bind]
    refine entered.mono ?_ fun _ _ _ => trivial
    rintro _ _ rfl
    rw [leads_bind]
    exact (seeds net.entered rfl rfl).mono (fun _ state seedable => leads_const _ state seedable)
      fun _ _ _ => trivial

/-- What an evaluation that succeeds began with. -/
structure Began (now : Workspace) (pass : PassOptions) (seed : Value) (net : Net) : Prop where
  idle : net.evaluating = false
  ready : Ready now pass net
  seedable : pass.mode = "normal" → net.Seedable seed

theorem leads_evaluatePass_began (wf : s.WellFormed) (runs : Runs s net) (silent : Silent notify)
    (quiet : net.Quiet) (now : Workspace) (pass : PassOptions) (seed : Value) :
    Leads (evaluatePass now notify pass seed) net (fun _ _ => Began now pass seed net) fun _ _ => True := by
  have recorded : Recorded net { net with journal := { net.journal with
      messages := net.journal.messages.push ("Evaluating Net in `" ++ pass.mode ++ "` mode.") } } :=
    ⟨_, _, rfl⟩
  have reported := Follows.of_recorded runs recorded
  simp only [evaluatePass, report, leads_bind, leads_ofExcept, leads_modify]
  cases named : Mode.ofName pass.mode with
  | error e => trivial
  | ok mode =>
    refine (leads_forwardPass wf reported.runs silent quiet now
      { pass with keepForBackward := mode == .normal }).mono ?_ fun _ _ _ => trivial
    rintro _ _ ⟨mode', last, after, rfl⟩
    have ready : Ready now pass net := ready_reported.mp after.ready
    split
    next normal =>
      subst normal
      obtain rfl : Mode.normal = mode' := Except.ok.inj (named.symm.trans after.named)
      obtain ⟨-, -, follows, -, -⟩ := after.kept wf rfl
      have same : last.Seedable = net.Seedable :=
        seedable_eq follows.config (follows.runs.schedule.trans runs.schedule.symm)
      refine (leads_backwardPass_seedable now seed _).mono (fun _ _ seedable => ?_) fun _ _ _ => trivial
      refine ⟨after.idle, ready, fun _ => ?_⟩
      rw [← same]
      exact seedable
    next other =>
      refine ⟨after.idle, ready, fun normal => absurd ?_ other⟩
      rw [normal] at named
      exact (Except.ok.inj named).symm

/-! ### One net before different evaluations -/

/-- Two states of one net, on one device and with the same parameters. -/
structure Steady (net net' : Net) : Prop where
  follows : Follows net.schedule net net'
  names : net'.compiledNames = net.compiledNames
  params : ∀ r, net.schedule.IsParam r → net'.table.valueAt r = net.table.valueAt r

namespace Steady

theorem refl (runs : Runs net.schedule net) : Steady net net := ⟨.refl runs, rfl, fun _ _ => rfl⟩

theorem schedule (h : Steady net net') : net'.schedule = net.schedule := h.follows.runs.schedule

theorem runs (h : Steady net net') : Runs net'.schedule net' := by
  rw [h.schedule]
  exact h.follows.runs

theorem trans {net'' : Net} (h : Steady net net') (h' : Steady net' net'') : Steady net net'' := by
  obtain ⟨follows, names, params⟩ := h'
  rw [h.schedule] at follows params
  exact ⟨h.follows.trans follows, names.trans h.names,
    fun r param => (params r param).trans (h.params r param)⟩

/-- What waits for inputs can be replaced. -/
theorem staged (h : Steady net net') (waiting : List (Slot × Value)) :
    Steady { net with pending := waiting } { net' with pending := waiting } := by
  obtain ⟨⟨⟨schedule, infos, placed⟩, addition, config, device, transfer, quiet⟩, names, params⟩ := h
  exact ⟨⟨⟨schedule, infos, placed⟩, addition, config, device, transfer, quiet⟩, names, params⟩

theorem of_staged {waiting : List (Slot × Value)} (h : Steady { net with pending := waiting } net') :
    Steady net net' := by
  obtain ⟨⟨⟨schedule, infos, placed⟩, addition, config, device, transfer, quiet⟩, names, params⟩ := h
  exact ⟨⟨⟨schedule, infos, placed⟩, addition, config, device, transfer, quiet⟩, names, params⟩

theorem sameSlots (h : Steady net net') (runs : Runs net.schedule net) :
    net.table.SameSlots net'.table :=
  runs.sameSlots h.follows.runs h.follows.addition

theorem arrived (h : Steady net net') (runs : Runs net.schedule net) : net'.arrived = net.arrived :=
  arrived_eq (h.sameSlots runs) h.follows.device h.follows.transfer

theorem stagedValue (h : Steady net net') (pending : net'.pending = net.pending) :
    net'.stagedValue = net.stagedValue := by
  funext inputs r
  simp only [Net.stagedValue, h.schedule, pending]

/-- A slot of a parameter holds the same, also where it is counted from the end. -/
theorem valueAt_of_kind (h : Steady net net') (wf : net.schedule.WellFormed) (runs : Runs net.schedule net)
    (kind : (net.table.at? r).map (·.info.kind) = some .param) :
    net'.table.valueAt r = net.table.valueAt r := by
  obtain ⟨v, found, kind⟩ := Option.map_eq_some_iff.mp kind
  obtain ⟨k, located, entry⟩ := Option.bind_eq_some_iff.mp found
  have slot : net.schedule.slots[k]? = some v.info := by
    rw [← runs.infos, List.getElem?_map, Array.getElem?_toList, entry]
    rfl
  have bound : k < net.table.size := (Array.getElem?_eq_some_iff.mp entry).1
  have same : ∀ t : VariableTable, t.size = net.table.size → t.valueAt r = t.valueAt k := by
    intro t size
    simp only [VariableTable.valueAt, VariableTable.at?, size, located, locate_nat bound]
  rw [same _ (h.sameSlots runs).size, same _ rfl]
  exact h.params k ⟨v.info, List.mem_of_getElem? slot, wf.slotIndex k _ slot, kind⟩

theorem boundValuation (h : Steady net net') (wf : net.schedule.WellFormed) (runs : Runs net.schedule net)
    (pending : net'.pending = net.pending) : net'.boundValuation = net.boundValuation := by
  funext inputs r
  have kinds := congrArg (Option.map SlotInfo.kind)
    (VariableTable.infoAt_sameSlots (h.sameSlots runs) r)
  simp only [Option.map_map, Function.comp_def] at kinds
  unfold Net.boundValuation
  rw [kinds, h.stagedValue pending, h.arrived runs]
  split
  next param => exact h.valueAt_of_kind wf runs param
  next => rfl
  next => rfl

/-- Where an evaluation succeeds, one that starts all derivatives anew can start. -/
theorem ready (h : Steady net net') (runs : Runs net.schedule net) (pending : net'.pending = net.pending)
    (ready : Ready now pass net') : Ready now { pass with accumulate := false } net := by
  obtain ⟨named, known, -, bound⟩ := ready
  rw [h.follows.config, h.names] at named
  rw [h.schedule] at known bound
  rw [h.stagedValue pending, h.arrived runs] at bound
  exact ⟨named, known, fun r has => ⟨_, VariableTable.startDer_false _ r⟩, bound⟩

end Steady

/-! ### What evaluations leave -/

theorem HoldsWhile.unique {v : Value} {p : Prop} (h : net.HoldsWhile r v p) (h' : net'.HoldsWhile r v p) :
    net.table.valueAt r = net'.table.valueAt r := by
  by_cases held : p
  · rw [h.1 held, h'.1 held]
  · rw [h.2 held, h'.2 held]

/-- What derivatives are once a list of instructions has sent theirs depends on the start at their outputs. -/
theorem adjointAfter_congr_outputs {l : List Instruction}
    (outputs : ∀ i ∈ l, ∀ o ∈ i.outputs, start o = start' o) (here : start r = start' r) :
    net.adjointAfter start val l r = net.adjointAfter start' val l r := by
  simp only [adjointAfter, received_congr_outputs l outputs, here]

/-- What a slot is left with depends on its start and the start at the outputs of instructions. -/
theorem Returning.readDer_congr {done : List Instruction} (state : Returning s start val base last done [])
    (state' : Returning s start' val base last' done [])
    (outputs : ∀ i ∈ done, ∀ o ∈ i.outputs, start o = start' o) (has : s.HasSlot r)
    (here : start r = start' r) : last.table.readDer r = last'.table.readDer r := by
  have same : base.adjointAfter start val done r = base.adjointAfter start' val done r :=
    adjointAfter_congr_outputs outputs here
  by_cases written : Written done r
  · rw [VariableTable.readDer_of_partsAt (state.read r has written),
      VariableTable.readDer_of_partsAt (state'.read r has written)]
    by_cases wanted : s.Wanted base.config.conserveMemory [] r
    · have kept := state.kept r has written wanted
      have kept' := state'.kept r has written wanted
      exact kept.symm.trans (same.trans kept')
    · rw [state.dropped r has written wanted, state'.dropped r has written wanted]
  · rw [state.readDer has written, state'.readDer has written, same]

/-- Where a backward pass has not failed, one that starts alike at the outputs of instructions does not. -/
theorem Returning.reaction_of_split (wf : net.schedule.WellFormed)
    (state : Returning net.schedule start val net last (net.schedule.forward.filter (·.requiresGradient)) [])
    (starts : ∀ i ∈ net.schedule.forward, ∀ o ∈ i.outputs, start o = start' o)
    {done rest : List Instruction} {i : Instruction}
    (split : net.schedule.backward = done.reverse ++ i :: rest) :
    ∃ ders, net.reaction val (net.adjointAfter start' val done) i = .ok ders := by
  have suffix : i :: done <:+ net.schedule.forward.filter (·.requiresGradient) := by
    have run := congrArg List.reverse (wf.backwardList.symm.trans split)
    rw [List.reverse_reverse] at run
    exact ⟨rest.reverse, by simp [run]⟩
  have run : ∀ j ∈ i :: done, j ∈ net.schedule.forward := fun j hj =>
    List.mem_of_mem_filter (suffix.subset hj)
  obtain ⟨ders, reacts⟩ := state.reacts i done suffix
  refine ⟨ders, ?_⟩
  rw [← reacts]
  exact reaction_congr fun o ho => adjointAfter_congr_outputs
    (fun j hj o ho => (starts j (run j (List.mem_cons_of_mem _ hj)) o ho).symm)
    (starts i (run i List.mem_cons_self) o ho).symm

/-- Slots of parameters alone can start with more than nothing. -/
theorem Runs.startDer_of_not_isParam (runs : Runs s net) (wf : s.WellFormed) (has : s.HasSlot r)
    (other : ¬ s.IsParam r) (keep : Bool) : net.table.startDer keep r = .ok (.int 0) := by
  obtain ⟨info, mem, rfl⟩ := has
  rw [wf.isParam_iff mem, Bool.not_eq_true] at other
  simp [VariableTable.startDer, runs.persistentAt wf mem, other]

theorem Runs.startDer_of_isParam (runs : Runs s net) (wf : s.WellFormed) (param : s.IsParam r) :
    net.table.startDer true r = net.table.readDer r := by
  obtain ⟨info, mem, rfl, kind⟩ := param
  have persistent := (wf.isParam_iff mem).mp ⟨info, mem, rfl, kind⟩
  simp [VariableTable.startDer, runs.persistentAt wf mem, persistent]

theorem not_isParam_of_output (wf : s.WellFormed) {i : Instruction} (hi : i ∈ s.forward)
    (ho : r ∈ i.outputs) : ¬ s.IsParam r :=
  fun param => wf.not_written_of_isLeaf param.isLeaf ⟨i, hi, ho⟩

/-- What an evaluation without a backward pass leaves. -/
structure Forwarded (pass : PassOptions) (s : Schedule) (net net' : Net) : Prop where
  follows : Follows s net net'
  values : ∃ mode val, Mode.ofName pass.mode = .ok mode ∧
    net.valuesAfter (mode == .test) (net.boundValuation pass.inputs) s.forward = .ok val ∧
    ∀ r, s.HasSlot r → net'.HoldsWhile r (val r) (s.Wanted net.config.conserveMemory [] r)
  ders : ∀ r, s.HasSlot r → net'.table.readDer r = net.table.startDer pass.accumulate r

/-- A forward pass that is not kept for a backward pass leaves this. -/
theorem After.forwarded (wf : s.WellFormed) {mode : Mode}
    (after : After now pass s mode s.forward.length net last) (drops : keeps pass mode = false) :
    Forwarded pass s net { last with evaluating := false, backwardReady := false } := by
  obtain ⟨base, val, prepared, values, between⟩ := after.state
  rw [List.take_length] at values between
  rw [List.drop_length, drops] at between
  have conserve : base.config.conserveMemory = net.config.conserveMemory :=
    congrArg Config.conserveMemory prepared.follows.config
  obtain ⟨⟨schedule, infos, placed⟩, addition, config, device, transfer, quiet⟩ :=
    prepared.follows.trans between.follows
  refine ⟨⟨⟨schedule, infos, placed⟩, addition, config, device, transfer, quiet⟩,
    ⟨mode, val, after.named, values, fun r has => ?_⟩, fun r has => ?_⟩
  · obtain ⟨held, gone⟩ := between.values r has
    rw [conserve] at held gone
    exact ⟨fun wanted => held ⟨wf.available has, wanted⟩, fun unwanted => gone fun h => unwanted h.2⟩
  · rw [prepared.ders r has, ← between.ders r has]
    exact VariableTable.readDer_of_partsAt ((between.parts r has).trans (prepared.parts r has))

theorem ofName_eq_normal {name : String} (named : Mode.ofName name = .ok .normal) : name = "normal" := by
  unfold Mode.ofName at named
  split at named
  next normal => exact normal
  · split at named
    · cases named
    · split at named <;> cases named

theorem leads_evaluatePass_forward (wf : s.WellFormed) (runs : Runs s net) (silent : Silent notify)
    (quiet : net.Quiet) (now : Workspace) (pass : PassOptions) (other : pass.mode ≠ "normal") (seed : Value) :
    Leads (evaluatePass now notify pass seed) net (fun _ net' => Forwarded pass s net net')
      (fun e _ => Stopped now pass net s.forward e) := by
  have recorded : Recorded net { net with journal := { net.journal with
      messages := net.journal.messages.push ("Evaluating Net in `" ++ pass.mode ++ "` mode.") } } :=
    ⟨_, _, rfl⟩
  have reported := Follows.of_recorded runs recorded
  simp only [evaluatePass, report, leads_bind, leads_ofExcept, leads_modify]
  cases named : Mode.ofName pass.mode with
  | error e => exact .mode named
  | ok mode =>
    have forward : mode ≠ .normal := fun normal => other (ofName_eq_normal (normal ▸ named))
    refine (leads_forwardPass wf reported.runs silent quiet now
      { pass with keepForBackward := mode == .normal }).mono ?_ fun e _ stopped => ?_
    · rintro _ _ ⟨mode', last, after, rfl⟩
      obtain rfl : mode = mode' := Except.ok.inj (named.symm.trans after.named)
      have drops : keeps { pass with keepForBackward := mode == .normal } mode = false := by
        simp [keeps, forward]
      obtain ⟨follows, values, ders⟩ := after.forwarded wf drops
      rw [if_neg forward, drops]
      rw [reported.valuesAfter] at values
      exact ⟨reported.trans follows, values, ders⟩
    · exact stopped.of_reported runs

theorem boundValuation_of_isParam (wf : s.WellFormed) (runs : Runs s net) (inputs : Keywords)
    (param : s.IsParam r) : net.boundValuation inputs r = net.table.valueAt r := by
  obtain ⟨info, mem, rfl, kind⟩ := param
  have look := congrArg (Option.map SlotInfo.kind) (runs.at?_info wf mem)
  simp only [Option.map_map, Function.comp_def, Option.map_some, kind] at look
  simp only [boundValuation, look]

/-- A parameter keeps its value. -/
theorem HoldsWhile.param (wf : s.WellFormed) (runs : Runs s net) {inputs : Keywords} {testing : Bool}
    (values : net.valuesAfter testing (net.boundValuation inputs) s.forward = .ok val) (param : s.IsParam r)
    {rest : List Instruction}
    (holds : net'.HoldsWhile r (val r) (s.Wanted net.config.conserveMemory rest r)) :
    net'.table.valueAt r = net.table.valueAt r := by
  obtain rfl : net.schedule = s := runs.schedule
  rw [holds.1 (.inr (.inl param)), (isForward_of_valuesAfter wf runs values).leaves r param.isLeaf,
    boundValuation_of_isParam wf runs inputs param]

/-- An evaluation leaves the net steady. -/
theorem Steady.of_evaluate (wf : net.schedule.WellFormed) (runs : Runs net.schedule net) (quiet : net.Quiet)
    (run : Net.evaluate now pass seed net = .ok ⟨⟩ last) : Steady net last := by
  have stable : Stable (Fixed net) := by
    refine running_fixed.stable wf ?_
    rintro _ _ ⟨schedule, config, params, names, transfer, observed⟩
    exact ⟨schedule, config, params, names, transfer, observed⟩
  have fixed : Fixed net last :=
    (leads_of_ok run).mp ((Call.evaluate now pass seed).keeps stable net ⟨rfl, rfl, rfl, rfl, rfl, rfl⟩)
  have silent := silent_notifyObservers now
  by_cases normal : pass.mode = "normal"
  · have evaluated := (leads_of_ok run).mp (leads_evaluatePass wf runs silent quiet now pass normal seed)
    refine ⟨evaluated.follows, fixed.compiledNames, fun r param => ?_⟩
    obtain ⟨val, end', values, returned, rfl⟩ := evaluated
    exact HoldsWhile.param wf runs values param (returned.values r param.hasSlot)
  · have forwarded :=
      (leads_of_ok run).mp (leads_evaluatePass_forward wf runs silent quiet now pass normal seed)
    refine ⟨forwarded.follows, fixed.compiledNames, fun r param => ?_⟩
    obtain ⟨mode, val, -, values, holds⟩ := forwarded.values
    exact HoldsWhile.param wf runs values param (holds r param.hasSlot)

end Net

end Backprop
