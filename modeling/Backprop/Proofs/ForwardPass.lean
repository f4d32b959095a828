import Backprop.Proofs.Binding
/-!
# Forward passes as a whole

* `Net.boundValuation` is what the leaves hold once a pass has bound its inputs, and
  `Net.IsForward` says of a valuation that it continues this through every instruction.
* `valuesAfter_of_isForward`, `isForward_of_valuesAfter`: there is such a valuation exactly when
  running the instructions in order finds one, and then it is the only one.
* `Net.forwardTo` is a pass that stops after some instructions; `leads_forwardTo` says what it
  leaves and why it fails.
-/

namespace Backprop

namespace Net

variable {s : Schedule} {net net' : Net} {notify : Notify}

/-- What the leaves hold once inputs are bound: parameters keep their values. -/
def boundValuation (net : Net) (inputs : Keywords) : Valuation := fun r =>
  match ((net.table.at? r).map (·.info.kind) : Option SlotKind) with
  | some .param => net.table.valueAt r
  | some .input =>
    match (net.stagedValue inputs r).map (net.arrived r) with
    | some (.ok v) => v
    | _ => .none
  | _ => .none

/-- A valuation that a forward pass computes: that of the leaves, and at the outputs of every
instruction what it computes. -/
structure IsForward (net : Net) (inputs : Keywords) (testing : Bool) (val : Valuation) : Prop where
  leaves : ∀ r, net.schedule.IsLeaf r → val r = net.boundValuation inputs r
  instructions : ∀ i ∈ net.schedule.forward,
    net.outputsOf testing val i = .ok (i.outputs.map val)

/-- A prepared net holds the bound valuation. -/
theorem Prepared.valueAt {options : PassOptions} {base : Net} (wf : s.WellFormed)
    (runs : Runs s net)
    (h : Prepared s options.accumulate (net.stagedValue options.inputs) net base) {r : Slot}
    (has : s.HasSlot r) : base.table.valueAt r = net.boundValuation options.inputs r := by
  obtain ⟨info, mem, rfl⟩ := has
  have kind : (net.table.at? info.index).map (·.info.kind) = some info.kind := by
    have look := congrArg (Option.map SlotInfo.kind) (runs.at?_info wf mem)
    simpa only [Option.map_map, Function.comp_def, Option.map_some] using look
  unfold boundValuation
  rw [kind]
  cases k : info.kind with
  | param => exact h.params _ ⟨info, mem, rfl, k⟩
  | input =>
    obtain ⟨v, staged, _, arrived⟩ := h.inputs info mem k
    simp only [staged, Option.map_some, arrived]
  | op => exact h.others info mem k

/-- The instructions of a valuation can be run in order, and yield it. -/
theorem valuesAfter_of_isForward (wf : s.WellFormed) (runs : Runs s net) {inputs : Keywords}
    {testing : Bool} {val : Valuation} (h : net.IsForward inputs testing val) :
    ∀ (pre post : List Instruction), s.forward = pre ++ post →
      ∃ v, net.valuesAfter testing (net.boundValuation inputs) pre = .ok v ∧
        ∀ r, s.IsLeaf r ∨ Written pre r → v r = val r := by
  obtain rfl : net.schedule = s := runs.schedule
  intro pre
  induction pre using List.reverseRecOn with
  | nil =>
    intro post _
    exact ⟨_, rfl, fun r hr => (h.leaves r (by simpa using hr)).symm⟩
  | append_singleton pre i ih =>
    intro post split
    have split' : net.schedule.forward = pre ++ i :: post := by simpa using split
    have hi : i ∈ net.schedule.forward := by rw [split']; simp
    obtain ⟨v, run, agrees⟩ := ih (i :: post) split'
    have computed : net.outputsOf testing v i = .ok (i.outputs.map val) := by
      rw [← h.instructions i hi]
      exact outputsOf_congr (fun r hr => agrees r (wf.readsBefore pre i post split' r hr)) testing
    refine ⟨v.write i.outputs (i.outputs.map val), ?_, fun r hr => ?_⟩
    · rw [valuesAfter_append, run]
      simp only [Except.bind, valuesAfter_cons, computed, valuesAfter_nil]
    · by_cases out : r ∈ i.outputs
      · exact Valuation.write_map out
      · rw [Valuation.write_of_not_mem _ _ out]
        refine agrees r (hr.imp_right fun w => ?_)
        exact ((written_append_singleton pre i r).mp w).resolve_right out

/-- Running the instructions in order finds a valuation. -/
theorem isForward_of_valuesAfter (wf : s.WellFormed) (runs : Runs s net) {inputs : Keywords}
    {testing : Bool} {val : Valuation}
    (h : net.valuesAfter testing (net.boundValuation inputs) s.forward = .ok val) :
    net.IsForward inputs testing val := by
  obtain rfl : net.schedule = s := runs.schedule
  have unchanged : ∀ (l : List Instruction) (v w : Valuation), net.valuesAfter testing v l = .ok w →
      ∀ r, ¬ Written l r → w r = v r := by
    intro l
    induction l with
    | nil =>
      intro v w run r _
      cases run
      rfl
    | cons i l ih =>
      intro v w run r unwritten
      rw [valuesAfter_cons] at run
      cases computed : net.outputsOf testing v i with
      | error e => rw [computed] at run; cases run
      | ok outs =>
        rw [computed] at run
        rw [ih _ w run r fun ⟨j, hj, out⟩ => unwritten ⟨j, by simp [hj], out⟩]
        exact Valuation.write_of_not_mem _ _ fun out => unwritten ⟨i, by simp, out⟩
  constructor
  · exact fun r leaf => unchanged _ _ _ h r (wf.not_written_of_isLeaf leaf)
  · intro i hi
    obtain ⟨pre, post, split⟩ := List.append_of_mem hi
    rw [split, valuesAfter_append] at h
    cases before : net.valuesAfter testing (net.boundValuation inputs) pre with
    | error e => rw [before] at h; cases h
    | ok v =>
      rw [before, Except.bind, valuesAfter_cons] at h
      cases computed : net.outputsOf testing v i with
      | error e => rw [computed] at h; cases h
      | ok outs =>
        rw [computed, Except.bind] at h
        have later := unchanged post _ val h
        have reads : ∀ r ∈ i.reads, v r = val r := by
          intro r hr
          obtain ⟨own, after⟩ := wf.reads_not_later split hr
          rw [later r after, Valuation.write_of_not_mem _ _ own]
        have outputs : i.outputs.map val = outs := by
          rw [← Valuation.map_write v (wf.outputs_nodup hi) (length_of_outputsOf computed)]
          exact List.map_congr_left fun r hr => later r (wf.outputs_apart split hr).2
        rw [← outputsOf_congr reads testing, computed, outputs]

/-! ### Passes that stop early -/

/-- Whether a pass in a mode keeps what a backward pass needs. -/
def keeps (options : PassOptions) (mode : Mode) : Bool := options.keepForBackward && mode != Mode.test

/-- A forward pass that stops after a number of instructions. The result is what its rest needs. -/
def forwardTo (ws : Workspace) (notify : Notify) (options : PassOptions) (k : Nat) :
    NetM (Mode × Schedule) := do
  let mode ← ofExcept (Mode.ofName options.mode)
  enter
  attempt "Forward" "<setup>" (prepare ws options)
  let schedule := (← get).schedule
  forwardSteps notify (mode == Mode.test) (schedule.releasedForward (keeps options mode))
    (schedule.forward.take k)
  return (mode, schedule)

theorem forwardSteps_append (testing : Bool) (released : List (List Slot))
    (l m : List Instruction) : forwardSteps notify testing released (l ++ m) =
      (do forwardSteps notify testing released l; forwardSteps notify testing released m) := by
  induction l with
  | nil => simp [forwardSteps]
  | cons i l ih => simp [forwardSteps, ih]

/-- A forward pass that stops one instruction later. -/
theorem forwardTo_succ (ws : Workspace) (options : PassOptions) (k : Nat) :
    forwardTo ws notify options (k + 1) = (do
      let (mode, schedule) ← forwardTo ws notify options k
      forwardSteps notify (mode == Mode.test) (schedule.releasedForward (keeps options mode))
        ((schedule.forward.drop k).take 1)
      return (mode, schedule)) := by
  simp only [forwardTo, bind_assoc, pure_bind, List.take_add, forwardSteps_append]

/-- A pass goes on from where the one that stops early is. -/
theorem forwardPass_eq (ws : Workspace) (options : PassOptions) (k : Nat) :
    forwardPass ws notify options = (do
      let (mode, schedule) ← forwardTo ws notify options k
      forwardSteps notify (mode == Mode.test) (schedule.releasedForward (keeps options mode))
        (schedule.forward.drop k)
      leave (keeps options mode)
      notify (.event .finished)) := by
  have whole : ∀ (testing : Bool) (released : List (List Slot)) (l : List Instruction),
      forwardSteps notify testing released l =
        (do forwardSteps notify testing released (l.take k)
            forwardSteps notify testing released (l.drop k)) := by
    intro testing released l
    rw [← forwardSteps_append, List.take_append_drop]
  simp only [forwardPass, forwardTo, bind_assoc, pure_bind]
  refine bind_congr fun mode => bind_congr fun _ => bind_congr fun _ => bind_congr fun net => ?_
  change (do
    forwardSteps notify (mode == Mode.test) (net.schedule.releasedForward (keeps options mode))
      net.schedule.forward
    leave (keeps options mode)
    notify (.event .finished)) = _
  rw [whole, bind_assoc]

/-- Why a forward pass fails before it has run some instructions. -/
inductive Stopped (ws : Workspace) (options : PassOptions) (net : Net) (l : List Instruction) :
    Error → Prop where
  | mode {e : Error} : Mode.ofName options.mode = .error e → Stopped ws options net l e
  | busy {e : Error} : net.evaluating = true → Stopped ws options net l e
  | unready {e : Error} : ¬ Ready ws options net → Stopped ws options net l e
  | kernel {mode : Mode} {e : Error} : Mode.ofName options.mode = .ok mode →
      net.valuesAfter (mode == Mode.test) (net.boundValuation options.inputs) l = .error e →
      Stopped ws options net l e

/-- The state that a forward pass is in after a number of instructions. -/
structure After (ws : Workspace) (options : PassOptions) (s : Schedule) (mode : Mode) (k : Nat)
    (net net' : Net) : Prop where
  named : Mode.ofName options.mode = .ok mode
  idle : net.evaluating = false
  ready : Ready ws options net
  state : ∃ base val, Prepared s options.accumulate (net.stagedValue options.inputs) net base ∧
    net.valuesAfter (mode == Mode.test) (net.boundValuation options.inputs) (s.forward.take k) =
      .ok val ∧
    Between s (keeps options mode) base net' val (s.forward.take k) (s.forward.drop k)

/-- Before the first instruction, what nobody reads is not there. -/
theorem Prepared.between {options : PassOptions} {base : Net} (wf : s.WellFormed)
    (runs : Runs s net)
    (h : Prepared s options.accumulate (net.stagedValue options.inputs) net base) (keep : Bool) :
    Between s keep base base (net.boundValuation options.inputs) [] s.forward := by
  refine ⟨.refl h.follows.runs, ?_, fun _ _ => rfl, fun _ _ => rfl⟩
  intro r has
  refine ⟨fun _ => h.valueAt wf runs has, fun gone => ?_⟩
  obtain ⟨info, mem, rfl⟩ := has
  by_cases op : info.kind = .op
  · exact h.others info mem op
  · refine absurd ⟨.inl ⟨info, mem, rfl, op⟩, ?_⟩ gone
    by_cases reclaimable : info.reclaimable = true
    · obtain ⟨i, hi, read⟩ := wf.leafNeeded info mem op reclaimable
      have later : i ∈ s.readersAfter keep s.forward := by
        cases keep <;> simp [Schedule.readersAfter, hi]
      exact .inr (.inr (.inr ⟨i, later, read⟩))
    · have stays := (wf.reclaimable_iff mem).not.mp reclaimable
      by_cases param : s.IsParam info.index
      · exact .inr (.inl param)
      · exact .inr (.inr (.inl (by_contra fun none => stays ⟨param, none⟩)))

theorem ready_entered {ws : Workspace} {options : PassOptions} (evaluating backwardReady : Bool) :
    Ready ws options { net with evaluating, backwardReady } ↔ Ready ws options net :=
  ⟨fun h => ⟨h.named, h.known, h.fillable.readable, h.fillable.bound⟩,
    fun h => ⟨h.named, h.known, h.fillable.readable, h.fillable.bound⟩⟩

/-- A pass gets through some instructions unless one of their kernels fails, or it could not even
start. -/
theorem leads_forwardTo (wf : s.WellFormed) (runs : Runs s net) (silent : Silent notify)
    (quiet : net.Quiet) (ws : Workspace) (options : PassOptions) (k : Nat) :
    Leads (forwardTo ws notify options k) net
      (fun r net' => r.2 = s ∧ After ws options s r.1 k net net')
      (fun e _ => Stopped ws options net (s.forward.take k) e) := by
  simp only [forwardTo, leads_bind, leads_ofExcept]
  cases mode : Mode.ofName options.mode with
  | error e => exact .mode mode
  | ok m =>
    simp only [enter, leads_bind, leads_get]
    split
    next busy => exact .busy busy
    next idle =>
      simp only [leads_pure, leads_modify, leads_attempt]
      have entered : Runs s { net with evaluating := true, backwardReady := false } :=
        ⟨runs.schedule, runs.infos, runs.placed⟩
      apply (leads_prepare wf entered ws options).mono
      · rintro _ base ⟨ready, prepared⟩
        have prepared' : Prepared s options.accumulate (net.stagedValue options.inputs) net base := by
          obtain ⟨⟨a, b, c, d, e, f⟩, params, inputs, others, ders, parts⟩ := prepared
          exact ⟨⟨a, b, c, d, e, f⟩, params, inputs, others, ders, parts⟩
        have start := prepared'.between wf runs (keeps options m)
        rw [prepared'.follows.runs.schedule]
        have same := prepared'.follows.valuesAfter
        have split : s.forward = [] ++ (s.forward.take k ++ s.forward.drop k) := by simp
        apply (leads_forwardSteps wf silent (prepared'.follows.quiet quiet)
          (m == Mode.test) (s.forward.take k) [] _ base split (by simpa using start)).mono
        · rintro _ net' ⟨val, values, between⟩
          rw [same] at values
          exact ⟨rfl, mode, by simpa using idle, (ready_entered _ _).mp ready, base, val, prepared',
            values, between⟩
        · intro e _ failed
          rw [same] at failed
          exact .kernel mode failed
      · exact fun _ _ bad => .unready fun ready => bad ((ready_entered _ _).mpr ready)

theorem leads_forwardPass (wf : s.WellFormed) (runs : Runs s net) (silent : Silent notify)
    (quiet : net.Quiet) (ws : Workspace) (options : PassOptions) :
    Leads (forwardPass ws notify options) net
      (fun _ net' => ∃ mode last, After ws options s mode s.forward.length net last ∧
        net' = { last with evaluating := false, backwardReady := keeps options mode })
      (fun e _ => Stopped ws options net s.forward e) := by
  rw [forwardPass_eq ws options s.forward.length, leads_bind]
  have whole := leads_forwardTo wf runs silent quiet ws options s.forward.length
  rw [List.take_length] at whole
  apply whole.mono _ fun _ _ h => h
  rintro ⟨mode, _⟩ last ⟨rfl, after⟩
  obtain ⟨base, val, prepared, values, between⟩ := after.state
  simp only [List.drop_length, forwardSteps, leads_bind, leads_pure, leave, leads_modify]
  refine leads_silent silent ?_ _ ?_
  · exact between.follows.quiet (prepared.follows.quiet quiet)
  · rintro _ ⟨journal, profile, rfl⟩
    refine ⟨mode, { last with journal, profile }, ?_, rfl⟩
    exact ⟨after.named, after.idle, after.ready, base, val, prepared, values,
      between.recorded ⟨_, _, rfl⟩⟩

end Net

end Backprop
