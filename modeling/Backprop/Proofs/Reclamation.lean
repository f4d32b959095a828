import Mathlib
import Backprop.Proofs.Evaluation
import Backprop.Proofs.Nets
/-!
# Storage is given back exactly when nobody needs it

While storage is conserved, a slot holds a value exactly as long as a later step reads it.

* `Net.NeverNone`: no value that a pass computes is nothing, so that "holds a value" can be read off
  the table.
* `After.holds_iff`, `Returning.holds_iff`: what is held after a step of a forward pass and of a
  backward pass.
* `Reached.reclamation` puts them together for nets that calls led to.
-/

namespace Backprop

namespace Net

variable {ws : Workspace} {terminals : List Value} {options : NetOptions} {s : Schedule}
  {net net' base : Net} {val : Valuation} {start : Cotangent} {r : Slot} {pass : PassOptions}
  {mode : Mode}

/-- Whether a slot holds a value. -/
def Holds (net : Net) (r : Slot) : Prop := net.table.valueAt r ≠ .none

/-- No value is nothing: neither those that leaves are bound to nor those that instructions
compute. -/
def NeverNone (net : Net) (inputs : Keywords) (testing : Bool) : Prop :=
  ∀ k val, net.valuesAfter testing (net.boundValuation inputs) (net.schedule.forward.take k) =
      .ok val →
    ∀ r, net.schedule.IsLeaf r ∨ Written (net.schedule.forward.take k) r → val r ≠ .none

theorem HoldsWhile.holds_iff {v : Value} {p : Prop} (h : net.HoldsWhile r v p)
    (some : p → v ≠ .none) : net.Holds r ↔ p := by
  constructor
  · intro holds
    by_contra unwanted
    exact holds (h.2 unwanted)
  · intro wanted
    unfold Holds
    rw [h.1 wanted]
    exact some wanted

theorem NeverNone.of_valuesAfter (wf : net.schedule.WellFormed) {inputs : Keywords} {testing : Bool}
    (never : net.NeverNone inputs testing)
    (values : net.valuesAfter testing (net.boundValuation inputs) net.schedule.forward = .ok val)
    (has : net.schedule.HasSlot r) : val r ≠ .none := by
  have whole := never net.schedule.forward.length val
  rw [List.take_length] at whole
  exact whole values r (wf.available has)

/-- Whether running all instructions leaves a value in every slot. -/
def fills (net : Net) (inputs : Keywords) (testing : Bool) : Bool :=
  match net.valuesAfter testing (net.boundValuation inputs) net.schedule.forward with
  | .ok val => net.schedule.slots.all fun info => !(val info.index).isNone
  | .error _ => false

/-- A run with a value in every slot at its end computes nothing at no time. -/
theorem NeverNone.of_fills (wf : net.schedule.WellFormed) (runs : Runs net.schedule net)
    {inputs : Keywords} {testing : Bool} (fills : net.fills inputs testing = true) :
    net.NeverNone inputs testing := by
  intro k v values r available
  unfold Net.fills at fills
  split at fills
  next val whole =>
    obtain ⟨w, run, agrees⟩ := valuesAfter_of_isForward wf runs
      (isForward_of_valuesAfter wf runs whole) _ _ (List.take_append_drop k _).symm
    obtain rfl : v = w := Except.ok.inj (values.symm.trans run)
    have has : net.schedule.HasSlot r := by
      rcases available with ⟨info, mem, index, _⟩ | ⟨i, hi, output⟩
      · exact ⟨info, mem, index⟩
      · exact wf.outputs_hasSlot (List.mem_of_mem_take hi) output
    obtain ⟨info, mem, rfl⟩ := has
    have some := List.all_eq_true.mp fills info mem
    rw [agrees _ available]
    intro none
    rw [none] at some
    cases some
  next => cases fills

/-! ### Forward -/

/-- After a step of a forward pass a slot holds a value if it has one and somebody needs it. -/
theorem After.holds_iff {k : Nat} (schedule : net.schedule = s)
    (after : After ws pass s mode k net net') (conserve : net.config.conserveMemory = true)
    (never : net.NeverNone pass.inputs (mode == Mode.test)) (has : s.HasSlot r) :
    net'.Holds r ↔ (s.IsLeaf r ∨ Written (s.forward.take k) r) ∧
      (s.IsParam r ∨ s.IsRetained r ∨ Read (s.forward.drop k) r ∨
        keeps pass mode = true ∧ Read s.backward r) := by
  obtain ⟨base, val, prepared, values, between⟩ := after.state
  have conserve' : base.config.conserveMemory = true := by
    rw [prepared.follows.config]
    exact conserve
  subst schedule
  have some := never k val values r
  rw [(between.values r has).holds_iff fun p => some p.1, conserve']
  simp only [Schedule.Wanted, Schedule.read_readersAfter, Bool.true_eq_false, false_or]

/-- What the next step of a forward pass reads is there. -/
theorem After.reads_held (wf : s.WellFormed) {k : Nat} (schedule : net.schedule = s)
    (after : After ws pass s mode k net net') (conserve : net.config.conserveMemory = true)
    (never : net.NeverNone pass.inputs (mode == Mode.test)) {i : Instruction}
    (next : s.forward[k]? = some i) (reads : r ∈ i.reads) : net'.Holds r := by
  obtain ⟨bound, rfl⟩ := List.getElem?_eq_some_iff.mp next
  have rest := List.drop_eq_getElem_cons bound
  have split : s.forward = s.forward.take k ++ s.forward[k] :: s.forward.drop (k + 1) := by
    rw [← rest, List.take_append_drop]
  have has := wf.reads_hasSlot (List.getElem_mem bound) reads
  rw [after.holds_iff schedule conserve never has, rest]
  exact ⟨wf.readsBefore _ _ _ split r reads, .inr (.inr (.inl ⟨_, List.mem_cons_self, reads⟩))⟩

/-! ### Backward -/

/-- After a step of a backward pass a slot holds a value if somebody needs it. -/
theorem Returning.holds_iff {done rest : List Instruction}
    (state : Returning s start val base net done rest)
    (conserve : base.config.conserveMemory = true) (some : ∀ r, s.HasSlot r → val r ≠ .none)
    (has : s.HasSlot r) : net.Holds r ↔ s.IsParam r ∨ s.IsRetained r ∨ Read rest r := by
  rw [(state.values r has).holds_iff fun _ => some r has, conserve]
  simp only [Schedule.Wanted, Bool.true_eq_false, false_or]

/-- A backward pass leaves no derivative of a slot that nobody keeps. -/
theorem Returning.cleared {done rest : List Instruction}
    (state : Returning s start val base net done rest)
    (conserve : base.config.conserveMemory = true) (has : s.HasSlot r) (written : Written done r)
    (param : ¬ s.IsParam r) (retained : ¬ s.IsRetained r) :
    net.table.derAt r = .int 0 ∧ net.table.partsAt r = [] := by
  refine ⟨state.dropped r has written ?_, state.read r has written⟩
  rw [conserve]
  simp [Schedule.Wanted, param, retained]

/-! ### Nets that calls lead to -/

/-- With storage conserved and no value nothing: after a step of a forward pass a slot holds a value
if it is a leaf or was written, and it is a parameter, kept, or read by a later step, among them those
of a backward pass that is to come. After a step of a backward pass it does if it is a parameter,
kept, or read by a later step. So every step finds what it reads; and after a normal evaluation
exactly parameters and what is kept hold values, and all other slots of operations on the way to a
gradient have no derivative and none that waits. -/
theorem Reached.reclamation (built : ws.Built) (exist : ∀ n ∈ terminalNodes terminals, ws.Exists n)
    (reached : Reached ws terminals options net) (quiet : net.Quiet)
    (conserve : options.config.conserveMemory = true) (now : Workspace) (pass : PassOptions)
    (named : Mode.ofName pass.mode = .ok mode)
    (never : net.NeverNone pass.inputs (mode == Mode.test)) :
    (∀ k found net', forwardTo now (notifyObservers now) pass k net = .ok found net' →
      (∀ r, net.schedule.HasSlot r → (net'.Holds r ↔
        (net.schedule.IsLeaf r ∨ Written (net.schedule.forward.take k) r) ∧
          (net.schedule.IsParam r ∨ net.schedule.IsRetained r ∨
            Read (net.schedule.forward.drop k) r ∨
            keeps pass mode = true ∧ Read net.schedule.backward r))) ∧
      ∀ i, net.schedule.forward[k]? = some i → ∀ r ∈ i.reads, net'.Holds r) ∧
    (keeps pass mode = true → ∀ mid, Net.forward now pass net = .ok ⟨⟩ mid → ∀ seed k found net',
      backwardTo now (notifyObservers now) seed k mid = .ok found net' →
      (∀ r, net.schedule.HasSlot r → (net'.Holds r ↔
        net.schedule.IsParam r ∨ net.schedule.IsRetained r ∨
          Read (net.schedule.backward.drop k) r)) ∧
      ∀ i, net.schedule.backward[k]? = some i → ∀ r ∈ i.reads, net'.Holds r) ∧
    (mode = .normal → ∀ seed net', Net.evaluate now pass seed net = .ok ⟨⟩ net' →
      (∀ r, net.schedule.HasSlot r →
        (net'.Holds r ↔ net.schedule.IsParam r ∨ net.schedule.IsRetained r)) ∧
      ∀ info ∈ net.schedule.slots, info.kind = .op → info.requiresGradient = true →
        info.retained = false →
        net'.table.derAt info.index = .int 0 ∧ net'.table.partsAt info.index = []) := by
  obtain ⟨⟨id, order, marks, sched⟩, runs, _, _, config⟩ := reached.spec built exist
  have wf := sched.wellFormed
  have silent := silent_notifyObservers now
  have conserve' : net.config.conserveMemory = true := by rw [config]; exact conserve
  refine ⟨fun k found net' run => ?_, fun keep mid run seed k found net' run' => ?_,
    fun normal seed net' run => ?_⟩
  · obtain ⟨_, after⟩ :=
      (leads_of_ok run).mp (leads_forwardTo wf runs silent quiet now pass k)
    obtain rfl : found.1 = mode := Except.ok.inj (after.named.symm.trans named)
    exact ⟨fun r has => after.holds_iff rfl conserve' never has,
      fun i next r reads => after.reads_held wf rfl conserve' never next reads⟩
  · obtain ⟨mode', last, after, rfl⟩ :=
      (leads_of_ok run).mp (leads_forwardPass wf runs silent quiet now pass)
    obtain rfl : mode' = mode := Except.ok.inj (after.named.symm.trans named)
    rw [keep] at run'
    obtain ⟨val, values, follows, _, kept⟩ := after.kept wf keep
    obtain ⟨_, returned⟩ :=
      (leads_of_ok run').mp (leads_backwardTo wf kept silent (follows.quiet quiet) now seed k)
    have conserve'' : last.config.conserveMemory = true := by rw [follows.config]; exact conserve'
    have holds : ∀ r, net.schedule.HasSlot r → _ := fun r has => returned.holds_iff conserve''
      (fun r has => never.of_valuesAfter wf values has) has
    refine ⟨holds, fun i next r reads => ?_⟩
    obtain ⟨bound, rfl⟩ := List.getElem?_eq_some_iff.mp next
    have has := wf.reads_hasSlot (wf.mem_forward_of_backward (List.getElem_mem bound)) reads
    rw [holds r has, List.drop_eq_getElem_cons bound]
    exact .inr (.inr ⟨_, List.mem_cons_self, reads⟩)
  · have name : pass.mode = "normal" := by
      subst normal
      unfold Mode.ofName at named
      split at named
      next eq => exact eq
      · split at named
        · cases named
        · split at named <;> cases named
    have evaluated : Evaluated pass net.schedule seed net net' :=
      (leads_of_ok run).mp (leads_evaluatePass wf runs silent quiet now pass name seed)
    obtain ⟨val, last, values, returned, rfl⟩ := evaluated
    subst normal
    refine ⟨fun r has => ?_, fun info mem op gradient free => ?_⟩
    · have holds := returned.holds_iff conserve'
        (fun r has => never.of_valuesAfter wf values has) has
      simp only [read_nil, or_false] at holds
      exact holds
    · obtain ⟨i, hi, output, requires⟩ := sched.compiled.op_writer mem op
      have written : Written (net.schedule.forward.filter (·.requiresGradient)) info.index :=
        ⟨i, List.mem_filter.mpr ⟨hi, requires.trans gradient⟩, output⟩
      refine returned.cleared conserve' ⟨info, mem, rfl⟩ written ?_ ?_
      · rw [wf.isParam_iff mem, wf.persistent info mem, op]
        decide
      · rw [wf.isRetained_iff mem, free]
        decide

/-- After an evaluation of `x * p + x` just `p` and the sum hold values. -/
theorem reclamation_sample : ∃ now net net',
    Reached Sample.graph Sample.terminals Sample.options net ∧
      Net.evaluate now Sample.pass (.int 1) net = .ok ⟨⟩ net' ∧
      ∀ r, net.schedule.HasSlot r →
        (net'.Holds r ↔ net.schedule.IsParam r ∨ net.schedule.IsRetained r) := by
  have check : Sample.graph.builds Sample.terminals Sample.options (fun now net =>
      !net.observed && net.fills Sample.pass.inputs false &&
        net.succeeds (Net.evaluate now Sample.pass (.int 1)) fun _ => true) = true := by cbv
  obtain ⟨now, net, reached, check⟩ := Reached.of_builds check
  simp only [Bool.and_eq_true, Bool.not_eq_true'] at check
  obtain ⟨⟨alone, fills⟩, run⟩ := check
  obtain ⟨net', run, _⟩ := succeeds_iff.mp run
  obtain ⟨⟨_, _, _, sched⟩, runs, _⟩ := reached.spec Sample.graph_built Sample.terminals_exist
  have quiet : net.Quiet := fun observed => by rw [alone] at observed; cases observed
  have held := reached.reclamation Sample.graph_built Sample.terminals_exist quiet rfl now
    Sample.pass rfl (NeverNone.of_fills sched.wellFormed runs fills)
  exact ⟨now, net, net', reached, run, (held.2.2 rfl _ _ run).1⟩

end Net

end Backprop
