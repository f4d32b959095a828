import Mathlib
import Backprop.Proofs.Steady
import Backprop.Proofs.Whole
import Backprop.Proofs.Reading
/-!
# Evaluations that accumulate

Evaluations of one net one after the other, of which all but the first keep the derivatives of parameters.

* `Net.Measures`: the derivatives of slots stand for elements of commutative monoids, whose addition is
  that of the table.
* `Net.Adds`: an evaluation leaves what it would leave alone, added to the derivatives of parameters that it
  found. `Steady.evaluate_alone` and `Steady.forward_alone` say so of the two kinds of evaluations.
* `Net.Batches` are evaluations one after the other; `Reached.sub_batches` is about all of them.
-/

namespace Backprop

namespace Net

variable {s : Schedule} {net net' base last : Net} {val : Valuation} {start : Cotangent} {r : Slot}
  {now : Workspace} {pass : PassOptions} {seed : Value}

/-- What derivatives stand for: nothing accumulated is zero, and the table adds what they stand for. -/
structure Measures (net : Net) {G : Slot → Type*} [∀ r, AddCommMonoid (G r)]
    (means : ∀ r, Value → G r → Prop) : Prop where
  zero : ∀ r, net.schedule.HasSlot r → ∀ a, means r (.int 0) a ↔ a = 0
  add : ∀ r, net.schedule.HasSlot r → ∀ v w a b, means r v a → means r w b →
    ∃ x, net.table.addition v w = .ok x ∧ means r x (a + b)

/-- Instructions that take derivatives which stand for something send such. -/
def Reacting (net : Net) (val : Valuation) {G : Slot → Type*} (means : ∀ r, Value → G r → Prop) : Prop :=
  ∀ i ∈ net.schedule.forward, i.requiresGradient = true → ∀ (adj : Cotangent) ders,
    (∀ o ∈ i.outputs, ∀ d, adj o = .ok d → ∃ a, means o d a) → net.reaction val adj i = .ok ders →
      ∀ r, ∀ p ∈ i.entriesFor ders r, ∃ a, means r p.2 a

section
variable {G : Slot → Type*} [∀ r, AddCommMonoid (G r)] {means : ∀ r, Value → G r → Prop}
variable (measures : net.Measures means)
include measures

theorem Measures.nothing (has : net.schedule.HasSlot r) : means r (.int 0) 0 :=
  (measures.zero r has 0).mpr rfl

theorem Measures.accumulated (has : net.schedule.HasSlot r) {v w : Value} {a b : G r} (hv : means r v a)
    (hw : means r w b) :
    ∃ x, VariableTable.accumulated net.table.addition v w = .ok x ∧ means r x (a + b) := by
  unfold VariableTable.accumulated
  split
  next zero =>
    obtain rfl : v = .int 0 := by
      cases v with
      | int k => simpa [Value.isZero] using zero
      | _ => cases zero
    rw [(measures.zero r has a).mp hv, zero_add]
    exact ⟨w, rfl, hw⟩
  next => exact measures.add r has v w a b hv hw

/-- Contributions that stand for something add up to something of their own, whatever they are added to. -/
theorem Measures.totalOf (has : net.schedule.HasSlot r) : ∀ {l : List Value}, (∀ v ∈ l, ∃ a, means r v a) →
    ∃ h, ∀ d g, means r d g → ∃ t, net.totalOf d l = .ok t ∧ means r t (g + h) := by
  intro l
  induction l with
  | nil => exact fun _ => ⟨0, fun d g hd => ⟨d, rfl, by simpa using hd⟩⟩
  | cons v l ih =>
    intro mean
    obtain ⟨a, hv⟩ := mean v List.mem_cons_self
    obtain ⟨h, rest⟩ := ih fun w hw => mean w (List.mem_cons_of_mem _ hw)
    refine ⟨a + h, fun d g hd => ?_⟩
    obtain ⟨x, first, hx⟩ := measures.accumulated has hd hv
    obtain ⟨t, total, ht⟩ := rest x (g + a) hx
    refine ⟨t, ?_, by rwa [← add_assoc]⟩
    rw [Net.totalOf, List.foldlM_cons, first]
    exact total

/-- What instructions have sent stands for something if what their outputs start with does. -/
theorem Measures.received (wf : net.schedule.WellFormed) (reacting : net.Reacting val means)
    (starts : ∀ i ∈ net.schedule.forward, ∀ o ∈ i.outputs, ∀ d, start o = .ok d → ∃ a, means o d a) :
    ∀ {l : List Instruction}, l ⊆ net.schedule.forward → ∀ r parts,
      net.received start val l r = .ok parts → ∀ p ∈ parts, ∃ a, means r p.2 a := by
  intro l
  induction l with
  | nil =>
    rintro - r _ ⟨⟩
    simp
  | cons i l ih =>
    intro sub r parts received
    obtain ⟨hi, sub⟩ := List.cons_subset.mp sub
    rw [received_cons] at received
    obtain ⟨own, sends, received⟩ := ok_of_bind received
    obtain ⟨others, rest, received⟩ := ok_of_bind received
    cases received
    have reached : ∀ o ∈ i.outputs, ∀ d, net.adjointAfter start val l o = .ok d → ∃ a, means o d a := by
      intro o ho d adjoint
      obtain ⟨parts, received, adjoint⟩ := ok_of_bind adjoint
      obtain ⟨d', begins, total⟩ := ok_of_bind adjoint
      obtain ⟨a, hd⟩ := starts i hi o ho d' begins
      obtain ⟨h, sums⟩ := measures.totalOf (wf.outputs_hasSlot hi ho)
        (List.forall_mem_map.mpr (ih sub o parts received))
      obtain ⟨t, total', ht⟩ := sums d' a hd
      cases total.symm.trans total'
      exact ⟨a + h, ht⟩
    refine List.forall_mem_append.mpr ⟨?_, ih sub r others rest⟩
    unfold sent at sends
    split at sends
    next sendsTo =>
      obtain ⟨ders, reacts, sends⟩ := ok_of_bind sends
      cases sends
      simp only [Instruction.sendsTo, Bool.and_eq_true] at sendsTo
      exact reacting i hi sendsTo.1 _ ders reached reacts r
    next =>
      cases sends
      simp

end

/-! ### Evaluations alone -/

section
variable {G : Slot → Type*} [∀ r, AddCommMonoid (G r)] {means : ∀ r, Value → G r → Prop}

/-- An evaluation of `net` leaves in `last` what another one leaves in `alone`, but that it adds the
derivatives of parameters to those that it starts with. -/
structure Adds (s : Schedule) (means : ∀ r, Value → G r → Prop) (keep : Bool) (net last alone : Net) :
    Prop where
  values : ∀ r, s.HasSlot r → last.table.valueAt r = alone.table.valueAt r
  ders : ∀ r, s.HasSlot r → ¬ s.IsParam r → last.table.readDer r = alone.table.readDer r
  params : ∀ r, s.IsParam r → ∃ d h, alone.table.readDer r = .ok d ∧ means r d h ∧
    ∀ v g, net.table.startDer keep r = .ok v → means r v g →
      ∃ t, last.table.readDer r = .ok t ∧ means r t (g + h)

namespace Steady

variable (steady : Steady net net') (runs : Runs net.schedule net)
include steady

theorem startAdjoint (keep : Bool) (seed : Value) (r : Slot) : net'.startAdjoint keep seed r =
    net'.table.startDer keep r >>= fun d => net.totalOf d (net.seedsAt seed r) := by
  unfold Net.startAdjoint
  rw [totalOf_eq steady.follows.addition, seedsAt_eq steady.follows.config steady.schedule]

include runs

/-- Slots that are no parameters start alike in all evaluations. -/
theorem startAdjoint_eq (wf : net.schedule.WellFormed) (has : net.schedule.HasSlot r)
    (other : ¬ net.schedule.IsParam r) (keep keep' : Bool) (seed : Value) :
    net'.startAdjoint keep seed r = net.startAdjoint keep' seed r := by
  rw [steady.startAdjoint, (Steady.refl runs).startAdjoint,
    steady.follows.runs.startDer_of_not_isParam wf has other, runs.startDer_of_not_isParam wf has other]

theorem startAdjoint_output (wf : net.schedule.WellFormed) (keep keep' : Bool) (seed : Value) :
    ∀ i ∈ net.schedule.forward, ∀ o ∈ i.outputs,
      net'.startAdjoint keep seed o = net.startAdjoint keep' seed o := fun _ hi _ ho =>
  steady.startAdjoint_eq runs wf (wf.outputs_hasSlot hi ho) (not_isParam_of_output wf hi ho) keep keep' seed

end Steady

/-- What a slot that no instruction writes is left with is what it starts with, its seeds and what was sent to
it, added up. -/
theorem Steady.readDer (steady : Steady net net') {keep : Bool} {done : List Instruction}
    (state : Returning net.schedule (net'.startAdjoint keep seed) val net last done [])
    (has : net.schedule.HasSlot r) (unwritten : ¬ Written done r) {parts : List (Position × Value)}
    (received : net.received (net'.startAdjoint keep seed) val done r = .ok parts) {d t : Value}
    (begins : net'.table.startDer keep r = .ok d)
    (total : net.totalOf d (net.seedsAt seed r ++ parts.map (·.2)) = .ok t) :
    last.table.readDer r = .ok t := by
  rw [state.readDer has unwritten, Net.adjointAfter, received, steady.startAdjoint, begins, ← total,
    totalOf_append]
  rfl

/-- What is started anew stands for something if the seeds do. -/
theorem Measures.startAdjoint (measures : net.Measures means) (has : net.schedule.HasSlot r)
    (seeds : ∀ v ∈ net.seedsAt seed r, ∃ a, means r v a) :
    ∃ d, net.startAdjoint false seed r = .ok d ∧ ∃ a, means r d a := by
  obtain ⟨h, sums⟩ := measures.totalOf has seeds
  obtain ⟨t, total, ht⟩ := sums (.int 0) 0 (measures.nothing has)
  exact ⟨t, bind_eq_of_ok (VariableTable.startDer_false _ r) total, _, ht⟩

/-- What a backward pass leaves at a parameter is what it starts with and what one leaves that starts anew. -/
theorem Measures.param (measures : net.Measures means) (steady : Steady net net')
    (wf : net.schedule.WellFormed) (runs : Runs net.schedule net) (reacting : net.Reacting val means)
    (seeds : ∀ r, net.schedule.HasSlot r → ∀ v ∈ net.seedsAt seed r, ∃ a, means r v a)
    {keep : Bool} {done : List Instruction} (sub : done ⊆ net.schedule.forward) {alone : Net}
    (state : Returning net.schedule (net'.startAdjoint keep seed) val net last done [])
    (state' : Returning net.schedule (net.startAdjoint false seed) val net alone done [])
    (param : net.schedule.IsParam r) :
    ∃ d h, alone.table.readDer r = .ok d ∧ means r d h ∧
      ∀ v g, net'.table.startDer keep r = .ok v → means r v g →
        ∃ t, last.table.readDer r = .ok t ∧ means r t (g + h) := by
  have has := param.hasSlot
  have unwritten : ¬ Written done r := by
    rintro ⟨i, hi, ho⟩
    exact not_isParam_of_output wf (sub hi) ho param
  obtain ⟨-, received⟩ := state.waits r has unwritten
  obtain ⟨-, received'⟩ := state'.waits r has unwritten
  have same := received
  rw [received_congr_outputs _ fun i hi => steady.startAdjoint_output runs wf keep false seed i (sub hi),
    received', Except.ok.injEq] at same
  have begins : ∀ i ∈ net.schedule.forward, ∀ o ∈ i.outputs, ∀ d, net.startAdjoint false seed o = .ok d →
      ∃ a, means o d a := by
    intro i hi o ho d begun
    have there := wf.outputs_hasSlot hi ho
    obtain ⟨d', begun', mean⟩ := measures.startAdjoint there (seeds o there)
    cases begun.symm.trans begun'
    exact mean
  have sent := measures.received wf reacting begins sub r _ received'
  obtain ⟨h, sums⟩ := measures.totalOf has
    (List.forall_mem_append.mpr ⟨seeds r has, List.forall_mem_map.mpr sent⟩)
  obtain ⟨d, total, hd⟩ := sums (.int 0) 0 (measures.nothing has)
  refine ⟨d, h, ?_, by rwa [zero_add] at hd, fun v g old hv => ?_⟩
  · exact (Steady.refl runs).readDer state' has unwritten received' (VariableTable.startDer_false _ r) total
  · obtain ⟨t, total', ht⟩ := sums v g hv
    rw [← same] at received
    exact ⟨t, steady.readDer state has unwritten received old total', ht⟩

section
variable (steady : Steady net net') (pending : net'.pending = net.pending) (wf : net.schedule.WellFormed)
  (runs : Runs net.schedule net) (idle : net.evaluating = false) (quiet : net.Quiet)
include steady pending wf runs idle quiet

/-- A normal evaluation that succeeds would have succeeded with all derivatives started anew, and it adds
what that evaluation yields to the derivatives of parameters. -/
theorem Steady.evaluate_alone (measures : net.Measures means) (normal : pass.mode = "normal")
    (seeds : ∀ r, net.schedule.HasSlot r → ∀ v ∈ net.seedsAt seed r, ∃ a, means r v a)
    (reacting : ∀ val, net.IsForward pass.inputs false val → net.Reacting val means)
    (run : Net.evaluate now pass seed net' = .ok ⟨⟩ last) :
    ∃ alone, Net.evaluate now { pass with accumulate := false } seed net = .ok ⟨⟩ alone ∧
      Adds net.schedule means pass.accumulate net' last alone := by
  have silent := silent_notifyObservers now
  have runs' := steady.follows.runs
  have quiet' := steady.follows.quiet quiet
  have began := (leads_of_ok run).mp (leads_evaluatePass_began wf runs' silent quiet' now pass seed)
  obtain ⟨val, end', values, returned, rfl⟩ :=
    (leads_of_ok run).mp (leads_evaluatePass wf runs' silent quiet' now pass normal seed)
  rw [steady.follows.valuesAfter, steady.boundValuation wf runs pending] at values
  have sub : net.schedule.forward.filter (·.requiresGradient) ⊆ net.schedule.forward :=
    fun i hi => List.mem_of_mem_filter hi
  have state := returned.rebase wf steady.follows (fun _ _ => rfl) fun i hi => sub hi
  have starts := steady.startAdjoint_output runs wf pass.accumulate false seed
  have ends := leads_evaluatePass wf runs silent quiet now { pass with accumulate := false } normal seed
  cases run' : Net.evaluate now { pass with accumulate := false } seed net with
  | error e failed =>
    refine absurd ((leads_of_error run').mp ends)
      (not_failed normal idle (steady.ready runs pending began.ready) ?_ values ?_ ?_)
    · rw [← seedable_eq steady.follows.config steady.schedule]
      exact began.seedable normal
    · exact fun r has => (measures.startAdjoint has (seeds r has)).imp fun _ begun => begun.1
    · exact fun done i rest split => state.reaction_of_split wf starts split
  | ok _ alone =>
    obtain ⟨val', end'', values', returned', rfl⟩ := (leads_of_ok run').mp ends
    obtain rfl : val = val' := Except.ok.inj (values.symm.trans values')
    refine ⟨_, rfl, ⟨fun r has => HoldsWhile.unique (state.values r has) (returned'.values r has),
      fun r has other => ?_, fun r param => ?_⟩⟩
    · have same := state.readDer_congr returned' (fun i hi => starts i (sub hi)) has
        (steady.startAdjoint_eq runs wf has other _ _ _)
      exact same
    · have added := measures.param steady wf runs (reacting val (isForward_of_valuesAfter wf runs values))
        seeds sub state returned' param
      exact added

/-- So would one without a backward pass, which leaves the derivatives of parameters as they are. -/
theorem Steady.forward_alone (measures : net.Measures means) (other : pass.mode ≠ "normal")
    (run : Net.evaluate now pass seed net' = .ok ⟨⟩ last) :
    ∃ alone, Net.evaluate now { pass with accumulate := false } seed net = .ok ⟨⟩ alone ∧
      Adds net.schedule means pass.accumulate net' last alone ∧
      ∀ r, net.schedule.IsParam r → alone.table.readDer r = .ok (.int 0) := by
  have silent := silent_notifyObservers now
  have runs' := steady.follows.runs
  have quiet' := steady.follows.quiet quiet
  have began := (leads_of_ok run).mp (leads_evaluatePass_began wf runs' silent quiet' now pass seed)
  obtain ⟨-, ⟨mode, val, named, values, holds⟩, ders⟩ :=
    (leads_of_ok run).mp (leads_evaluatePass_forward wf runs' silent quiet' now pass other seed)
  rw [steady.follows.valuesAfter, steady.boundValuation wf runs pending] at values
  rw [steady.follows.config] at holds
  have anew := net.table.startDer_false
  have ends :=
    leads_evaluatePass_forward wf runs silent quiet now { pass with accumulate := false } other seed
  cases run' : Net.evaluate now { pass with accumulate := false } seed net with
  | error e failed =>
    exact absurd ((leads_of_error run').mp ends)
      (not_stopped_of_named named idle (steady.ready runs pending began.ready) values)
  | ok _ alone =>
    obtain ⟨-, ⟨mode', val', named', values', holds'⟩, ders'⟩ := (leads_of_ok run').mp ends
    obtain rfl : mode = mode' := Except.ok.inj (named.symm.trans named')
    obtain rfl : val = val' := Except.ok.inj (values.symm.trans values')
    refine ⟨alone, rfl, ⟨fun r has => HoldsWhile.unique (holds r has) (holds' r has), fun r has other => ?_,
      fun r param => ?_⟩, fun r param => (ders' r param.hasSlot).trans (anew r)⟩
    · rw [ders r has, ders' r has, runs'.startDer_of_not_isParam wf has other, anew]
    · have has := param.hasSlot
      refine ⟨.int 0, 0, (ders' r has).trans (anew r), measures.nothing has, fun v g old hv => ?_⟩
      exact ⟨v, (ders r has).trans old, by rwa [add_zero]⟩

end

/-! ### Evaluations one after the other -/

/-- An evaluation, and the values that wait for inputs when it starts. -/
structure Batch where
  waiting : List (Slot × Value) := []
  now : Workspace
  pass : PassOptions
  seed : Value := .none

namespace Batch

/-- The net with these values waiting. -/
def staged (b : Batch) (net : Net) : Net := { net with pending := b.waiting }

def run (b : Batch) : NetM Unit := do
  modify b.staged
  evaluate b.now b.pass b.seed

/-- The same evaluation with the derivatives of parameters started anew. -/
def alone (b : Batch) : Batch := { b with pass := { b.pass with accumulate := false } }

def isNormal (b : Batch) : Bool := b.pass.mode == "normal"

/-- The seeds of an evaluation and the derivatives that instructions send in it stand for something. -/
structure Measured (b : Batch) (net : Net) (means : ∀ r, Value → G r → Prop) : Prop where
  seeds : ∀ r, net.schedule.HasSlot r → ∀ v ∈ net.seedsAt b.seed r, ∃ a, means r v a
  reacting : ∀ val, (b.staged net).IsForward b.pass.inputs false val → (b.staged net).Reacting val means

/-- What an evaluation of a net alone yields for a parameter. -/
def Yields (b : Batch) (net : Net) (means : ∀ r, Value → G r → Prop) (r : Slot) (g : G r) : Prop :=
  ∃ done d, b.alone.run net = .ok ⟨⟩ done ∧ outcome (getDer (.int r)) done = .ok d ∧ means r d g

/-- What the normal ones among some evaluations yield for a parameter, each alone. -/
def Shares (bs : List Batch) (net : Net) (means : ∀ r, Value → G r → Prop) (r : Slot) (shares : List (G r)) :
    Prop :=
  List.Forall₂ (fun b g => b.Yields net means r g) (bs.filter (·.isNormal)) shares

omit [∀ r, AddCommMonoid (G r)] in
theorem Shares.cons {b : Batch} {bs : List Batch} {own shares : List (G r)} (h : Shares [b] net means r own)
    (h' : Shares bs net means r shares) : Shares (b :: bs) net means r (own ++ shares) := by
  unfold Shares at *
  rw [← List.singleton_append, List.filter_append]
  exact List.rel_append h h'

end Batch

/-- Between two evaluations a net is where it was, and its parameters keep their values and derivatives. -/
structure Meanwhile (net net' : Net) : Prop extends Steady net net' where
  ders : ∀ r, net.schedule.IsParam r → net'.table.readDer r = net.table.readDer r

theorem Meanwhile.refl (runs : Runs net.schedule net) : Meanwhile net net := ⟨.refl runs, fun _ _ => rfl⟩

/-- Evaluations of one net that all succeed. -/
inductive Batches : Net → List Batch → Net → Prop where
  | nil (net : Net) : Batches net [] net
  | cons {net mid next last : Net} {b : Batch} {rest : List Batch} : Meanwhile net mid →
      b.run mid = .ok ⟨⟩ next → Batches next rest last → Batches net (b :: rest) last

theorem outcome_getDer_int (wf : s.WellFormed) (runs : Runs s net) (has : s.HasSlot r) :
    outcome (getDer (.int r)) net = net.table.readDer r := by
  have here := (runs.has wf r).mpr has
  obtain ⟨low, high⟩ := here
  exact outcome_getDer ⟨low, high⟩ (by simp [slotOfKey, low, high])

theorem outcome_getValue_int (wf : s.WellFormed) (runs : Runs s net) (has : s.HasSlot r) :
    outcome (getValue (.int r)) net = .ok (net.table.valueAt r) := by
  obtain ⟨low, high⟩ := (runs.has wf r).mpr has
  apply outcome_of_leads
  have slot : net.slotOfKey (.int r) = .ok r := by simp [slotOfKey, low, high]
  simp only [getValue, leads_bind, leads_get, leads_ofExcept, slot, leads_onTable]
  rw [VariableTable.leads_getValue ⟨low, high⟩]

section
variable (wf : base.schedule.WellFormed) (runs : Runs base.schedule base) (quiet : base.Quiet)
include wf quiet

/-- An evaluation keeps a net steady. -/
theorem Batch.steady {b : Batch} (steady : Steady base net) (run : b.run net = .ok ⟨⟩ net') :
    Steady base net' := by
  have runs := steady.runs
  have wf : net.schedule.WellFormed := by rwa [steady.schedule]
  have kept : Steady (b.staged net) net' := Steady.of_evaluate wf
    ⟨runs.schedule, runs.infos, runs.placed⟩ (steady.follows.quiet quiet) run
  exact steady.trans kept.of_staged

variable (idle : base.evaluating = false) (measures : base.Measures means)
include runs idle measures

/-- One evaluation adds what it yields alone. -/
theorem Batch.step {b : Batch} (measured : b.isNormal = true → b.Measured base means)
    (steady : Steady base net) (run : b.run net = .ok ⟨⟩ net') :
    ∃ alone, b.alone.run base = .ok ⟨⟩ alone ∧ Adds base.schedule means b.pass.accumulate net net' alone ∧
      (b.isNormal = false → ∀ r, base.schedule.IsParam r → alone.table.readDer r = .ok (.int 0)) := by
  have staged : Steady (b.staged base) (b.staged net) := steady.staged b.waiting
  have runs' : Runs (b.staged base).schedule (b.staged base) := ⟨runs.schedule, runs.infos, runs.placed⟩
  have measures' : (b.staged base).Measures means := ⟨measures.zero, measures.add⟩
  cases normal : b.isNormal with
  | true =>
    obtain ⟨seeds, reacting⟩ := measured normal
    obtain ⟨alone, run', adds⟩ := staged.evaluate_alone rfl wf runs' idle quiet measures'
      (beq_iff_eq.mp normal) seeds reacting run
    exact ⟨alone, run', ⟨adds.values, adds.ders, adds.params⟩, fun forward => by cases forward⟩
  | false =>
    obtain ⟨alone, run', adds, none⟩ := staged.forward_alone rfl wf runs' idle quiet measures'
      (beq_eq_false_iff_ne.mp normal) run
    exact ⟨alone, run', ⟨adds.values, adds.ders, adds.params⟩, fun _ => none⟩

/-- What one evaluation makes of the derivative of a parameter: it adds what a normal evaluation alone yields,
and nothing in other modes. -/
theorem Batch.share {b : Batch} (measured : b.isNormal = true → b.Measured base means)
    (steady : Steady base net) (run : b.run net = .ok ⟨⟩ net') (param : base.schedule.IsParam r) {v : Value}
    {g : G r} (old : net.table.startDer b.pass.accumulate r = .ok v) (hv : means r v g) :
    ∃ shares, Batch.Shares [b] base means r shares ∧
      ∃ t, net'.table.readDer r = .ok t ∧ means r t (g + shares.sum) := by
  obtain ⟨alone, run', adds, forward⟩ := b.step wf runs quiet idle measures measured steady run
  obtain ⟨d, h, yields, hd, sums⟩ := adds.params r param
  obtain ⟨t, read, ht⟩ := sums v g old hv
  have runs' : Runs base.schedule alone := (Batch.steady wf quiet (.refl runs) run').follows.runs
  cases normal : b.isNormal with
  | true =>
    refine ⟨[h], ?_, t, read, by simpa using ht⟩
    rw [Batch.Shares, List.filter_singleton, normal]
    exact .cons ⟨alone, d, run', (outcome_getDer_int wf runs' param.hasSlot).trans yields, hd⟩ .nil
  | false =>
    have none : d = .int 0 := Except.ok.inj (yields.symm.trans (forward normal r param))
    have zero : h = 0 := (measures.zero r param.hasSlot h).mp (none ▸ hd)
    refine ⟨[], ?_, t, read, by simpa [zero] using ht⟩
    rw [Batch.Shares, List.filter_singleton, normal]
    exact .nil

/-- Evaluations that all accumulate add up what they yield alone. -/
theorem Batches.total {bs : List Batch} (batches : Batches net bs last) (steady : Steady base net)
    (on : ∀ b ∈ bs, b.pass.accumulate = true)
    (measured : ∀ b ∈ bs, b.isNormal = true → b.Measured base means) (param : base.schedule.IsParam r) :
    ∀ {v : Value} {g : G r}, net.table.readDer r = .ok v → means r v g →
      ∃ shares, Batch.Shares bs base means r shares ∧
        ∃ t, last.table.readDer r = .ok t ∧ means r t (g + shares.sum) := by
  induction batches with
  | nil net => exact fun read hv => ⟨[], .nil, _, read, by simpa using hv⟩
  | @cons net mid next last b rest meanwhile run _ ih =>
    intro v g read hv
    have there : Steady base mid := steady.trans meanwhile.toSteady
    obtain ⟨accumulates, on⟩ := List.forall_mem_cons.mp on
    obtain ⟨measured, others⟩ := List.forall_mem_cons.mp measured
    have old : mid.table.startDer b.pass.accumulate r = .ok v := by
      rw [accumulates, there.follows.runs.startDer_of_isParam wf param,
        meanwhile.ders r (steady.schedule ▸ param), read]
    obtain ⟨own, yields, t, read, ht⟩ := b.share wf runs quiet idle measures measured there run param old hv
    obtain ⟨shares, yields', t, read, ht⟩ :=
      ih (Batch.steady wf quiet there run) on others read ht
    exact ⟨own ++ shares, yields.cons yields', t, read, by rwa [List.sum_append, ← add_assoc]⟩

omit runs idle measures in
/-- The last evaluation starts from a steady net. -/
theorem Batches.finish {bs : List Batch} (batches : Batches net bs last) (steady : Steady base net)
    {b : Batch} (final : bs.getLast? = some b) : ∃ mid, Steady base mid ∧ b.run mid = .ok ⟨⟩ last := by
  induction batches with
  | nil => cases final
  | @cons net mid next last c rest meanwhile run more ih =>
    have there : Steady base mid := steady.trans meanwhile.toSteady
    cases more with
    | nil =>
      obtain rfl : c = b := by simpa using final
      exact ⟨mid, there, run⟩
    | cons meanwhile' run' more' =>
      rw [List.getLast?_cons_cons] at final
      exact ih (Batch.steady wf quiet there run) final

/-- Evaluations of which all but the first accumulate leave the sum of what the normal ones yield alone at
parameters, and at other slots what the last one leaves alone. -/
theorem Batches.additive {first : Batch} {rest : List Batch} (batches : Batches base (first :: rest) last)
    (off : first.pass.accumulate = false) (on : ∀ b ∈ rest, b.pass.accumulate = true)
    (measured : ∀ b ∈ first :: rest, b.isNormal = true → b.Measured base means) :
    (∀ r, base.schedule.IsParam r → ∃ shares, Batch.Shares (first :: rest) base means r shares ∧
      ∃ d, outcome (getDer (.int r)) last = .ok d ∧ means r d shares.sum) ∧
    ∃ b done, (first :: rest).getLast? = some b ∧ b.alone.run base = .ok ⟨⟩ done ∧
      ∀ r, base.schedule.HasSlot r →
        outcome (getValue (.int r)) last = outcome (getValue (.int r)) done ∧
        (¬ base.schedule.IsParam r → outcome (getDer (.int r)) last = outcome (getDer (.int r)) done) := by
  obtain ⟨b, final⟩ : ∃ b, (first :: rest).getLast? = some b :=
    ⟨_, List.getLast?_eq_some_getLast (List.cons_ne_nil _ _)⟩
  obtain ⟨mid, there, run⟩ := batches.finish wf quiet (.refl runs) final
  have after := (Batch.steady wf quiet there run).follows.runs
  obtain ⟨done, run', adds, -⟩ := b.step wf runs quiet idle measures
    (measured b (List.mem_of_getLast? final)) there run
  have after' := (Batch.steady wf quiet (.refl runs) run').follows.runs
  refine ⟨fun r param => ?_, b, done, final, run', fun r has => ⟨?_, fun other => ?_⟩⟩
  · cases batches with
    | @cons _ mid next _ _ _ meanwhile run more =>
      obtain ⟨measured, others⟩ := List.forall_mem_cons.mp measured
      have has := param.hasSlot
      have old : mid.table.startDer first.pass.accumulate r = .ok (.int 0) := by
        rw [off, VariableTable.startDer_false]
      obtain ⟨own, yields, t, read, ht⟩ := first.share wf runs quiet idle measures measured
        meanwhile.toSteady run param old (measures.nothing has)
      obtain ⟨shares, yields', t, read, ht⟩ := more.total wf runs quiet idle measures
        (Batch.steady wf quiet meanwhile.toSteady run) on others param read ht
      refine ⟨own ++ shares, yields.cons yields', t, (outcome_getDer_int wf after has).trans read, ?_⟩
      rwa [List.sum_append, ← zero_add own.sum]
  · rw [outcome_getValue_int wf after has, outcome_getValue_int wf after' has, adds.values r has]
  · rw [outcome_getDer_int wf after has, outcome_getDer_int wf after' has, adds.ders r has other]

end

/-- Evaluations of one net with the same parameters, of which all but the first accumulate, leave the sum of
the derivatives that each normal one among them alone would have left at every parameter. All other
derivatives, and all values, are those that the last of them leaves alone. This holds whatever the addition
of derivatives is, if they stand for elements of commutative monoids in which it adds. -/
theorem Reached.sub_batches {ws : Workspace} {terminals : List Value} {options : NetOptions}
    (built : ws.Built) (exist : ∀ n ∈ terminalNodes terminals, ws.Exists n)
    (reached : Reached ws terminals options net) (quiet : net.Quiet)
    (addition : Value → Value → Except Error Value) (measures : (net.adding addition).Measures means)
    {first : Batch} {rest : List Batch} (batches : Batches (net.adding addition) (first :: rest) last)
    (off : first.pass.accumulate = false) (on : ∀ b ∈ rest, b.pass.accumulate = true)
    (measured : ∀ b ∈ first :: rest, b.isNormal = true → b.Measured (net.adding addition) means) :
    (∀ r, net.schedule.IsParam r → ∃ shares,
      List.Forall₂ (fun b g => b.Yields (net.adding addition) means r g)
        ((first :: rest).filter (·.isNormal)) shares ∧
      ∃ d, outcome (getDer (.int r)) last = .ok d ∧ means r d shares.sum) ∧
    ∃ b done, (first :: rest).getLast? = some b ∧ b.alone.run (net.adding addition) = .ok ⟨⟩ done ∧
      ∀ r, net.schedule.HasSlot r →
        outcome (getValue (.int r)) last = outcome (getValue (.int r)) done ∧
        (¬ net.schedule.IsParam r → outcome (getDer (.int r)) last = outcome (getDer (.int r)) done) := by
  obtain ⟨⟨_, _, _, sched⟩, ⟨schedule, infos, placed⟩, idle, -, -⟩ := reached.spec built exist
  have wf : (net.adding addition).schedule.WellFormed := sched.wellFormed
  exact batches.additive wf ⟨schedule, infos, placed⟩ quiet idle measures off on measured

omit [∀ r, AddCommMonoid (G r)] in
/-- Instructions send what stands for something if a backward pass keeps to it. -/
theorem Sweeps.reacting (sweeps : net.Sweeps val (fun r v => ∃ a, means r v a) fun r v => ∃ a, means r v a) :
    net.Reacting val means := by
  intro i hi gradient adj ders mean reacts r
  have held : ∀ o ∈ i.outputs, ∃ d, adj o = .ok d ∧ ∃ a, means o d a := by
    intro o ho
    obtain ⟨douts, reads, -⟩ := ok_of_bind reacts
    obtain ⟨d, -, read⟩ := forall₂_mem_left (forall₂_of_mapM reads) o ho
    exact ⟨d, read, mean o ho d read⟩
  obtain ⟨ders', reacts', sent⟩ := sweeps.reacts i hi gradient adj held
  cases reacts.symm.trans reacts'
  exact sent r

end

end Net

/-! ### Three evaluations -/

namespace Sample

open Net

theorem arithmetic : graph.IsArithmetic options.registry (terminalNodes terminals) := by
  have only : ∀ n, graph.Reaches (terminalNodes terminals) n → (graph.node n).isOperation = true →
      n = ⟨0, 2⟩ ∨ n = ⟨0, 3⟩ := by
    intro n reaches operation
    have among := mem_of_reaches reaches
    simp only [List.mem_cons, List.not_mem_nil, or_false] at among
    rcases among with rfl | rfl | three
    · cases operation
    · cases operation
    · exact three
  refine ⟨fun n reaches operation => ?_, fun n reaches operation v hv => ?_, fun n reaches operation => ?_,
    fun n reaches operation => ?_⟩ <;> rcases only n reaches operation with rfl | rfl
  · exact .mul (.node ⟨0, 0⟩) (.node ⟨0, 1⟩)
  · exact .add (.node ⟨0, 2⟩) (.node ⟨0, 0⟩)
  · have args : (graph.node ⟨0, 2⟩).args = [.node ⟨0, 0⟩, .node ⟨0, 1⟩] := rfl
    simp only [args, List.mem_cons, List.not_mem_nil, or_false] at hv
    exact .inl (hv.elim (fun h => ⟨_, h⟩) fun h => ⟨_, h⟩)
  · have args : (graph.node ⟨0, 3⟩).args = [.node ⟨0, 2⟩, .node ⟨0, 0⟩] := rfl
    simp only [args, List.mem_cons, List.not_mem_nil, or_false] at hv
    exact .inl (hv.elim (fun h => ⟨_, h⟩) fun h => ⟨_, h⟩)
  all_goals rfl

/-- An evaluation of `x * p + x` with 1 as seed. -/
def batch (now : Workspace) (x : Int) (mode : String) (accumulate : Bool) : Batch :=
  { now, pass := { inputs := [("x", .int x)], mode, accumulate }, seed := .int 1 }

/-- Whole numbers stand for themselves. -/
def itself : Slot → Value → Int → Prop := fun _ v k => v = .int k

theorem itself_measures {net : Net} (addition : net.table.addition = Value.add) :
    net.Measures itself where
  zero _ _ a := ⟨fun h => (Value.int.inj h).symm, fun h => congrArg Value.int h.symm⟩
  add := by
    rintro _ - _ _ a b rfl rfl
    exact ⟨.int (a + b), by rw [addition]; rfl, rfl⟩

/-- The graph has no powers, so whole numbers at its leaves make all that is sent whole. -/
theorem itself_measured {net : Net} {id : Nat} {order : List NodeRef} {marks : GradientMarks}
    (sched : Schedules graph options.registry (terminalNodes terminals) options.keep net.schedule id order
      marks) (addition : net.table.addition = Value.add) (now : Workspace) (x : Int) (accumulate : Bool)
    (leaves : ∀ r, net.schedule.IsLeaf r →
      Whole (({ net with pending := [] } : Net).boundValuation [("x", .int x)] r)) :
    (batch now x "normal" accumulate).Measured net itself where
  seeds r _ v hv := by
    change v ∈ net.seedsAt (.int 1) r at hv
    rw [seedsAt_int] at hv
    obtain ⟨c, -, rfl⟩ := List.mem_map.mp hv
    exact ⟨c, rfl⟩
  reacting val forward := by
    have sched' : Schedules graph options.registry (terminalNodes terminals) options.keep
        ((batch now x "normal" accumulate).staged net).schedule id order marks := sched
    have whole := sched'.whole_forward arithmetic forward leaves
    have sweeps := sched'.whole_sweeps arithmetic graph_built.sound addition forward whole
      fun n a reaches _ kind => by
        have among := mem_of_reaches reaches
        simp only [List.mem_cons, List.not_mem_nil, or_false] at among
        rcases among with rfl | rfl | rfl | rfl <;> exact absurd kind (by decide)
    exact Sweeps.reacting sweeps

end Sample

namespace Net

theorem adding_self {net : Net} {addition : Value → Value → Except Error Value}
    (same : net.table.addition = addition) : net.adding addition = net := by
  subst same
  rfl

/-- The derivatives of `x * p + x` by `p` for two values of `x`, with a pass without derivatives between. -/
theorem sub_batches_sample : ∃ now net last,
    Reached Sample.graph Sample.terminals Sample.options net ∧
      Batches net [Sample.batch now 5 "normal" false, Sample.batch now 9 "forward" true,
        Sample.batch now 7 "normal" true] last ∧
      net.schedule.IsParam 1 ∧ ∃ g h : Int,
        (Sample.batch now 5 "normal" false).Yields net Sample.itself 1 g ∧
        (Sample.batch now 7 "normal" true).Yields net Sample.itself 1 h ∧
        outcome (getDer (.int 1)) last = .ok (.int (g + h)) := by
  have check : Sample.graph.builds Sample.terminals Sample.options (fun now net =>
      !net.observed && net.schedule.slots.any (fun info => info.index == 1 && info.kind == .param) &&
        [(5 : Int), 7].all (fun x => net.schedule.slots.all fun info => info.kind == .op ||
          [3, x].any fun k =>
            isWhole k (({ net with pending := [] } : Net).boundValuation [("x", .int x)] info.index)) &&
        net.succeeds (Sample.batch now 5 "normal" false).run fun net =>
          net.succeeds (Sample.batch now 9 "forward" true).run fun net =>
            net.succeeds (Sample.batch now 7 "normal" true).run fun _ => true) = true := by cbv
  obtain ⟨now, net, reached, check⟩ := Reached.of_builds check
  simp only [Bool.and_eq_true, Bool.not_eq_true', List.any_eq_true, List.all_eq_true, Bool.or_eq_true,
    beq_iff_eq] at check
  obtain ⟨⟨⟨unobserved, info, mem, index, kind⟩, leaves⟩, run⟩ := check
  obtain ⟨first, run₁, run⟩ := succeeds_iff.mp run
  obtain ⟨second, run₂, run⟩ := succeeds_iff.mp run
  obtain ⟨last, run₃, -⟩ := succeeds_iff.mp run
  obtain ⟨⟨id, order, marks, sched⟩, runs, -, addition, -⟩ :=
    reached.spec Sample.graph_built Sample.terminals_exist
  have wf := sched.wellFormed
  have quiet : net.Quiet := fun observed => by rw [unobserved] at observed; cases observed
  have same : net.adding Value.add = net := adding_self addition
  have steady₁ := Batch.steady wf quiet (.refl runs) run₁
  have steady₂ := Batch.steady wf quiet steady₁ run₂
  have batches : Batches net [Sample.batch now 5 "normal" false, Sample.batch now 9 "forward" true,
      Sample.batch now 7 "normal" true] last :=
    .cons (.refl runs) run₁ (.cons (.refl steady₁.runs) run₂ (.cons (.refl steady₂.runs) run₃ (.nil last)))
  have measures : net.Measures Sample.itself := Sample.itself_measures addition
  have measured : ∀ x ∈ [(5 : Int), 7], ∀ accumulate,
      (Sample.batch now x "normal" accumulate).Measured net Sample.itself := by
    refine fun x hx accumulate => Sample.itself_measured sched addition now x accumulate fun r leaf => ?_
    obtain ⟨info, mem, rfl, leaf⟩ := leaf
    obtain ⟨k, -, held⟩ := (leaves x hx info mem).resolve_left leaf
    exact ⟨k, eq_of_isWhole held⟩
  have each : ∀ b ∈ [Sample.batch now 5 "normal" false, Sample.batch now 9 "forward" true,
      Sample.batch now 7 "normal" true], b.isNormal = true → b.Measured net Sample.itself := by
    intro b hb normal
    simp only [List.mem_cons, List.not_mem_nil, or_false] at hb
    rcases hb with rfl | rfl | rfl
    · exact measured 5 (by simp) false
    · cases normal
    · exact measured 7 (by simp) true
  have batches' := batches
  rw [← same] at measures each batches'
  obtain ⟨total, -⟩ := reached.sub_batches Sample.graph_built Sample.terminals_exist quiet Value.add
    measures batches' rfl (by simp [Sample.batch]) each
  obtain ⟨shares, yields, d, read, sum⟩ := total 1 ⟨info, mem, index, kind⟩
  have normal : [Sample.batch now 5 "normal" false, Sample.batch now 9 "forward" true,
      Sample.batch now 7 "normal" true].filter (·.isNormal) =
        [Sample.batch now 5 "normal" false, Sample.batch now 7 "normal" true] := rfl
  rw [same, normal] at yields
  obtain ⟨g, _, yields₁, later, rfl⟩ := List.forall₂_cons_left_iff.mp yields
  obtain ⟨h, _, yields₂, none, rfl⟩ := List.forall₂_cons_left_iff.mp later
  obtain rfl := List.forall₂_nil_left_iff.mp none
  refine ⟨now, net, last, reached, batches, ⟨info, mem, index, kind⟩, g, h, yields₁, yields₂, ?_⟩
  rw [read, show d = _ from sum]
  simp

end Net

end Backprop
