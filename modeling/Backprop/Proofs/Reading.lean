import Mathlib
import Backprop.Proofs.Summation
import Backprop.Proofs.Agreement
import Backprop.Proofs.Outside
import Backprop.Proofs.Derivatives
/-!
# Reading during a backward pass

Code that is told of the steps of a backward pass can read the net in the middle of it. Reading a
derivative adds up what waits for it, so whether that shows in the end depends on what is still sent.

* `Outside.Considerate` is code that reads derivatives when nothing more is sent to them.
* `Ahead` relates nets of two runs, one of which was read; every part of a backward pass keeps it.
* `Reached.considerate_reads`: considerate code does not show in the derivatives of an evaluation.
* `reads_show`: other code can.
-/

namespace Backprop

namespace Net

variable {s : Schedule} {net net' : Net} {i : Instruction} {done rest : List Instruction}
  {notify : Notify} {may : Slot → Prop}

/-- Nobody acts. -/
def unheard : Notify := fun _ => return

/-- Whether none of some instructions sends anything to a slot. -/
def Settles (rest : List Instruction) (r : Slot) : Prop := ∀ j ∈ rest, j.sendsTo r = false

/-- Whether a call only reads, and no derivatives but those that may be read. -/
def Call.Reads (s : Schedule) (may : Slot → Prop) : Call → Prop
  | getValue _ => True
  | getDer key => ∀ net r, Runs s net → net.slotOfKey key = .ok r → may r
  | describe => ∀ r, s.HasSlot r → may r
  | _ => False

/-- Whether a script only reads. What fails is caught, and how it goes on can depend on all it sees. -/
inductive Script.Reads (s : Schedule) (may : Slot → Prop) : Script → Prop where
  | done : Script.Reads s may .done
  | call {c : Call} {next : Option Error → Net → Script} : c.Reads s may →
      (∀ failure net, Script.Reads s may (next failure net)) → Script.Reads s may (.call c next)

/-- Code that acts after the steps of a backward pass only, and then reads derivatives that none of the
instructions still to come sends anything to. -/
structure Outside.Considerate (s : Schedule) (code : Outside) : Prop where
  idle : ∀ signal net, (∀ name ders, signal ≠ .event (.backward name ders)) →
    code signal net = .done
  reads : ∀ {done i rest}, s.backward = done ++ i :: rest → ∀ ders net,
    (code (.event (.backward i.name ders)) net).Reads s (Settles rest)

/-! ### What reading does -/

/-- What reading makes of a net. -/
structure Perused (s : Schedule) (may : Slot → Prop) (net net' : Net) : Prop where
  follows : Follows s net net'
  settled : net.table.Settled may net'.table

/-- A key that stands for a slot stands for one of the schedule's. -/
theorem hasSlot_of_key (wf : s.WellFormed) (runs : Runs s net) {key : Value} {r : Slot}
    (slot : net.slotOfKey key = .ok r) : s.HasSlot r := by
  unfold slotOfKey at slot
  split at slot
  next name =>
    unfold Schedule.slotOf at slot
    split at slot
    next q found =>
      cases slot
      rw [runs.schedule] at found
      obtain ⟨l, m, split, -⟩ := List.lookup_eq_some_iff.mp found
      exact wf.nameSlots (name, r) (by rw [split]; simp)
    next => cases slot
  next k =>
    split at slot
    next bound =>
      cases slot
      rw [← runs.has wf]
      simpa [VariableTable.Has] using bound
    next => cases slot
  next => cases slot

/-- What a table describes are the slots of the schedule. -/
theorem hasSlot_of_entry (runs : Runs s net) {v : Variable} (mem : v ∈ net.table.entries.toList) :
    s.HasSlot v.info.index := by
  refine ⟨v.info, ?_, rfl⟩
  rw [← runs.infos]
  exact List.mem_map_of_mem mem

theorem keeps_getDer_perused (wf : s.WellFormed) {r : Slot} (has : s.HasSlot r) (allowed : may r) :
    Keeps (Perused s may net) (onTable (VariableTable.getDer r)) := by
  rintro t ⟨follows, settled⟩
  have here := (follows.runs.has wf r).mpr has
  rw [leads_onTable, VariableTable.leads_getDer here]
  cases total : t.table.readDer r with
  | error e => exact ⟨follows, settled⟩
  | ok d =>
    have read := VariableTable.Settled.getDer here allowed total
    exact ⟨follows.trans (.of_table follows.runs read.same), settled.trans read⟩

/-- Reading adds up what waits for derivatives that may be read, at most. -/
theorem Call.Reads.keeps (wf : s.WellFormed) {c : Call} (reads : c.Reads s may) :
    Keeps (Perused s may net) c.run := by
  cases c with
  | getValue key =>
    refine .bind (fun t perused => ?_) fun _ => .pure _
    rw [Net.getValue, leads_bind, leads_get, leads_bind, leads_ofExcept]
    cases slot : t.slotOfKey key with
    | error e => exact perused
    | ok r =>
      have here := (perused.follows.runs.has wf r).mpr (hasSlot_of_key wf perused.follows.runs slot)
      dsimp only
      rw [leads_onTable, VariableTable.leads_getValue here]
      exact perused
  | getDer key =>
    refine .bind (fun t perused => ?_) fun _ => .pure _
    rw [Net.getDer, leads_bind, leads_get, leads_bind, leads_ofExcept]
    cases slot : t.slotOfKey key with
    | error e => exact perused
    | ok r =>
      have runs := perused.follows.runs
      exact keeps_getDer_perused wf (hasSlot_of_key wf runs slot) (reads t r runs slot) t perused
  | describe =>
    refine .bind (fun t perused => ?_) fun _ => .pure _
    rw [Net.describe, leads_bind, leads_get]
    refine Keeps.mapM (fun v hv => .bind ?_ fun _ => .pure _) t perused
    have has := hasSlot_of_entry perused.follows.runs hv
    exact keeps_getDer_perused wf has (reads _ has)
  | _ => exact reads.elim

/-- A script that reads does not fail. -/
theorem Script.Reads.leads (wf : s.WellFormed) {script : Script} (reads : script.Reads s may)
    (runs : Runs s net) :
    Leads (script.run (Call.runWith fun _ => notify)) net (fun _ net' => Perused s may net net')
      fun _ _ => False := by
  have start : Perused s may net net := ⟨.refl runs, .refl _⟩
  suffices go : ∀ t, Perused s may net t →
      Leads (script.run (Call.runWith fun _ => notify)) t (fun _ net' => Perused s may net net')
        fun _ _ => False from go net start
  induction reads with
  | done => exact fun t perused => perused
  | @call c next reads _ ih =>
    intro t perused
    have unrefused : c.refusal = none := by cases c <;> first | rfl | exact reads.elim
    rw [Script.run, Call.runWith_of_unrefused unrefused, leads_bind]
    refine (leads_caught (reads.keeps wf) perused).mono (fun failure t' perused' => ?_)
      fun _ _ h => h
    rw [leads_bind, leads_get]
    exact ih failure t'.unlogged t' perused'

/-! ### Two runs -/

/-- Nets of two runs in the same surroundings. In the second one derivatives have been read to which
nothing more is sent. -/
structure Ahead (s : Schedule) (rest : List Instruction) (net net' : Net) : Prop where
  common : ∃ base, Follows s base net ∧ Follows s base net'
  settled : net.table.Settled (Settles rest) net'.table

namespace Ahead

variable {t t' : Net}

theorem refl (runs : Runs s net) : Ahead s rest net net := ⟨⟨net, .refl runs, .refl runs⟩, .refl _⟩

theorem runs (h : Ahead s rest net net') : Runs s net := by
  obtain ⟨⟨_, follows, -⟩, -⟩ := h
  exact follows.runs

theorem runs' (h : Ahead s rest net net') : Runs s net' := by
  obtain ⟨⟨_, -, follows⟩, -⟩ := h
  exact follows.runs

theorem config (h : Ahead s rest net net') : net'.config = net.config := by
  obtain ⟨⟨_, follows, follows'⟩, -⟩ := h
  rw [follows.config, follows'.config]

theorem argumentsOf (h : Ahead s rest net net') : net'.argumentsOf = net.argumentsOf := by
  obtain ⟨⟨_, follows, follows'⟩, -⟩ := h
  rw [follows.argumentsOf, follows'.argumentsOf]

/-- What both runs change alike. -/
theorem step (h : Ahead s rest net net') (left : Follows s net t) (right : Follows s net' t')
    (settled : t.table.Settled (Settles rest) t'.table) : Ahead s rest t t' := by
  obtain ⟨⟨base, follows, follows'⟩, -⟩ := h
  exact ⟨⟨base, follows.trans left, follows'.trans right⟩, settled⟩

/-- What both runs do with tables that they leave alone. -/
theorem aside (h : Ahead s rest net net') (left : Follows s net t) (right : Follows s net' t')
    (table : t.table = net.table) (table' : t'.table = net'.table) : Ahead s rest t t' := by
  refine h.step left right ?_
  rw [table, table']
  exact h.settled

theorem drop (h : Ahead s (i :: rest) net net') : Ahead s rest net net' :=
  ⟨h.common, h.settled.mono fun _ settles j hj => settles j (by simp [hj])⟩

end Ahead

/-- The outputs of an instruction read the same. -/
theorem agree_getDers (wf : s.WellFormed) (hi : i ∈ s.forward) :
    Agree Eq (Ahead s rest) (i.outputs.mapM fun o => onTable (VariableTable.getDer o))
      (i.outputs.mapM fun o => onTable (VariableTable.getDer o)) (Ahead s rest)
      fun _ _ => True := by
  intro net net' ahead
  have has : ∀ o ∈ i.outputs, net.table.Has o := fun o ho =>
    (ahead.runs.has wf o).mpr (wf.outputs_hasSlot hi ho)
  have has' : ∀ o ∈ i.outputs, net'.table.Has o := fun o ho =>
    (ahead.runs'.has wf o).mpr (wf.outputs_hasSlot hi ho)
  have same : ∀ o ∈ i.outputs, net'.table.readDer o = net.table.readDer o := fun o ho =>
    ahead.settled.readDer (has o ho)
  have reads : i.outputs.mapM net'.table.readDer = i.outputs.mapM net.table.readDer :=
    mapM_congr_mem same
  have each : ∀ {t : Net} {der : Valuation}, (∀ o ∈ i.outputs, t.table.readDer o = .ok (der o)) →
      i.outputs.mapM t.table.readDer = .ok (i.outputs.map der) := by
    intro t der each
    rw [mapM_congr_mem each]
    exact List.mapM_pure
  refine Meet.of_leads (leads_getDers i.outputs net has (wf.outputs_nodup hi))
    (leads_getDers i.outputs net' has' (wf.outputs_nodup hi)) ?_ ?_ ?_ ?_
  · rintro _ _ _ _ ⟨der, table, rfl, rfl, read, others, change⟩
      ⟨der', table', rfl, rfl, read', others', change'⟩
    have ders : i.outputs.map der = i.outputs.map der' :=
      Except.ok.inj ((each read).symm.trans (reads.symm.trans (each read')))
    refine ⟨ders, ahead.step (.of_table ahead.runs change.same) (.of_table ahead.runs' change'.same)
      (ahead.settled.becomes change change' (fun r hr => ahead.settled.values r hr) fun r hr => ?_)⟩
    by_cases out : r ∈ i.outputs
    · refine .inl ⟨?_, by rw [if_pos out, if_pos out]⟩
      exact Except.ok.inj ((read' r out).symm.trans ((same r out).trans (read r out)))
    · rw [if_neg out, if_neg out]
      exact .inr ⟨⟨others r hr out, rfl⟩, others' r ((ahead.settled.same.has r).mpr hr) out, rfl⟩
  · intro e _ f _ failed failed'
    rw [reads, failed] at failed'
    exact ⟨Except.error.inj failed', trivial⟩
  · rintro _ _ f _ ⟨der, _, -, -, read, -⟩ failed
    rw [reads, each read] at failed
    cases failed
  · rintro e _ _ _ failed ⟨der, _, -, -, read, -⟩
    rw [← reads, each read] at failed
    cases failed

theorem agree_gather_ahead (wf : s.WellFormed) (hi : i ∈ s.forward) :
    Agree Eq (Ahead s rest) (gather i) (gather i) (Ahead s rest) fun _ _ => True := by
  intro net net' ahead
  have same : net'.argumentsOf net'.table.valueAt i = net.argumentsOf net.table.valueAt i := by
    rw [ahead.argumentsOf]
    refine argumentsOf_congr fun r hr => ahead.settled.values r ?_
    exact (ahead.runs.has wf r).mpr (wf.reads_hasSlot hi hr)
  refine Meet.of_leads (leads_gather wf.inPlace ahead.runs hi) (leads_gather wf.inPlace ahead.runs' hi)
    ?_ ?_ ?_ ?_
  · rintro c _ c' _ ⟨args, follows, table⟩ ⟨args', follows', table'⟩
    rw [same, args] at args'
    exact ⟨Except.ok.inj args', ahead.aside follows follows' table table'⟩
  · intro e _ f _ failed failed'
    rw [same, failed] at failed'
    exact ⟨Except.error.inj failed', trivial⟩
  · rintro c _ f _ ⟨args, -⟩ failed
    rw [same, args] at failed
    cases failed
  · rintro e _ c _ failed ⟨args, -⟩
    rw [same, failed] at args
    cases args

/-- What an instruction sends does not reach what has been read. -/
theorem agree_accumulateEach (wf : s.WellFormed) (hi : i ∈ s.forward)
    (gradient : i.requiresGradient = true) (ders : List Value) :
    Agree Eq (Ahead s (i :: rest))
      (i.gradientPositions.forM fun (position, slot) =>
        match ders[position]? with
        | none | some .none => pure ()
        | some der => onTable (VariableTable.accumulate slot der (some ⟨i.index, position⟩)))
      (i.gradientPositions.forM fun (position, slot) =>
        match ders[position]? with
        | none | some .none => pure ()
        | some der => onTable (VariableTable.accumulate slot der (some ⟨i.index, position⟩)))
      (Ahead s (i :: rest)) fun _ _ => True := by
  intro net net' ahead
  have has : ∀ q ∈ i.gradientPositions, s.HasSlot q.2 := fun q hq =>
    wf.reads_hasSlot hi (wf.gradient_reads hi hq)
  refine Meet.of_leads
    (leads_accumulateEach i.index ders _ net fun q hq => (ahead.runs.has wf _).mpr (has q hq))
    (leads_accumulateEach i.index ders _ net' fun q hq => (ahead.runs'.has wf _).mpr (has q hq))
    ?_ (fun _ _ _ _ h _ => h.elim) (fun _ _ _ _ _ h => h.elim) fun _ _ _ _ h _ => h.elim
  rintro _ _ _ _ ⟨table, rfl, change⟩ ⟨table', rfl, change'⟩
  refine ⟨rfl, ahead.step (.of_table ahead.runs change.same) (.of_table ahead.runs' change'.same)
    (ahead.settled.becomes change change' (fun r hr => ahead.settled.values r hr) fun r hr => ?_)⟩
  rcases ahead.settled.ders r hr with ⟨der, parts⟩ | ⟨settles, -⟩
  · exact .inl ⟨der, by rw [parts]⟩
  · have nothing : Instruction.entries i.index i.gradientPositions ders r = [] :=
      entriesFor_of_not_sendsTo gradient (settles i (by simp)) ders
    exact .inr ⟨⟨rfl, by rw [nothing, List.append_nil]⟩, rfl, by rw [nothing, List.append_nil]⟩

theorem agree_giveBack (wf : s.WellFormed) {values ders : List Slot}
    (hasValues : ∀ r ∈ values, s.HasSlot r) (hasDers : ∀ r ∈ ders, s.HasSlot r) :
    Agree Eq (Ahead s rest) (do recordLive; releaseValues values; releaseDers ders)
      (do recordLive; releaseValues values; releaseDers ders) (Ahead s rest)
      fun _ _ => True := by
  intro net net' ahead
  have has := ahead.runs.has wf
  have has' := ahead.runs'.has wf
  refine Meet.of_leads
    (leads_giveBack ahead.runs (fun r hr => (has r).mpr (hasValues r hr))
      fun r hr => (has r).mpr (hasDers r hr))
    (leads_giveBack ahead.runs' (fun r hr => (has' r).mpr (hasValues r hr))
      fun r hr => (has' r).mpr (hasDers r hr))
    ?_ (fun _ _ _ _ h _ => h.elim) (fun _ _ _ _ _ h => h.elim) fun _ _ _ _ h _ => h.elim
  rintro _ _ _ _ ⟨follows, change⟩ ⟨follows', change'⟩
  rw [ahead.config] at change'
  refine ⟨rfl, ahead.step follows follows' (ahead.settled.becomes change change' (fun r hr => ?_)
    fun r hr => ?_)⟩
  · rw [ahead.settled.values r hr]
  · by_cases released : net.config.conserveMemory = true ∧ r ∈ ders
    · simp only [if_pos released, and_self, true_or]
    · simp only [if_neg released, and_self, or_true]

section
variable {code : Outside} (considerate : code.Considerate s)
include considerate

/-- Considerate code acts after the steps of a backward pass only. -/
theorem Outside.Considerate.notify_eq (depth : Nat) {signal : Signal}
    (other : ∀ name ders, signal ≠ .event (.backward name ders)) :
    code.notify depth signal = pure ⟨⟩ := by
  cases depth with
  | zero => rfl
  | succ depth =>
    funext net
    change (code signal net.unlogged).run _ net = _
    rw [considerate.idle signal _ other]
    rfl

theorem agree_told (wf : s.WellFormed) (split : s.backward = done ++ i :: rest) (depth : Nat)
    (ders : List Value) :
    Agree Eq (Ahead s rest) (unheard (.event (.backward i.name ders)))
      (code.notify depth (.event (.backward i.name ders))) (Ahead s rest) fun _ _ => True := by
  intro net net' ahead
  have silent : Leads (unheard (.event (.backward i.name ders))) net (fun _ t => t = net)
    fun _ _ => False := rfl
  have reads : Leads (code.notify depth (.event (.backward i.name ders))) net'
      (fun _ t => Perused s (Settles rest) net' t) fun _ _ => False := by
    cases depth with
    | zero => exact ⟨.refl ahead.runs', .refl _⟩
    | succ depth =>
      rw [Outside.notify, leads_bind, leads_get]
      exact (considerate.reads split ders net'.unlogged).leads wf ahead.runs'
  refine Meet.of_leads silent reads ?_ (fun _ _ _ _ h _ => h.elim) (fun _ _ _ _ _ h => h.elim)
    fun _ _ _ _ h _ => h.elim
  rintro _ _ _ t rfl perused
  exact ⟨rfl, ahead.step (.refl ahead.runs) perused.follows (ahead.settled.trans perused.settled)⟩

/-- What an instruction sends is told when it waits. -/
theorem agree_propagate_ahead (wf : s.WellFormed) (split : s.backward = done ++ i :: rest)
    (depth : Nat) (dy : Value) :
    Agree Eq (Ahead s (i :: rest)) (propagate unheard i dy) (propagate (code.notify depth) i dy)
      (Ahead s rest) fun _ _ => True := by
  have here : i ∈ s.backward := by rw [split]; simp
  have hi := wf.mem_forward_of_backward here
  have recorded : ∀ n, Runs s n → Follows s n { n with profile :=
      (n.profile.recordEvent (i.kind ++ ".backward") 0).recordBackwardStep } := fun n runs =>
    .of_recorded runs ⟨n.journal, _, rfl⟩
  refine .bind (agree_gather_ahead wf hi) fun c => ?_
  dsimp only
  rw [considerate.notify_eq depth fun _ _ => by simp]
  split
  · refine .bind (.pure _) fun kernel => .bind (.pure _) fun _ =>
      .bind (agree_ofExcept (fun _ => rfl) _).lenient fun result => ?_
    refine .bind (Q := Ahead s (i :: rest)) (.modify fun net net' ahead => ?_) fun _ => ?_
    · exact ahead.aside (recorded _ ahead.runs) (recorded _ ahead.runs') rfl rfl
    refine .bind (agree_accumulateEach wf hi (wf.requiresGradient_of_backward here) _) fun _ => ?_
    exact (agree_told considerate wf split depth _).mono (fun _ _ ahead => ahead.drop)
      (fun _ _ h => h) fun _ _ h => h
  · exact (Agree.throw_bind rfl _ _).lenient

theorem agree_backwardStep_ahead (wf : s.WellFormed)
    (split : s.backward = done.reverse ++ i :: rest) (depth : Nat) :
    Agree Eq (Ahead s (i :: rest))
      (backwardStep unheard (s.release.backwardValues.getD done.length [])
        (s.release.backwardDers.getD done.length []) i)
      (backwardStep (code.notify depth) (s.release.backwardValues.getD done.length [])
        (s.release.backwardDers.getD done.length []) i)
      (Ahead s rest) fun _ _ => True := by
  have hi := wf.mem_forward_of_backward (i := i) (by rw [split]; simp)
  have values := wf.mem_backwardValues split
  have ders := wf.mem_backwardDers split
  rw [List.length_reverse] at values ders
  have last : Agree Eq (Ahead s rest) _ _ (Ahead s rest) _ :=
    agree_giveBack wf (fun r hr => ((values r).mp hr).1) fun r hr => ((ders r).mp hr).1
  refine .bind (agree_getDers wf hi) fun douts => ?_
  refine .ite (fun _ => ?_) fun _ => ?_
  · exact .bind (agree_propagate_ahead considerate wf split depth _) fun _ => last
  · exact last.mono (fun _ _ ahead => ahead.drop) (fun _ _ h => h) fun _ _ h => h

theorem agree_backwardSteps_ahead (wf : s.WellFormed) (depth : Nat) :
    ∀ (l done : List Instruction), s.backward = done.reverse ++ l →
      Agree Eq (Ahead s l) (backwardSteps unheard s.release done.length l)
        (backwardSteps (code.notify depth) s.release done.length l) (Ahead s []) fun _ _ => True := by
  intro l
  induction l with
  | nil => exact fun _ _ => .pure _
  | cons i l ih =>
    intro done split
    have one := agree_backwardStep_ahead considerate wf split depth
    refine .bind (agree_attempt one fun _ _ _ => trivial) fun _ => ?_
    exact ih (i :: done) (by simpa using split)

end

/-! ### Passes -/

/-- Two runs that begin in the same way. -/
theorem Agree.from_same {α β : Type} {m : NetM α} {f g : α → NetM β} {Q : Net → Net → Prop}
    {after : α → Net → Prop} (h : Leads m net after fun _ _ => True)
    (next : ∀ a t, after a t → Meet Eq Q (fun _ _ => True) (f a t) (g a t)) :
    Meet Eq Q (fun _ _ => True) ((m >>= f) net) ((m >>= g) net) := by
  unfold Leads at h
  simp only [bind, EStateM.bind]
  cases run : m net with
  | error e t => exact ⟨rfl, trivial⟩
  | ok a t =>
    rw [run] at h
    exact next a t h

/-- Forward passes tell nobody of the steps of backward passes. -/
theorem forwardPass_congr {notify' : Notify}
    (same : ∀ signal, (∀ name ders, signal ≠ .event (.backward name ders)) →
      notify signal = notify' signal) (ws : Workspace) (options : PassOptions) :
    forwardPass ws notify options = forwardPass ws notify' options := by
  have step : ∀ testing released i, forwardStep notify testing released i =
      forwardStep notify' testing released i := by
    intro testing released i
    simp only [forwardStep, same (.kernel ..) (by simp), same (.event (.forward ..)) (by simp)]
  have steps : ∀ testing released (l : List Instruction), forwardSteps notify testing released l =
      forwardSteps notify' testing released l := by
    intro testing released l
    induction l with
    | nil => rfl
    | cons i l ih => rw [forwardSteps, forwardSteps, step, ih]
  simp only [forwardPass, steps, same (.event .finished) (by simp)]

theorem leads_backwardTo_zero (wf : s.WellFormed) (runs : Runs s net) (ws : Workspace)
    (seed : Value) :
    Leads (backwardTo ws notify seed 0) net (fun schedule t => schedule = s ∧ Runs s t)
      fun _ _ => True := by
  have running : Running s (Serves s net) := running_serves wf
  have serves : Serves s net net := ⟨runs, rfl, rfl⟩
  have start := keeps_attempt running (keeps_seedDers running.loose ws seed) "Backward" "<seed>"
  simp only [backwardTo, leads_bind, leads_get]
  split
  · trivial
  · rw [leads_bind]
    refine (keeps_enter running net serves).mono (fun _ t st => ?_) fun _ _ _ => trivial
    rw [leads_bind]
    refine (start t st).mono (fun _ u su => ?_) fun _ _ _ => trivial
    exact ⟨su.runs.schedule, su.runs⟩

section
variable {code : Outside} (considerate : code.Considerate s)
include considerate

theorem agree_endPass (depth : Nat) :
    Agree Eq (Ahead s [])
      (do
        leave false
        unheard (.event .finished))
      (do
        leave false
        code.notify depth (.event .finished)) (Ahead s []) fun _ _ => True := by
  have left : ∀ n, Runs s n → Follows s n { n with evaluating := false, backwardReady := false } :=
    fun n runs => ⟨⟨runs.schedule, runs.infos, runs.placed⟩, rfl, rfl, rfl, rfl, id⟩
  rw [considerate.notify_eq depth fun _ _ => by simp]
  refine .bind (Q := Ahead s []) (.modify fun net net' ahead => ?_) fun _ => .pure _
  exact ahead.aside (left net ahead.runs) (left net' ahead.runs') rfl rfl

theorem meet_backwardPass (wf : s.WellFormed) (runs : Runs s net) (ws : Workspace) (seed : Value)
    (depth : Nat) :
    Meet Eq (Ahead s []) (fun _ _ => True) (backwardPass ws unheard seed net)
      (backwardPass ws (code.notify depth) seed net) := by
  have same : backwardTo ws (code.notify depth) seed 0 = backwardTo ws unheard seed 0 := rfl
  rw [backwardPass_eq ws seed 0, backwardPass_eq ws seed 0, same]
  refine Agree.from_same (leads_backwardTo_zero wf runs ws seed) ?_
  intro schedule t ⟨eq, runs⟩
  subst schedule
  have steps := agree_backwardSteps_ahead considerate wf depth s.backward [] rfl
  exact (steps.bind fun _ => agree_endPass considerate depth) t t (.refl runs)

theorem meet_evaluatePass (wf : s.WellFormed) (runs : Runs s net) (ws : Workspace)
    (options : PassOptions) (seed : Value) (depth : Nat) :
    Meet Eq (Ahead s []) (fun _ _ => True) (evaluatePass ws unheard options seed net)
      (evaluatePass ws (code.notify depth) options seed net) := by
  have running : Running s (Serves s net) := running_serves wf
  have serves : Serves s net net := ⟨runs, rfl, rfl⟩
  have quiet : ∀ signal, Keeps (Serves s net) (unheard signal) := fun _ => .pure _
  have forward : ∀ options, forwardPass ws (code.notify depth) options =
      forwardPass ws unheard options :=
    forwardPass_congr (fun _ other => considerate.notify_eq depth other) ws
  unfold evaluatePass
  simp only [forward]
  have named : Leads (ofExcept (Mode.ofName options.mode)) net (fun _ t => Serves s net t)
      fun _ _ => True := (keeps_ofExcept _ net serves).mono (fun _ _ h => h) fun _ _ _ => trivial
  refine Agree.from_same named fun mode t st => ?_
  refine Agree.from_same ((keeps_report running.loose _ t st).mono (fun _ _ h => h)
    fun _ _ _ => trivial) fun _ t st => ?_
  refine Agree.from_same ((keeps_forwardPass running quiet ws _ t st).mono (fun _ _ h => h)
    fun _ _ _ => trivial) fun _ u su => ?_
  split
  · exact meet_backwardPass considerate wf su.runs ws seed depth
  · exact ⟨rfl, .refl su.runs⟩

end

/-- Derivatives read the same in both runs. -/
theorem Ahead.outcome_getDer (wf : s.WellFormed) (ahead : Ahead s rest net net') (key : Value) :
    outcome (getDer key) net' = outcome (getDer key) net := by
  have same : net'.slotOfKey key = net.slotOfKey key := by
    simp only [slotOfKey, ahead.runs.schedule, ahead.runs'.schedule, ahead.settled.same.size]
  cases slot : net.slotOfKey key with
  | error e =>
    have refused : ∀ {n : Net}, n.slotOfKey key = .error e → outcome (getDer key) n = .error e := by
      intro n none
      apply outcome_of_leads
      simp only [getDer, leads_bind, leads_get, leads_ofExcept, none]
    rw [refused slot, refused (same.trans slot)]
  | ok r =>
    have here := (ahead.runs.has wf r).mpr (hasSlot_of_key wf ahead.runs slot)
    rw [Net.outcome_getDer here slot,
      Net.outcome_getDer ((ahead.settled.same.has r).mpr here) (same.trans slot),
      ahead.settled.readDer here]

variable {ws : Workspace} {terminals : List Value} {options : NetOptions}

/-- A net with another addition of derivatives. -/
def adding (net : Net) (addition : Value → Value → Except Error Value) : Net :=
  { net with table := { net.table with addition } }

/-- Reads that come when nothing more is sent do not show in derivatives, whatever the addition is.
Where the derivatives of a table are read so, contributions are added as if nothing was read, and those
that wait in ascending order. An evaluation during which considerate code reads the net leaves what it
would leave by itself, and that are the derivatives of the equations, in which contributions are added
in ascending order. -/
theorem Reached.considerate_reads (built : ws.Built)
    (exist : ∀ n ∈ terminalNodes terminals, ws.Exists n)
    (reached : Reached ws terminals options net) (quiet : net.Quiet)
    (addition : Value → Value → Except Error Value) (code : Outside)
    (considerate : code.Considerate net.schedule) :
    (∀ (t : VariableTable) (uses : List VariableTable.Use) (r : Slot), t.Has r →
      (∀ u ∈ uses, t.Has u.slot) → VariableTable.Considerate uses →
      Leads (uses.forM VariableTable.Use.run) t
        (fun _ t' => t'.readDer r = t.sumAfter (uses.filter fun u => !u.isRead) r ∧
          ((∀ u ∈ uses, u.waits = true) → t'.readDer r =
            (VariableTable.inOrder (t.partsAt r ++ uses.filterMap (VariableTable.Use.part? r))).foldlM
              (VariableTable.accumulated t.addition) (t.derAt r)))
        fun _ _ => True) ∧
    ∀ (depth : Nat) (now : Workspace) (pass : PassOptions) (seed : Value),
      (∀ key, outcome (do evaluatePass now (code.notify depth) pass seed; getDer key)
          (net.adding addition) =
        outcome (do evaluatePass now unheard pass seed; getDer key) (net.adding addition)) ∧
      ∀ done, pass.mode = "normal" →
        evaluatePass now (code.notify depth) pass seed (net.adding addition) = .ok ⟨⟩ done →
        ∃ val adj, (net.adding addition).IsForward pass.inputs false val ∧
          (net.adding addition).IsAdjoint
            ((net.adding addition).startAdjoint pass.accumulate seed) val adj ∧
          ∀ r, net.schedule.IsLeaf r ∨ net.schedule.IsRetained r →
            ∀ key, done.slotOfKey key = .ok r → outcome (getDer key) done = adj r := by
  obtain ⟨⟨id, order, marks, sched⟩, runs, _⟩ := reached.spec built exist
  have wf := sched.wellFormed
  have runs' : Runs net.schedule (net.adding addition) :=
    ⟨runs.schedule, runs.infos, runs.placed⟩
  refine ⟨fun t uses r hr has considerate => ?_, fun depth now pass seed => ?_⟩
  · refine (VariableTable.leads_uses hr has).mono (fun _ t' ⟨_, read⟩ => ?_) fun _ _ h => h
    rw [read]
    refine ⟨?_, fun waits => ?_⟩
    · simp only [VariableTable.sumAfter, VariableTable.summation_considerate considerate]
    · simp only [VariableTable.sumAfter, VariableTable.summation_ascending considerate waits]
  have ends := meet_evaluatePass considerate wf runs' now pass seed depth
  refine ⟨fun key => ?_, fun done normal run => ?_⟩
  · simp only [outcome, bind, EStateM.bind]
    cases alone : evaluatePass now unheard pass seed (net.adding addition) <;>
      cases read : evaluatePass now (code.notify depth) pass seed (net.adding addition) <;>
      rw [alone, read] at ends
    · exact ends.2.outcome_getDer wf key
    · exact ends.elim
    · exact ends.elim
    · exact congrArg Except.error ends.1.symm
  · have silent : Silent unheard := fun _ n _ => Recorded.refl n
    have leaves := leads_evaluatePass wf runs' silent quiet now pass normal seed
    unfold Leads at leaves
    cases alone : evaluatePass now unheard pass seed (net.adding addition) <;>
      rw [alone] at ends leaves <;> rw [run] at ends
    · next _ last =>
      have ahead : Ahead net.schedule [] last done := ends.2
      have evaluated : Evaluated pass (net.adding addition).schedule seed (net.adding addition) last :=
        leaves
      have wf' : (net.adding addition).schedule.WellFormed := wf
      obtain ⟨val, values, read⟩ := evaluated.outcome_getDer wf'
      refine ⟨val, _, isForward_of_valuesAfter wf runs' values, isAdjoint_adjointAfter wf rfl,
        fun r kept key slot => ?_⟩
      have same : done.slotOfKey key = last.slotOfKey key := by
        simp only [slotOfKey, ahead.runs.schedule, ahead.runs'.schedule, ahead.settled.same.size]
      rw [ahead.outcome_getDer wf key]
      exact read r kept key (same.symm.trans slot)
    · exact ends.elim

/-! ### A reader -/

/-- Code that reads a derivative after one step of a backward pass. -/
def Sample.reader (step : String) (slot : Slot) : Outside := fun signal _ =>
  match signal with
  | .event (.backward name _) =>
    if name = step then .call (.getDer (.int slot)) fun _ _ => .done else .done
  | _ => .done

/-- Whether nothing is sent to a slot after a step. -/
def Sample.settles (s : Schedule) (step : String) (slot : Slot) : Bool :=
  s.backward.tails.all fun l =>
    match l with
    | [] => true
    | i :: rest => i.name != step || rest.all fun j => !j.sendsTo slot

theorem Sample.reader_considerate {step : String} {slot : Slot}
    (settles : Sample.settles s step slot = true) : (Sample.reader step slot).Considerate s := by
  constructor
  · intro signal net other
    unfold Sample.reader
    split
    · exact absurd rfl (other _ _)
    · rfl
  · intro done i rest split ders net
    have tail : i :: rest ∈ s.backward.tails := by
      rw [split]
      exact (List.mem_tails _ _).mpr (List.suffix_append _ _)
    have last := List.all_eq_true.mp settles _ tail
    dsimp only [Sample.reader]
    split_ifs with name
    · refine .call (fun net r _ found => ?_) fun _ _ => .done
      have same : slot = r := by
        simp only [slotOfKey] at found
        split at found
        · exact Except.ok.inj found
        · cases found
      subst same
      simpa [name, Settles] using last
    · exact .done

/-- An addition that keeps what came first. -/
def Sample.first : Value → Value → Except Error Value := fun total _ => .ok total

/-- Whether reading ended in this whole number. -/
def Sample.reads (k : Int) : Except Error Value → Bool
  | .ok d => isWhole k d
  | .error _ => false

theorem Sample.eq_of_reads {k : Int} {x : Except Error Value} (h : Sample.reads k x = true) :
    x = .ok (.int k) := by
  cases x with
  | ok d => exact congrArg Except.ok (eq_of_isWhole h)
  | error e => cases h

/-- The derivative of `x * p` is complete after the step of the sum. -/
theorem considerate_reads_sample : ∃ net now done,
    Sample.graph.buildNet Sample.terminals Sample.options = (.ok net, now) ∧
      evaluatePass now ((Sample.reader "add1" 2).notify 1) Sample.pass (.int 1)
        (net.adding Sample.first) = .ok ⟨⟩ done ∧
      (∀ key, outcome (do
          evaluatePass now ((Sample.reader "add1" 2).notify 1) Sample.pass (.int 1); getDer key)
          (net.adding Sample.first) =
        outcome (do evaluatePass now unheard Sample.pass (.int 1); getDer key)
          (net.adding Sample.first)) ∧
      outcome (getDer (.text "x")) done = .ok (.int 3) := by
  have check : Sample.graph.builds Sample.terminals Sample.options (fun now net =>
      !net.observed && Sample.settles net.schedule "add1" 2 &&
      (net.adding Sample.first).succeeds
        (evaluatePass now ((Sample.reader "add1" 2).notify 1) Sample.pass (.int 1))
        fun done => Sample.reads 3 (outcome (getDer (.text "x")) done)) = true := by cbv
  obtain ⟨net, now, run, check⟩ := Workspace.of_builds check
  simp only [Bool.and_eq_true, Bool.not_eq_true'] at check
  obtain ⟨⟨alone, settles⟩, runs⟩ := check
  obtain ⟨done, ends, read⟩ := succeeds_iff.mp runs
  have same := (Reached.considerate_reads Sample.graph_built Sample.terminals_exist (.built run)
    (fun observed => by rw [alone] at observed; cases observed) Sample.first _
    (Sample.reader_considerate settles)).2 1 now Sample.pass (.int 1)
  exact ⟨net, now, done, run, ends, same.1, Sample.eq_of_reads read⟩

/-- Reading the derivative of `x` between its two contributions puts the second one first. -/
theorem reads_show : ∃ net now,
    Sample.graph.buildNet Sample.terminals Sample.options = (.ok net, now) ∧
      outcome (do evaluatePass now unheard Sample.pass (.int 1); getDer (.text "x"))
        (net.adding Sample.first) = .ok (.int 3) ∧
      outcome (do
        evaluatePass now ((Sample.reader "add1" 0).notify 1) Sample.pass (.int 1)
        getDer (.text "x")) (net.adding Sample.first) = .ok (.int 1) := by
  have check : Sample.graph.builds Sample.terminals Sample.options (fun now net =>
      Sample.reads 3 (outcome
        (do evaluatePass now unheard Sample.pass (.int 1); getDer (.text "x"))
        (net.adding Sample.first)) &&
      Sample.reads 1 (outcome
        (do
          evaluatePass now ((Sample.reader "add1" 0).notify 1) Sample.pass (.int 1)
          getDer (.text "x"))
        (net.adding Sample.first))) = true := by cbv
  obtain ⟨net, now, run, check⟩ := Workspace.of_builds check
  obtain ⟨alone, read⟩ := (Bool.and_eq_true _ _).mp check
  exact ⟨net, now, run, Sample.eq_of_reads alone, Sample.eq_of_reads read⟩

end Net

end Backprop
