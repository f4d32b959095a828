import Mathlib
import Backprop.Proofs.Reading
import Backprop.Proofs.Reclamation
/-!
# Which slots hold values

The steps of a pass, seen only by the slots that hold values after them. What a kernel computes does
not matter here as long as it is something, and neither do derivatives.

* `Net.Occupied`: a net in which just the slots with a property hold values.
* `Net.Sparing` is code from outside that leaves it to the pass which slots do;
  `sparing_notifyObservers`: observers that set derivatives and stage inputs are.
* `Occupied.forwardStep`, `Occupied.backwardStep`: what one instruction makes of the property.
-/

namespace Backprop

/-- Something is written wherever no value is nothing. -/
theorem Valuation.write_mem {val : Valuation} {r : Slot} : ∀ {slots : List Slot} {vs : List Value},
    r ∈ slots → vs.length = slots.length → val.write slots vs r ∈ vs := by
  intro slots
  induction slots generalizing val with
  | nil =>
    intro _ h
    cases h
  | cons s slots ih =>
    intro vs h len
    cases vs with
    | nil => cases len
    | cons v vs =>
      by_cases later : r ∈ slots
      · exact List.mem_cons_of_mem _ (ih later (by simpa using len))
      · have here : r = s := by simpa [later] using h
        rw [write, write_of_not_mem _ _ later, if_pos here]
        exact List.mem_cons_self

/-- Whether an action of an observer leaves it to the pass which slots hold values. -/
def Action.spares : Action → Bool
  | .refuse | .setDer .. | .setInputs .. => true
  | _ => false

namespace Net

variable {s : Schedule} {base net net' : Net} {i : Instruction} {notify : Notify}
  {p q : Slot → Prop}

/-- Whether the observers that wait leave it to the pass which slots hold values. -/
def Tame (net : Net) : Prop :=
  net.observed = true → ∀ r ∈ net.reactions.toList, r.waiting = true → r.action.spares = true

theorem aloof_tame : Aloof Tame where
  table tame _ := tame
  records := by
    rintro _ _ tame ⟨journal, profile, rfl⟩
    exact tame
  pending tame := tame
  placed tame := tame

/-- A net like `base` in which just the slots with a property hold values. -/
structure Occupied (s : Schedule) (base : Net) (p : Slot → Prop) (net : Net) : Prop where
  serves : Serves s base net
  tame : net.Tame
  holds : ∀ r, s.HasSlot r → (net.Holds r ↔ p r)

/-- Code from outside that leaves it to the pass which slots hold values. -/
def Sparing (notify : Notify) : Prop :=
  ∀ {s : Schedule} {base net : Net} {p : Slot → Prop}, s.WellFormed → Occupied s base p net →
    ∀ signal, Leads (notify signal) net (fun _ net' => Occupied s base p net') fun _ _ => True

/-! ### Changes -/

namespace Occupied

theorem congr (occupied : Occupied s base p net) (same : ∀ r, s.HasSlot r → (p r ↔ q r)) :
    Occupied s base q net :=
  ⟨occupied.serves, occupied.tame, fun r has => (occupied.holds r has).trans (same r has)⟩

theorem has (wf : s.WellFormed) (occupied : Occupied s base p net) (r : Slot) :
    net.table.Has r ↔ s.HasSlot r := occupied.serves.runs.has wf r

/-- A table with other values. -/
theorem table (wf : s.WellFormed) (occupied : Occupied s base p net) {table : VariableTable}
    {val der : Slot → Value} {parts : Slot → List (Position × Value)}
    (becomes : net.table.Becomes table val der parts)
    (holds : ∀ r, s.HasSlot r → (val r ≠ .none ↔ q r)) : Occupied s base q { net with table } := by
  refine ⟨lax_serves.table occupied.serves becomes.same, occupied.tame, fun r has => ?_⟩
  rw [Holds, becomes.values r ((occupied.has wf r).mpr has)]
  exact holds r has

/-- A table with the same values. -/
theorem ders (wf : s.WellFormed) (occupied : Occupied s base p net) {table : VariableTable}
    {der : Slot → Value} {parts : Slot → List (Position × Value)}
    (becomes : net.table.Becomes table net.table.valueAt der parts) :
    Occupied s base p { net with table } := occupied.table wf becomes occupied.holds

theorem recorded (occupied : Occupied s base p net) (h : Recorded net net') :
    Occupied s base p net' := by
  obtain ⟨journal, profile, rfl⟩ := h
  exact ⟨lax_serves.records occupied.serves ⟨_, _, rfl⟩, occupied.tame, occupied.holds⟩

theorem flags (occupied : Occupied s base p net) (evaluating backwardReady dirty : Bool) :
    Occupied s base p { net with evaluating, backwardReady, dirty } :=
  ⟨occupied.serves.update rfl rfl rfl rfl rfl rfl, occupied.tame, occupied.holds⟩

theorem pending (occupied : Occupied s base p net) (pending : List (Slot × Value)) :
    Occupied s base p { net with pending } :=
  ⟨lax_serves.pending occupied.serves, occupied.tame, occupied.holds⟩

theorem gather (wf : s.WellFormed) (occupied : Occupied s base p net) (hi : i ∈ s.forward) :
    Leads (gather i) net (fun c net' => net.argumentsOf net.table.valueAt i = .ok c ∧
      Occupied s base p net') fun _ _ => True := by
  have stays := turns_gather aloof_tame.loose (keeps_constants aloof_tame i) net occupied.tame
  refine ((leads_gather wf.inPlace occupied.serves.runs hi).and stays).mono ?_ fun _ _ _ => trivial
  rintro c net' ⟨⟨arguments, follows, table⟩, tame⟩
  refine ⟨arguments, occupied.serves.follows follows, tame, fun r has => ?_⟩
  rw [Holds, table]
  exact occupied.holds r has

theorem release (wf : s.WellFormed) (conserve : base.config.conserveMemory = true)
    (occupied : Occupied s base p net) {slots : List Slot} (has : ∀ r ∈ slots, s.HasSlot r) :
    Leads (releaseValues slots) net
      (fun _ net' => Occupied s base (fun r => p r ∧ r ∉ slots) net') fun _ _ => True := by
  have hasT : ∀ r ∈ slots, net.table.Has r := fun r hr => (occupied.has wf r).mpr (has r hr)
  refine (leads_releaseValues slots net fun _ => hasT).mono ?_ fun _ _ _ => trivial
  rintro _ _ ⟨table, rfl, becomes⟩
  refine occupied.table wf becomes fun r hr => ?_
  rw [occupied.serves.config, conserve, ← occupied.holds r hr]
  by_cases gone : r ∈ slots <;> simp [gone, Holds]

/-! ### Instructions -/

/-- An instruction adds its outputs and takes away what is given back after it. -/
theorem forwardStep (wf : s.WellFormed) (sparing : Sparing notify)
    (conserve : base.config.conserveMemory = true) (occupied : Occupied s base p net)
    (hi : i ∈ s.forward) {testing : Bool} {released : List Slot}
    (has : ∀ r ∈ released, s.HasSlot r)
    (some : ∀ outs, net.outputsOf testing net.table.valueAt i = .ok outs → .none ∉ outs) :
    Leads (forwardStep notify testing released i) net
      (fun _ net' => Occupied s base (fun r => (p r ∨ r ∈ i.outputs) ∧ r ∉ released) net')
      fun _ _ => True := by
  simp only [Net.forwardStep, leads_bind]
  refine (occupied.gather wf hi).mono ?_ fun _ _ h => h
  rintro ⟨args, kwargs⟩ t ⟨arguments, occupied⟩
  refine (sparing wf occupied _).mono ?_ fun _ _ h => h
  intro _ t occupied
  simp only [outputsOf, arguments] at some
  rw [leads_ofExcept]
  split
  next result run =>
    rw [leads_modify, leads_ofExcept]
    split
    next outs parts =>
      replace some := some outs (by
        change (i.operation.forwardKernel testing args kwargs).bind _ = _
        rw [run]
        exact parts)
      replace occupied := occupied.recorded ⟨t.journal,
        (t.profile.recordEvent i.kind 0).recordForwardStep, rfl⟩
      refine (leads_putValues i.outputs outs _ fun r hr =>
        (occupied.has wf r).mpr (wf.outputs_hasSlot hi hr)).mono ?_ fun _ _ h => h.elim
      rintro _ _ ⟨table, rfl, wrote⟩
      have written : ∀ r, s.HasSlot r →
          (Valuation.write t.table.valueAt i.outputs outs r ≠ .none ↔ p r ∨ r ∈ i.outputs) := by
        intro r hr
        by_cases out : r ∈ i.outputs
        · have mem : Valuation.write t.table.valueAt i.outputs outs r ∈ outs :=
            Valuation.write_mem out (length_of_splitOutputs parts)
          simp only [out, or_true, iff_true]
          exact fun eq => some (eq ▸ mem)
        · rw [Valuation.write_of_not_mem _ _ out, ← occupied.holds r hr]
          simp only [out, or_false]
          exact Iff.rfl
      refine (sparing wf (occupied.table wf wrote written) _).mono ?_ fun _ _ h => h
      intro _ t occupied
      rw [recordLive, leads_modify]
      exact (occupied.recorded ⟨t.journal, _, rfl⟩).release wf conserve has
    next => trivial
  next => trivial

theorem accumulate (wf : s.WellFormed) (occupied : Occupied s base p net) {r : Slot}
    (has : s.HasSlot r) (d : Value) :
    Leads (onTable (VariableTable.accumulate r d none)) net
      (fun _ net' => Occupied s base p net') fun _ _ => True := by
  have here := (occupied.has wf r).mpr has
  rw [leads_onTable, VariableTable.leads_accumulate here]
  split
  · trivial
  · split
    · trivial
    · exact occupied.ders wf (.setDerAt here _)

theorem propagate (wf : s.WellFormed) (sparing : Sparing notify) (occupied : Occupied s base p net)
    (hi : i ∈ s.forward) (dy : Value) :
    Leads (propagate notify i dy) net (fun _ net' => Occupied s base p net') fun _ _ => True := by
  simp only [Net.propagate, leads_bind]
  refine (occupied.gather wf hi).mono ?_ fun _ _ h => h
  rintro ⟨args, kwargs⟩ t ⟨-, occupied⟩
  dsimp only
  split
  · simp only [leads_bind, leads_pure]
    refine (sparing wf occupied _).mono ?_ fun _ _ h => h
    intro _ t occupied
    rw [leads_ofExcept]
    split
    next result run =>
      rw [leads_modify]
      replace occupied := occupied.recorded ⟨t.journal,
        (t.profile.recordEvent (i.kind ++ ".backward") 0).recordBackwardStep, rfl⟩
      refine (leads_accumulateEach i.index _ i.gradientPositions _ fun q hq =>
        (occupied.has wf q.2).mpr (wf.reads_hasSlot hi (wf.gradient_reads hi hq))).mono ?_
        fun _ _ h => h.elim
      rintro _ _ ⟨table, rfl, becomes⟩
      exact sparing wf (occupied.ders wf becomes) _
    next => trivial
  · trivial

/-- Running an instruction backward takes away what is given back after it, whether or not its
kernel is called. -/
theorem backwardStep (wf : s.WellFormed) (sparing : Sparing notify)
    (conserve : base.config.conserveMemory = true) (occupied : Occupied s base p net)
    (hi : i ∈ s.forward) {values ders : List Slot} (hasValues : ∀ r ∈ values, s.HasSlot r)
    (hasDers : ∀ r ∈ ders, s.HasSlot r) :
    Leads (backwardStep notify values ders i) net
      (fun _ net' => Occupied s base (fun r => p r ∧ r ∉ values) net') fun _ _ => True := by
  have last : ∀ t, Occupied s base p t →
      Leads (do recordLive; releaseValues values; releaseDers ders) t
        (fun _ net' => Occupied s base (fun r => p r ∧ r ∉ values) net') fun _ _ => True := by
    intro t occupied
    rw [recordLive, leads_bind, leads_modify, leads_bind]
    refine ((occupied.recorded ⟨t.journal, _, rfl⟩).release wf conserve hasValues).mono ?_
      fun _ _ h => h
    intro _ t occupied
    refine (leads_releaseDers ders t fun r hr => (occupied.has wf r).mpr (hasDers r hr)).mono ?_
      fun _ _ _ => trivial
    rintro _ _ ⟨table, rfl, becomes⟩
    exact occupied.ders wf becomes
  simp only [Net.backwardStep, leads_bind]
  refine (leads_getDers i.outputs net (fun o ho => (occupied.has wf o).mpr
    (wf.outputs_hasSlot hi ho)) (wf.outputs_nodup hi)).mono ?_ fun _ _ _ => trivial
  rintro douts _ ⟨der, table, rfl, -, -, -, becomes⟩
  replace occupied := occupied.ders wf becomes
  split
  · rw [leads_bind]
    refine (occupied.propagate wf sparing hi _).mono ?_ fun _ _ h => h
    intro _ t occupied
    simpa only [leads_bind] using last t occupied
  · simpa only [leads_bind] using last _ occupied

theorem seedDers (wf : s.WellFormed) (occupied : Occupied s base p net) (ws : Workspace)
    (seed : Value) :
    Leads (seedDers ws seed) net (fun _ net' => Occupied s base p net') fun _ _ => True := by
  obtain rfl : net.schedule = s := occupied.serves.runs.schedule
  simp only [Net.seedDers, leads_bind, leads_get]
  split
  next entries _ =>
    refine Leads.forM (fun _ t => Occupied net.schedule base p t) occupied ?_
    rintro _ ⟨key, v⟩ _ t - occupied
    dsimp only
    split
    next name =>
      rw [leads_bind, leads_ofExcept, Schedule.slotOf]
      split
      next r found =>
        split at found
        next q there =>
          cases found
          obtain ⟨l, m, split, -⟩ := List.lookup_eq_some_iff.mp there
          exact occupied.accumulate wf (wf.nameSlots (name, r) (by rw [split]; simp)) v
        next => cases found
      next => trivial
    next => trivial
  next =>
    split
    next r last =>
      obtain ⟨info, mem, index, -⟩ := wf.terminalSlots r (List.mem_of_getLast? last)
      exact occupied.accumulate wf ⟨info, mem, index⟩ _
    next => trivial

end Occupied

/-! ### Observers -/

/-- An observer that waits and is tame sets derivatives or stages inputs, if it does not fail. -/
theorem Occupied.perform (wf : s.WellFormed) (occupied : Occupied s base p net) (ws : Workspace)
    {action : Action} (spares : action.spares = true) :
    Leads (perform ws notify action) net
      (fun _ net' => Occupied s base p net' ∧ net'.observed = net.observed) fun _ _ => True := by
  cases action with
  | refuse => trivial
  | setDer key der =>
    simp only [Net.perform, Net.setDer, leads_bind, leads_get, leads_ofExcept]
    cases slot : net.slotOfKey key with
    | error e => trivial
    | ok r =>
      have here := (occupied.has wf r).mpr (hasSlot_of_key wf occupied.serves.runs slot)
      dsimp only
      rw [leads_onTable, VariableTable.leads_setDer here]
      exact ⟨occupied.ders wf (.setDerAt here der), rfl⟩
  | setInputs inputs =>
    refine (leads_setInputs inputs net).mono ?_ fun _ _ _ => trivial
    rintro _ _ ⟨⟨pending, rfl⟩, -⟩
    exact ⟨occupied.pending pending, rfl⟩
  | _ => cases spares

theorem Occupied.reactOnce (wf : s.WellFormed) (occupied : Occupied s base p net)
    (observed : net.observed = true) (ws : Workspace) (e : Event) (k : Nat) :
    Leads (reactOnce ws notify e k) net
      (fun _ net' => Occupied s base p net' ∧ net'.observed = true) fun _ _ => True := by
  simp only [Net.reactOnce, leads_bind, leads_get]
  split
  next r found =>
    have mem := Array.mem_toList_iff.mpr (Array.mem_of_getElem? found)
    split
    next due =>
      have waiting : r.waiting = true := by
        unfold Reaction.isDue at due
        simp only [Bool.and_eq_true] at due
        exact due.1.1
      rw [leads_bind, leads_modify]
      let taken := net.reactions.modify k fun r => { r with waiting := false }
      have tame : ({ net with reactions := taken } : Net).Tame := by
        intro _ r' mem' waiting'
        obtain ⟨j, bound, rfl⟩ := List.getElem_of_mem mem'
        simp only [taken, Array.getElem_toList, Array.getElem_modify] at waiting' ⊢
        split at waiting'
        next => cases waiting'
        next other =>
          rw [if_neg other]
          exact occupied.tame observed _ (Array.mem_toList_iff.mpr (Array.getElem_mem _)) waiting'
      have occupied' : Occupied s base p { net with reactions := taken } :=
        ⟨occupied.serves.update rfl rfl rfl rfl rfl rfl, tame, occupied.holds⟩
      refine (occupied'.perform wf ws (occupied.tame observed r mem waiting)).mono ?_ fun _ _ h => h
      rintro _ _ ⟨occupied, same⟩
      exact ⟨occupied, same.trans observed⟩
    next => exact ⟨occupied, observed⟩
  next => exact ⟨occupied, observed⟩

/-- The observers of a tame net leave it to the pass which slots hold values. -/
theorem sparing_notifyObservers (ws : Workspace) : Sparing (notifyObservers ws) := by
  intro s base net p wf occupied signal
  simp only [notifyObservers, leads_bind, leads_get]
  cases signal with
  | kernel instruction args kwargs =>
    simp only [react, leads_pure]
    exact occupied
  | event e =>
    cases net.reactions.size with
    | zero =>
      simp only [react, leads_bind, leads_get]
      split
      · exact occupied.recorded ⟨_, _, rfl⟩
      · exact occupied
    | succ depth =>
      simp only [react, leads_bind, leads_get]
      split
      next observed =>
        simp only [leads_bind, leads_set]
        let told : Net :=
          { net with journal := { net.journal with events := net.journal.events.push e } }
        have start : Occupied s base p told ∧ told.observed = true :=
          ⟨occupied.recorded ⟨_, _, rfl⟩, observed⟩
        have rounds : Leads ((List.range net.reactions.size).forM fun k =>
            Net.reactOnce ws (react ws depth) e k) told
            (fun _ t => Occupied s base p t ∧ t.observed = true) fun _ _ => True := by
          refine Leads.forM (fun _ t => Occupied s base p t ∧ t.observed = true) start ?_
          rintro _ k _ t - ⟨occupied, observed⟩
          exact occupied.reactOnce wf observed ws e k
        exact rounds.mono (fun _ _ h => h.1) fun _ _ h => h
      · exact occupied

end Net

end Backprop
