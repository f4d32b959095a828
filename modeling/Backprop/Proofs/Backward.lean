import Backprop.Proofs.Forward
import Backprop.Proofs.Adjoint
/-!
# Backward passes

A backward pass computes the derivatives that `Net.adjointAfter` defines, although contributions
arrive from the last instruction on, and storage is given back on the way.

* `sortParts_append`: contributions of an earlier instruction are added before all that wait.
* `leads_backwardStep`: what one instruction reads, sends and gives back.
* `leads_backwardSteps`: between two parts of the backward list, what waits for a slot is what the
  instructions that have run sent to it, and the outputs of these hold their derivatives.
-/

namespace Backprop

/-! ### Contributions that wait -/

theorem Position.lt_asymm {a b : Position} (h : a.lt b = true) : b.lt a = false := by
  simp only [Position.lt, Bool.or_eq_true, decide_eq_true_eq, Bool.and_eq_true, beq_iff_eq] at h
  simp only [Position.lt, Bool.or_eq_false_iff, decide_eq_false_iff_not, Bool.and_eq_false_iff,
    beq_eq_false_iff_ne]
  omega

namespace VariableTable

theorem insertPart_of_lt {p : Position × Value} {l : List (Position × Value)}
    (h : ∀ q ∈ l, p.1.lt q.1 = true) : insertPart p l = p :: l := by
  cases l with
  | nil => rfl
  | cons q l => rw [insertPart, if_pos (h q (by simp))]

theorem insertPart_append {p : Position × Value} : ∀ {a : List (Position × Value)}
    (l : List (Position × Value)), (∀ q ∈ a, q.1.lt p.1 = true) →
    insertPart p (a ++ l) = a ++ insertPart p l := by
  intro a
  induction a with
  | nil => intro _ _; rfl
  | cons q a ih =>
    intro l before
    have behind := Position.lt_asymm (before q (by simp))
    rw [List.cons_append, insertPart, behind, ih l fun q hq => before q (by simp [hq])]
    rfl

/-- Contributions that come before all that wait are put in front, in their order. -/
theorem sortParts_append {parts own : List (Position × Value)}
    (sorted : own.Pairwise fun p q => p.1.lt q.1 = true)
    (smaller : ∀ p ∈ own, ∀ q ∈ sortParts parts, p.1.lt q.1 = true) :
    sortParts (parts ++ own) = own ++ sortParts parts := by
  have insert : ∀ (own a : List (Position × Value)),
      (a ++ own).Pairwise (fun p q => p.1.lt q.1 = true) →
      (∀ p ∈ own, ∀ q ∈ sortParts parts, p.1.lt q.1 = true) →
      own.foldl (fun sorted p => insertPart p sorted) (a ++ sortParts parts) =
        a ++ own ++ sortParts parts := by
    intro own
    induction own with
    | nil => intro a _ _; simp
    | cons p own ih =>
      intro a sorted smaller
      have before : ∀ q ∈ a, q.1.lt p.1 = true := fun q hq =>
        (List.pairwise_append.mp sorted).2.2 q hq p (by simp)
      rw [List.foldl_cons, insertPart_append _ before, insertPart_of_lt (smaller p (by simp))]
      have next := ih (a ++ [p]) (by simpa using sorted) fun q hq => smaller q (by simp [hq])
      simpa using next
  rw [sortParts, List.foldl_append]
  exact insert own [] sorted smaller

end VariableTable

namespace Net

variable {s : Schedule} {net net' : Net} {i : Instruction} {notify : Notify}

/-- Reading the derivatives of different slots adds up what waits for them. -/
theorem leads_getDers : ∀ (slots : List Slot) (net : Net), (∀ o ∈ slots, net.table.Has o) →
    slots.Nodup →
    Leads (slots.mapM fun o => onTable (VariableTable.getDer o)) net
      (fun ds net' => ∃ der table, net' = { net with table } ∧ ds = slots.map der ∧
        (∀ o ∈ slots, net.table.readDer o = .ok (der o)) ∧
        (∀ r, net.table.Has r → r ∉ slots → der r = net.table.derAt r) ∧
        net.table.Becomes table net.table.valueAt der
          fun r => if r ∈ slots then [] else net.table.partsAt r)
      (fun e _ => slots.mapM net.table.readDer = .error e) := by
  intro slots
  induction slots with
  | nil =>
    intro net _ _
    refine ⟨net.table.derAt, net.table, rfl, rfl, by simp, fun _ _ _ => rfl, ?_⟩
    exact (VariableTable.Becomes.refl _).congr (fun _ _ => rfl) (fun _ _ => rfl) fun _ _ => by simp
  | cons q slots ih =>
    intro net has nodup
    obtain ⟨new, nodup⟩ := List.nodup_cons.mp nodup
    have here := has q (by simp)
    simp only [List.mapM_cons, leads_bind, leads_onTable, VariableTable.leads_getDer here,
      leads_pure]
    cases read : net.table.readDer q with
    | error e => rfl
    | ok d =>
      have set := VariableTable.Becomes.setDerAt here d
      have later : ∀ o ∈ slots, (net.table.setDerAt q d).Has o := fun o ho =>
        (set.same.has o).mpr (has o (by simp [ho]))
      have same : ∀ o ∈ slots, (net.table.setDerAt q d).readDer o = net.table.readDer o := by
        intro o ho
        have ne : o ≠ q := fun eq => new (eq ▸ ho)
        have there := has o (by simp [ho])
        refine VariableTable.readDer_congr set.same.addition ?_ ?_
        · rw [set.ders o there, if_neg ne]
        · rw [set.parts o there, if_neg ne]
      apply (ih { net with table := net.table.setDerAt q d } later nodup).mono
      · rintro _ _ ⟨der, table, rfl, rfl, reads, others, becomes⟩
        have head : der q = d := by
          rw [others q ((set.same.has q).mpr here) new, set.ders q here, if_pos rfl]
        refine ⟨der, table, rfl, by rw [List.map_cons, head], ?_, ?_, ?_⟩
        · intro o ho
          by_cases later : o ∈ slots
          · rw [← same o later]
            exact reads o later
          · obtain rfl : o = q := by simpa [later] using ho
            rw [read, head]
        · intro r there hr
          rw [List.mem_cons, not_or] at hr
          rw [others r ((set.same.has r).mpr there) hr.2, set.ders r there, if_neg hr.1]
        · refine (set.trans becomes).congr (fun r hr => set.values r hr) (fun _ _ => rfl)
            fun r hr => ?_
          by_cases later : r ∈ slots
          · simp [later]
          · by_cases eq : r = q
            · simp [eq, set.parts q here]
            · simp [eq, later, set.parts r hr]
      · intro e _ failed
        rw [mapM_congr_mem same] at failed
        rw [failed]
        rfl

/-- Every derivative that is there waits for the slot of its argument. -/
theorem leads_accumulateEach (index : Nat) (ders : List Value) (l : List (Nat × Slot))
    (net : Net) (has : ∀ q ∈ l, net.table.Has q.2) :
    Leads (l.forM fun (position, slot) =>
        match ders[position]? with
        | none | some .none => pure ()
        | some der => onTable (VariableTable.accumulate slot der (some ⟨index, position⟩))) net
      (fun _ net' => ∃ table, net' = { net with table } ∧
        net.table.Becomes table net.table.valueAt net.table.derAt
          fun r => net.table.partsAt r ++ Instruction.entries index l ders r)
      (fun _ _ => False) := by
  refine Leads.forM (fun seen net' => ∃ table, net' = { net with table } ∧
    net.table.Becomes table net.table.valueAt net.table.derAt
      fun r => net.table.partsAt r ++ Instruction.entries index seen ders r) ?_ ?_
  · exact ⟨net.table, rfl, (VariableTable.Becomes.refl _).congr (fun _ _ => rfl) (fun _ _ => rfl)
      fun _ _ => by simp [Instruction.entries]⟩
  · rintro seen ⟨position, slot⟩ rest _ split ⟨table, rfl, becomes⟩
    have here : table.Has slot := (becomes.same.has slot).mpr (has (position, slot) (by simp [split]))
    have last : ∀ r, Instruction.entries index (seen ++ [(position, slot)]) ders r =
        Instruction.entries index seen ders r ++
          Instruction.entries index [(position, slot)] ders r := fun r => by
      simp [Instruction.entries, List.filterMap_append]
    have nothing : (∀ r, Instruction.entries index [(position, slot)] ders r = []) →
        ∃ table', { net with table } = { net with table := table' } ∧
          net.table.Becomes table' net.table.valueAt net.table.derAt fun r =>
            net.table.partsAt r ++ Instruction.entries index (seen ++ [(position, slot)]) ders r :=
      fun empty => ⟨table, rfl, becomes.congr (fun _ _ => rfl) (fun _ _ => rfl)
        fun r _ => by rw [last, empty, List.append_nil]⟩
    dsimp only
    split
    next missing => exact nothing fun r => by simp [Instruction.entries, missing]
    next missing => exact nothing fun r => by simp [Instruction.entries, missing, Value.isNone]
    next _ der notNone found =>
      have some : der.isNone = false := by
        cases der <;> first | rfl | exact absurd rfl notNone
      have add := VariableTable.Becomes.addPart here ⟨index, position⟩ der
      rw [leads_onTable, VariableTable.leads_accumulate_at here]
      refine ⟨_, rfl, (becomes.trans add).congr becomes.values becomes.ders fun r hr => ?_⟩
      rw [last, becomes.parts r hr]
      by_cases eq : r = slot
      · simp [Instruction.entries, eq, found, some, Option.filter]
      · simp [Instruction.entries, eq, Ne.symm eq]

/-- What a backward kernel yields when arguments are at hand. -/
theorem dersOf_of_argumentsOf {args : List Value} {kwargs : Keywords}
    (arguments : net.argumentsOf val i = .ok (args, kwargs)) (douts : List Value) :
    net.dersOf val i douts = (do
      let kernel ←
        match i.operation.backward with
        | some kernel => pure kernel
        | none => throw .badCall
      return derivativesOf (← kernel (args ++ [joined douts]) kwargs)) := by
  simp only [dersOf, arguments]
  rfl

theorem leads_propagate (wf : s.WellFormed) (runs : Runs s net) (hi : i ∈ s.forward)
    (silent : Silent notify) (quiet : net.Quiet) (douts : List Value) :
    Leads (propagate notify i (joined douts)) net
      (fun _ net' => Follows s net net' ∧
        ∃ ders, net.dersOf net.table.valueAt i douts = .ok ders ∧
          net.table.Becomes net'.table net.table.valueAt net.table.derAt
            fun r => net.table.partsAt r ++ i.entriesFor ders r)
      (fun e _ => net.dersOf net.table.valueAt i douts = .error e) := by
  simp only [propagate, leads_bind]
  apply (leads_gather wf.inPlace runs hi).mono
  · rintro ⟨args, kwargs⟩ u ⟨gathered, gathers, table⟩
    have ders := dersOf_of_argumentsOf gathered douts
    cases backward : i.operation.backward with
    | none =>
      simp only [backward] at ders
      exact ders
    | some kernel =>
      simp only [leads_bind, leads_pure]
      refine leads_silent silent (gathers.quiet quiet) _ fun t calls => ?_
      have follows := gathers.trans (.of_recorded gathers.runs calls)
      rw [← calls.table] at table
      simp only [leads_ofExcept]
      cases run : kernel (args ++ [joined douts]) kwargs with
      | error e =>
        simp only [backward, pure_bind, run] at ders
        exact ders
      | ok result =>
        simp only [backward, pure_bind, run] at ders
        simp only [leads_modify]
        have has : ∀ q ∈ i.gradientPositions, t.table.Has q.2 := fun q hq =>
          (follows.runs.has wf q.2).mpr (wf.reads_hasSlot hi (wf.gradient_reads hi hq))
        apply (leads_accumulateEach i.index (derivativesOf result) i.gradientPositions
          { t with profile :=
              (t.profile.recordEvent (i.kind ++ ".backward") 0).recordBackwardStep } has).mono _
          fun _ _ h => h.elim
        rintro _ _ ⟨last, rfl, becomes⟩
        refine leads_silent silent ?_ _ ?_
        · exact follows.quiet quiet
        rintro _ ⟨journal, profile, rfl⟩
        refine ⟨?_, derivativesOf result, ders, ?_⟩
        · exact follows.trans ((Follows.of_table follows.runs becomes.same).trans
            (Follows.of_recorded (Follows.of_table follows.runs becomes.same).runs ⟨_, _, rfl⟩))
        · rw [← table]
          exact becomes
  · intro e t failed
    simp only [dersOf, failed]
    rfl

theorem leads_releaseDers (slots : List Slot) (net : Net) (has : ∀ r ∈ slots, net.table.Has r) :
    Leads (releaseDers slots) net
      (fun _ net' => ∃ table, net' = { net with table } ∧
        net.table.Becomes table net.table.valueAt
          (fun r => if net.config.conserveMemory = true ∧ r ∈ slots then .int 0
            else net.table.derAt r)
          fun r => if net.config.conserveMemory = true ∧ r ∈ slots then []
            else net.table.partsAt r)
      (fun _ _ => False) := by
  simp only [releaseDers, leads_bind, leads_get]
  split
  next conserve =>
    refine Leads.forM (fun seen net' => ∃ table, net' = { net with table } ∧
      net.table.Becomes table net.table.valueAt
        (fun r => if net.config.conserveMemory = true ∧ r ∈ seen then .int 0
          else net.table.derAt r)
        fun r => if net.config.conserveMemory = true ∧ r ∈ seen then []
          else net.table.partsAt r) ?_ ?_
    · exact ⟨net.table, rfl, (VariableTable.Becomes.refl _).congr (fun _ _ => rfl)
        (fun _ _ => by simp) fun _ _ => by simp⟩
    · rintro seen q rest _ split ⟨table, rfl, so⟩
      have here : table.Has q := (so.same.has q).mpr (has q (by simp [split]))
      simp only [leads_onTable, VariableTable.releaseDer, VariableTable.leads_setDer here]
      refine ⟨_, rfl, (so.trans (.setDerAt here (.int 0))).congr so.values ?_ ?_⟩
      · intro r hr
        by_cases eq : r = q <;> simp [eq, conserve, so.ders r hr]
      · intro r hr
        by_cases eq : r = q <;> simp [eq, conserve, so.parts r hr]
  next conserve =>
    exact ⟨net.table, rfl, (VariableTable.Becomes.refl _).congr (fun _ _ => rfl)
      (fun _ _ => by simp [conserve]) fun _ _ => by simp [conserve]⟩

/-- What follows an instruction's part in a pass: the table is given back in part. -/
theorem leads_giveBack (runs : Runs s net) {values ders : List Slot}
    (hasValues : ∀ r ∈ values, net.table.Has r) (hasDers : ∀ r ∈ ders, net.table.Has r) :
    Leads (do recordLive; releaseValues values; releaseDers ders) net
      (fun _ net' => Follows s net net' ∧ net.table.Becomes net'.table
        (fun r => if net.config.conserveMemory = true ∧ r ∈ values then .none
          else net.table.valueAt r)
        (fun r => if net.config.conserveMemory = true ∧ r ∈ ders then .int 0
          else net.table.derAt r)
        fun r => if net.config.conserveMemory = true ∧ r ∈ ders then []
          else net.table.partsAt r)
      (fun _ _ => False) := by
  simp only [recordLive, leads_bind, leads_modify]
  have recorded := Follows.of_recorded runs ⟨net.journal,
    net.profile.recordLive net.table.liveSlots.length net.table.liveBytes, rfl⟩
  apply (leads_releaseValues values
    { net with
      profile := net.profile.recordLive net.table.liveSlots.length net.table.liveBytes }
    fun _ => hasValues).mono _ fun _ _ h => h
  rintro _ _ ⟨table, rfl, gave⟩
  have values' := Follows.of_table recorded.runs gave.same
  apply (leads_releaseDers ders _ fun r hr => (gave.same.has r).mpr (hasDers r hr)).mono _
    fun _ _ h => h
  rintro _ _ ⟨table', rfl, gave'⟩
  refine ⟨recorded.trans (values'.trans (Follows.of_table values'.runs gave'.same)), ?_⟩
  refine (VariableTable.Becomes.trans gave gave').congr gave.values (fun r hr => ?_)
    fun r hr => ?_
  · rw [gave.ders r hr]
  · rw [gave.parts r hr]

/-- What running an instruction backward changes: the derivatives of its outputs are read, its
reaction waits for the slots of its arguments, and some storage is given back. -/
structure Stepped (s : Schedule) (i : Instruction) (values ders : List Slot) (net net' : Net)
    (der : Valuation) (reaction : List Value) : Prop where
  follows : Follows s net net'
  reacts : net.reaction net.table.valueAt net.table.readDer i = .ok reaction
  reads : ∀ o ∈ i.outputs, net.table.readDer o = .ok (der o)
  others : ∀ r, net.table.Has r → r ∉ i.outputs → der r = net.table.derAt r
  becomes : net.table.Becomes net'.table
    (fun r => if net.config.conserveMemory = true ∧ r ∈ values then .none else net.table.valueAt r)
    (fun r => if net.config.conserveMemory = true ∧ r ∈ ders then .int 0 else der r)
    fun r => if net.config.conserveMemory = true ∧ r ∈ ders then []
      else (if r ∈ i.outputs then [] else net.table.partsAt r) ++ i.entriesFor reaction r

theorem leads_backwardStep (wf : s.WellFormed) (runs : Runs s net) (hi : i ∈ s.forward)
    (silent : Silent notify) (quiet : net.Quiet) {values ders : List Slot}
    (hasValues : ∀ r ∈ values, s.HasSlot r) (hasDers : ∀ r ∈ ders, s.HasSlot r) :
    Leads (backwardStep notify values ders i) net
      (fun _ net' => ∃ der reaction, Stepped s i values ders net net' der reaction)
      (fun e _ => net.reaction net.table.valueAt net.table.readDer i = .error e) := by
  have has : ∀ r, net.table.Has r ↔ s.HasSlot r := runs.has wf
  simp only [backwardStep, leads_bind]
  apply (leads_getDers i.outputs net (fun o ho => (has o).mpr (wf.outputs_hasSlot hi ho))
    (wf.outputs_nodup hi)).mono
  · rintro _ _ ⟨der, table, rfl, rfl, reads, others, read⟩
    have douts : i.outputs.mapM net.table.readDer = .ok (i.outputs.map der) := by
      rw [mapM_congr_mem reads]
      exact List.mapM_pure
    have reaction : net.reaction net.table.valueAt net.table.readDer i =
        if (i.outputs.map der).any (fun d => !d.isZero) then
          net.dersOf net.table.valueAt i (i.outputs.map der)
        else .ok [] := by
      simp only [Net.reaction, douts]
      rfl
    have follows := Follows.of_table runs read.same
    have last : ∀ (t : Net) (sent : List Value), Follows s { net with table } t →
        net.reaction net.table.valueAt net.table.readDer i = .ok sent →
        table.Becomes t.table table.valueAt table.derAt
          (fun r => table.partsAt r ++ i.entriesFor sent r) →
        Leads (do recordLive; releaseValues values; releaseDers ders) t
          (fun _ net' => ∃ der reaction, Stepped s i values ders net net' der reaction)
          (fun e _ => net.reaction net.table.valueAt net.table.readDer i = .error e) := by
      intro t sent after reacts becomes
      have hasT : ∀ r, t.table.Has r ↔ s.HasSlot r := after.runs.has wf
      apply (leads_giveBack after.runs (fun r hr => (hasT r).mpr (hasValues r hr))
        fun r hr => (hasT r).mpr (hasDers r hr)).mono _ fun _ _ h => h.elim
      rintro _ net' ⟨follows', gave⟩
      rw [show t.config = net.config from after.config] at gave
      have both := read.trans becomes
      refine ⟨der, sent, follows.trans (after.trans follows'), reacts, reads, others,
        (both.trans gave).congr (fun r hr => ?_) (fun r hr => ?_) fun r hr => ?_⟩
      · rw [both.values r hr, read.values r hr]
      · rw [both.ders r hr, read.ders r hr]
      · rw [both.parts r hr, read.parts r hr]
    split
    next some =>
      rw [if_pos some] at reaction
      have ders' : ({ net with table } : Net).dersOf table.valueAt i (i.outputs.map der) =
          net.dersOf net.table.valueAt i (i.outputs.map der) :=
        dersOf_congr fun r hr => read.values r ((has r).mpr (wf.reads_hasSlot hi hr))
      simp only [leads_bind]
      apply (leads_propagate wf follows.runs hi silent quiet (i.outputs.map der)).mono
      · rintro _ t ⟨after, sent, run, becomes⟩
        rw [ders', ← reaction] at run
        simpa only [leads_bind] using last t sent after run becomes
      · intro e _ failed
        rw [ders', ← reaction] at failed
        exact failed
    next none =>
      rw [if_neg none] at reaction
      have becomes : table.Becomes table table.valueAt table.derAt
          (fun r => table.partsAt r ++ i.entriesFor [] r) :=
        (VariableTable.Becomes.refl _).congr (fun _ _ => rfl) (fun _ _ => rfl)
          fun r _ => by simp [Instruction.entriesFor, Instruction.entries]
      simpa only [leads_bind] using last _ [] (.refl follows.runs) reaction becomes
  · intro e _ failed
    simp only [Net.reaction, failed]
    rfl

/-! ### A run of instructions -/

/-- The state between two parts of the backward list, in a pass that started from `base`: `done` have
run, in reverse order, and `rest` have not. Those that have run did not fail. -/
structure Returning (s : Schedule) (start : Cotangent) (val : Valuation) (base net : Net)
    (done rest : List Instruction) : Prop where
  follows : Follows s base net
  values : ∀ r, s.HasSlot r → net.HoldsWhile r (val r) (s.Wanted base.config.conserveMemory rest r)
  waits : ∀ r, s.HasSlot r → ¬ Written done r → start r = .ok (net.table.derAt r) ∧
    base.received start val done r = .ok (VariableTable.sortParts (net.table.partsAt r))
  kept : ∀ r, s.HasSlot r → Written done r → s.Wanted base.config.conserveMemory [] r →
    base.adjointAfter start val done r = .ok (net.table.derAt r)
  dropped : ∀ r, s.HasSlot r → Written done r → ¬ s.Wanted base.config.conserveMemory [] r →
    net.table.derAt r = .int 0
  read : ∀ r, s.HasSlot r → Written done r → net.table.partsAt r = []
  reacts : ∀ i l, i :: l <:+ done → ∃ ders, base.reaction val (base.adjointAfter start val l) i = .ok ders

variable {start : Cotangent} {val : Valuation} {base : Net} {done rest : List Instruction}

namespace Returning

theorem recorded {net' : Net} {l : List Instruction}
    (state : Returning s start val base net done l) (h : Recorded net net') :
    Returning s start val base net' done l := by
  have follows := state.follows.trans (.of_recorded state.follows.runs h)
  obtain ⟨_, _, rfl⟩ := h
  exact ⟨follows, state.values, state.waits, state.kept, state.dropped, state.read, state.reacts⟩

/-- What reading an open derivative gives is what the instructions that have run sent. -/
theorem readDer {l : List Instruction} (state : Returning s start val base net done l) {r : Slot}
    (has : s.HasSlot r) (open' : ¬ Written done r) :
    net.table.readDer r = base.adjointAfter start val done r := by
  obtain ⟨begins, parts⟩ := state.waits r has open'
  simp only [VariableTable.readDer, adjointAfter, parts, begins, state.follows.addition]
  exact (List.foldlM_map ..).symm

theorem reaction (wf : s.WellFormed) (state : Returning s start val base net done (i :: rest))
    (split : s.backward = done.reverse ++ i :: rest) :
    net.reaction net.table.valueAt net.table.readDer i =
      base.reaction val (base.adjointAfter start val done) i := by
  have here : i ∈ s.backward := by rw [split]; simp
  have hi := wf.mem_forward_of_backward here
  rw [reaction_eq state.follows.argumentsOf]
  have open' : ∀ o ∈ i.outputs, ¬ Written done o := by
    rintro o ho ⟨j, hj, out⟩
    exact (wf.backward_outputs_apart split ho).1 ⟨j, List.mem_reverse.mpr hj, out⟩
  rw [reaction_congr fun o ho => state.readDer (wf.outputs_hasSlot hi ho) (open' o ho)]
  have reads : ∀ r ∈ i.reads, net.table.valueAt r = val r := fun r hr =>
    (state.values r (wf.reads_hasSlot hi hr)).1 (.inr (.inr (.inr ⟨i, by simp, hr⟩)))
  simp only [Net.reaction, dersOf_congr reads]

/-- What waits for a slot after an instruction: its own contributions, and then the others. -/
theorem received_next (wf : s.WellFormed) (split : s.backward = done.reverse ++ i :: rest)
    {ders : List Value} (reacts : base.reaction val (base.adjointAfter start val done) i = .ok ders)
    {parts : List (Position × Value)} {r : Slot}
    (waits : base.received start val done r = .ok (VariableTable.sortParts parts)) :
    base.received start val (i :: done) r =
      .ok (VariableTable.sortParts (parts ++ i.entriesFor ders r)) := by
  have here : i ∈ s.backward := by rw [split]; simp
  have hi := wf.mem_forward_of_backward here
  have own := sent_of_reaction (wf.requiresGradient_of_backward here) reacts (r := r)
  rw [received_cons, own, waits, VariableTable.sortParts_append (entriesFor_sorted wf hi ders)]
  · rfl
  · intro p hp q hq
    obtain ⟨j, hj, index⟩ := received_index waits q hq
    have less := wf.index_lt_of_backward split j hj
    rw [← entriesFor_index hp, ← index] at less
    simp [Position.lt, less]

/-- Nothing is sent to slots that are written already. -/
theorem not_sendsTo_written (wf : s.WellFormed) (split : s.backward = done.reverse ++ i :: rest)
    {r : Slot} (written : Written (i :: done) r) : i.sendsTo r = false := by
  have hi := wf.mem_forward_of_backward (i := i) (by rw [split]; simp)
  rw [written_cons] at written
  by_contra sendsTo
  have sendsTo' : i.requiresGradient = true ∧ ∃ q ∈ i.gradientPositions, q.2 = r := by
    simpa [Instruction.sendsTo] using sendsTo
  obtain ⟨_, q, hq, rfl⟩ := sendsTo'
  obtain ⟨pre, post, split'⟩ := List.append_of_mem hi
  obtain ⟨own, later⟩ := wf.reads_not_later split' (wf.gradient_reads hi hq)
  rcases written with out | ⟨j, hj, out⟩
  · exact own out
  · exact later ⟨j, wf.behind_of_backward split split' j hj, out⟩

/-- The derivatives of slots that are written stay. -/
theorem adjointAfter_written (wf : s.WellFormed) (split : s.backward = done.reverse ++ i :: rest)
    {r : Slot} (written : Written (i :: done) r) :
    base.adjointAfter start val (i :: done) r = base.adjointAfter start val done r := by
  have skip : base.received start val ([i] ++ done) r = base.received start val done r :=
    received_skip (by simpa using not_sendsTo_written wf split written)
  simp only [List.singleton_append] at skip
  simp only [adjointAfter, skip]

/-- What an instruction leaves is the state after it. -/
theorem step (wf : s.WellFormed) (state : Returning s start val base net done (i :: rest))
    (split : s.backward = done.reverse ++ i :: rest) {net' : Net} {der : Valuation}
    {sent : List Value} (sends : base.reaction val (base.adjointAfter start val done) i = .ok sent)
    (step : Stepped s i (s.release.backwardValues.getD done.length [])
      (s.release.backwardDers.getD done.length []) net net' der sent) :
    Returning s start val base net' (i :: done) rest := by
  have here : i ∈ s.backward := by rw [split]; simp
  have gradient := wf.requiresGradient_of_backward here
  have has : ∀ r, s.HasSlot r → net.table.Has r := fun r => (state.follows.runs.has wf r).mpr
  have conserve : net.config.conserveMemory = base.config.conserveMemory :=
    congrArg Config.conserveMemory state.follows.config
  have dropped : ∀ r, s.HasSlot r → ((net.config.conserveMemory = true ∧
      r ∈ s.release.backwardDers.getD done.length []) ↔
        r ∈ i.outputs ∧ ¬ s.Wanted base.config.conserveMemory [] r) := by
    intro r hr
    have iff := wf.dropped_iff base.config.conserveMemory split hr
    rw [List.length_reverse] at iff
    rw [conserve]
    exact iff
  constructor
  case follows => exact state.follows.trans step.follows
  case values =>
    intro r hr
    have wanted := wf.wanted_backward base.config.conserveMemory split hr
    rw [List.length_reverse] at wanted
    obtain ⟨held, gone⟩ := state.values r hr
    unfold HoldsWhile
    rw [step.becomes.values r (has r hr), wanted, conserve]
    split
    next released => exact ⟨fun h => absurd released h.1, fun _ => rfl⟩
    next stays => exact ⟨fun h => held h.2, fun h => gone fun p => h ⟨stays, p⟩⟩
  case waits =>
    intro r hr unwritten
    rw [written_cons, not_or] at unwritten
    have stays := mt (dropped r hr).mp fun h => unwritten.1 h.1
    obtain ⟨begins, waits⟩ := state.waits r hr unwritten.2
    rw [step.becomes.ders r (has r hr), step.becomes.parts r (has r hr), if_neg stays,
      if_neg stays, if_neg unwritten.1, step.others r (has r hr) unwritten.1]
    exact ⟨begins, received_next wf split sends waits⟩
  case kept =>
    intro r hr written wanted
    rw [adjointAfter_written wf split written, step.becomes.ders r (has r hr),
      if_neg (mt (dropped r hr).mp fun h => h.2 wanted)]
    by_cases out : r ∈ i.outputs
    · have apart : ¬ Written done r := by
        rintro ⟨j, hj, out'⟩
        exact (wf.backward_outputs_apart split out).1 ⟨j, List.mem_reverse.mpr hj, out'⟩
      rw [← step.reads r out]
      exact (state.readDer hr apart).symm
    · rw [step.others r (has r hr) out]
      rw [written_cons] at written
      exact state.kept r hr (written.resolve_left out) wanted
  case dropped =>
    intro r hr written unwanted
    rw [step.becomes.ders r (has r hr)]
    by_cases out : r ∈ i.outputs
    · rw [if_pos ((dropped r hr).mpr ⟨out, unwanted⟩)]
    · rw [if_neg (mt (dropped r hr).mp fun h => out h.1), step.others r (has r hr) out]
      rw [written_cons] at written
      exact state.dropped r hr (written.resolve_left out) unwanted
  case read =>
    intro r hr written
    rw [step.becomes.parts r (has r hr),
      entriesFor_of_not_sendsTo gradient (not_sendsTo_written wf split written), List.append_nil]
    by_cases out : r ∈ i.outputs
    · simp [out]
    · rw [written_cons] at written
      simp [out, state.read r hr (written.resolve_left out)]
  case reacts =>
    intro j l suffix
    rcases List.suffix_cons_iff.mp suffix with same | earlier
    · obtain ⟨rfl, rfl⟩ := List.cons.inj same
      exact ⟨sent, sends⟩
    · exact state.reacts j l earlier

/-- One instruction carries the state on. -/
theorem next (wf : s.WellFormed) (state : Returning s start val base net done (i :: rest))
    (split : s.backward = done.reverse ++ i :: rest) (silent : Silent notify)
    (quiet : base.Quiet) :
    Leads (backwardStep notify (s.release.backwardValues.getD done.length [])
        (s.release.backwardDers.getD done.length []) i) net
      (fun _ net' => Returning s start val base net' (i :: done) rest)
      (fun e _ => base.reaction val (base.adjointAfter start val done) i = .error e) := by
  have hi := wf.mem_forward_of_backward (i := i) (by rw [split]; simp)
  have values := wf.mem_backwardValues split
  have ders := wf.mem_backwardDers split
  rw [List.length_reverse] at values ders
  have reacts := state.reaction wf split
  apply (leads_backwardStep wf state.follows.runs hi silent (state.follows.quiet quiet)
    (fun r hr => ((values r).mp hr).1) fun r hr => ((ders r).mp hr).1).mono
  · rintro _ net' ⟨der, sent, step⟩
    exact state.step wf split (reacts.symm.trans step.reacts) step
  · intro e _ failed
    rw [← reacts]
    exact failed

end Returning

/-- Why a backward run fails: an instruction's reaction does, given what the later ones sent. -/
def Fails (s : Schedule) (start : Cotangent) (val : Valuation) (base : Net) (e : Error) : Prop :=
  ∃ done i rest, s.backward = done.reverse ++ i :: rest ∧
    base.reaction val (base.adjointAfter start val done) i = .error e

/-- A part of the backward list leaves behind the derivatives that it defines. -/
theorem leads_backwardSteps (wf : s.WellFormed) (silent : Silent notify)
    (quiet : base.Quiet) :
    ∀ (mid done : List Instruction) (net : Net), s.backward = done.reverse ++ (mid ++ rest) →
      Returning s start val base net done (mid ++ rest) →
      Leads (backwardSteps notify s.release done.length mid) net
        (fun _ net' => Returning s start val base net' (mid.reverse ++ done) rest)
        (fun e _ => Fails s start val base e) := by
  intro mid
  induction mid with
  | nil =>
    intro done net _ state
    exact state
  | cons i mid ih =>
    intro done net split state
    simp only [backwardSteps, leads_bind, leads_attempt]
    apply (state.next wf split silent quiet).mono
    · intro _ net' state'
      have rest := ih (i :: done) net' (by simpa using split) state'
      simpa using rest
    · exact fun e _ failed => ⟨done, i, mid ++ rest, split, failed⟩

/-- When all have run, every derivative that is kept can be read. -/
theorem Returning.readDer_eq (wf : s.WellFormed)
    (state : Returning s start val base net (s.forward.filter (·.requiresGradient)) [])
    {r : Slot} (has : s.HasSlot r)
    (kept : s.IsLeaf r ∨ s.Wanted base.config.conserveMemory [] r) :
    net.table.readDer r = base.adjointAfter start val s.forward r := by
  have all : base.adjointAfter start val s.forward r =
      base.adjointAfter start val (s.forward.filter (·.requiresGradient)) r := by
    simp only [adjointAfter, received_filter]
  rw [all]
  by_cases written : Written (s.forward.filter (·.requiresGradient)) r
  · have wanted : s.Wanted base.config.conserveMemory [] r := by
      refine kept.resolve_left fun leaf => wf.not_written_of_isLeaf leaf ?_
      obtain ⟨j, hj, out⟩ := written
      exact ⟨j, List.mem_of_mem_filter hj, out⟩
    rw [VariableTable.readDer_of_partsAt (state.read r has written),
      state.kept r has written wanted]
  · exact state.readDer has written

end Net

end Backprop
