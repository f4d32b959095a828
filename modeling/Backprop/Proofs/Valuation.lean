import Backprop.Net.Reaction
import Backprop.Proofs.Table
import Backprop.Proofs.Liveness
/-!
# What instructions compute

Instructions as functions of the values that slots hold, without a table.

* `Net.outputsOf` is what an instruction computes from a valuation; constants are moved to the
  device of the net where they are placed there.
* `Net.valuesAfter` runs a list of instructions.
* `Net.Runs` holds while a net runs a schedule: the table has the schedule's slots, and constants
  that were moved before are those that would be moved now. `Net.leads_gather` then says what an
  instruction is run on.
-/

namespace Backprop

/-- What every slot holds. -/
abbrev Valuation := Slot → Value

namespace Valuation

/-- A valuation after values were written to slots, one after the other. -/
def write (val : Valuation) : List Slot → List Value → Valuation
  | s :: slots, v :: vs => write (fun r => if r = s then v else val r) slots vs
  | _, _ => val

theorem write_congr {val val' : Valuation} {r : Slot} (h : val r = val' r) :
    ∀ (slots : List Slot) (vs : List Value), val.write slots vs r = val'.write slots vs r := by
  intro slots
  induction slots generalizing val val' with
  | nil => intro _; exact h
  | cons s slots ih =>
    intro vs
    cases vs with
    | nil => exact h
    | cons v vs =>
      apply ih
      by_cases eq : r = s <;> simp [eq, h]

theorem write_of_not_mem {r : Slot} : ∀ {slots : List Slot} (val : Valuation) (vs : List Value),
    r ∉ slots → val.write slots vs r = val r := by
  intro slots
  induction slots with
  | nil => intro _ _ _; rfl
  | cons s slots ih =>
    intro val vs h
    rw [List.mem_cons, not_or] at h
    cases vs with
    | nil => rfl
    | cons v vs =>
      rw [write, ih _ vs h.2, if_neg h.1]

/-- What is written to a slot does not depend on what was there. -/
theorem write_of_mem {r : Slot} : ∀ {slots : List Slot} (val val' : Valuation) {vs : List Value},
    r ∈ slots → vs.length = slots.length → val.write slots vs r = val'.write slots vs r := by
  intro slots
  induction slots with
  | nil => intro _ _ _ h; cases h
  | cons s slots ih =>
    intro val val' vs h len
    cases vs with
    | nil => cases len
    | cons v vs =>
      by_cases later : r ∈ slots
      · exact ih _ _ later (by simpa using len)
      · have here : r = s := by simpa [later] using h
        rw [write, write, write_of_not_mem _ vs later, write_of_not_mem _ vs later, if_pos here,
          if_pos here]

/-- A slot holds one of the values that are written to it. -/
theorem mem_zip_write {r : Slot} : ∀ {slots : List Slot} (val : Valuation) {vs : List Value},
    r ∈ slots → vs.length = slots.length → (r, val.write slots vs r) ∈ slots.zip vs := by
  intro slots
  induction slots with
  | nil => intro _ _ h; cases h
  | cons s slots ih =>
    intro val vs h len
    cases vs with
    | nil => cases len
    | cons v vs =>
      by_cases later : r ∈ slots
      · exact List.mem_cons_of_mem _ (ih _ later (by simpa using len))
      · have here : r = s := by simpa [later] using h
        rw [write, write_of_not_mem _ vs later, if_pos here, here]
        exact List.mem_cons_self

/-- Different slots hold what was written to them. -/
theorem map_write : ∀ {slots : List Slot} (val : Valuation) {vs : List Value},
    slots.Nodup → vs.length = slots.length → slots.map (val.write slots vs) = vs := by
  intro slots
  induction slots with
  | nil =>
    intro _ vs _ len
    rw [List.length_eq_zero_iff.mp len]
    rfl
  | cons s slots ih =>
    intro val vs nodup len
    obtain ⟨new, nodup⟩ := List.nodup_cons.mp nodup
    cases vs with
    | nil => cases len
    | cons v vs =>
      have rest := ih (fun r => if r = s then v else val r) nodup (by simpa using len)
      have head : (write (fun r => if r = s then v else val r) slots vs) s = v := by
        rw [write_of_not_mem _ vs new, if_pos rfl]
      simp only [write, List.map_cons, head, rest]

/-- Writing what a valuation has makes slots agree with it. -/
theorem write_map {r : Slot} {val' : Valuation} : ∀ {slots : List Slot} {val : Valuation},
    r ∈ slots → val.write slots (slots.map val') r = val' r := by
  intro slots
  induction slots with
  | nil => intro _ h; cases h
  | cons s slots ih =>
    intro val h
    by_cases later : r ∈ slots
    · exact ih later
    · have here : r = s := by simpa [later] using h
      rw [List.map_cons, write, write_of_not_mem _ _ later, if_pos here, here]

end Valuation

/-- The value of an argument; a constant's is the given one. -/
def Arg.value (val : Valuation) (constant : Value) : Arg → Value
  | .slot s => val s
  | .const _ => constant

namespace Instruction

/-- The constants of an instruction as they were recorded, with nothing where a slot is read. -/
def constants (i : Instruction) : List Value × Keywords :=
  (i.args.map Net.constantOf, i.kwargs.map fun (k, a) => (k, Net.constantOf a))

/-- What an instruction runs on, given its constants. -/
def arguments (i : Instruction) (val : Valuation) (constants : List Value × Keywords) :
    List Value × Keywords :=
  ((i.args.zip constants.1).map fun (a, v) => a.value val v,
    (i.kwargs.zip constants.2).map fun ((k, a), _, v) => (k, a.value val v))

end Instruction

namespace Net

/-- A constant as it is on the device of the net. -/
def placedValue (net : Net) (v : Value) : Except Error Value :=
  if v.isMovable then net.transfer v net.device else .ok v

/-- Whether the constants of an instruction are moved. -/
def places (net : Net) (i : Instruction) : Bool :=
  i.devicePlacement && net.device != Device.host && i.hasConstants

/-- The constants of an instruction on the device of the net. -/
def movedConstants (net : Net) (i : Instruction) : Except Error (List Value × Keywords) := do
  let args ← i.constants.1.mapM net.placedValue
  let kwargs ← i.constants.2.mapM fun (k, v) => do return (k, ← net.placedValue v)
  return (args, kwargs)

/-- The constants that an instruction runs on. -/
def constantsOf (net : Net) (i : Instruction) : Except Error (List Value × Keywords) :=
  if net.places i then net.movedConstants i else .ok i.constants

def argumentsOf (net : Net) (val : Valuation) (i : Instruction) :
    Except Error (List Value × Keywords) := do
  return i.arguments val (← net.constantsOf i)

/-- What an instruction computes, one value for each output. -/
def outputsOf (net : Net) (testing : Bool) (val : Valuation) (i : Instruction) :
    Except Error (List Value) := do
  let (args, kwargs) ← net.argumentsOf val i
  splitOutputs i (← i.operation.forwardKernel testing args kwargs)

/-- A valuation after a list of instructions. -/
def valuesAfter (net : Net) (testing : Bool) (val : Valuation) (l : List Instruction) :
    Except Error Valuation :=
  l.foldlM (fun val i => do return val.write i.outputs (← net.outputsOf testing val i)) val

/-- A net that runs a schedule. -/
structure Runs (s : Schedule) (net : Net) : Prop where
  schedule : net.schedule = s
  infos : net.table.entries.toList.map (·.info) = s.slots
  placed : ∀ i ∈ s.forward, ∀ c, net.places i = true →
    net.placed.lookup i.index = some c → net.constantsOf i = .ok c

/-- Observers do not act on a net: there are none, or none has a reaction left. -/
def Quiet (net : Net) : Prop := net.observed = true → ∀ r ∈ net.reactions.toList, r.waiting = false

/-- What parts of a pass keep: one net runs the schedule like another, in the same surroundings. -/
structure Follows (s : Schedule) (net net' : Net) : Prop where
  runs : Runs s net'
  addition : net'.table.addition = net.table.addition
  config : net'.config = net.config
  device : net'.device = net.device
  transfer : net'.transfer = net.transfer
  quiet : net.Quiet → net'.Quiet

/-- Nothing changed but the records of a net. -/
def Recorded (net net' : Net) : Prop :=
  ∃ journal profile, net' = { net with journal, profile }

variable {s : Schedule} {net net' net'' : Net} {i : Instruction} {a : Arg}

theorem Recorded.refl (net : Net) : Recorded net net := ⟨net.journal, net.profile, rfl⟩

theorem Recorded.trans (h : Recorded net net') (h' : Recorded net' net'') :
    Recorded net net'' := by
  obtain ⟨_, _, rfl⟩ := h
  obtain ⟨journal, profile, rfl⟩ := h'
  exact ⟨journal, profile, rfl⟩

/-! ### Valuations -/

/-- An instruction depends on the slots that it reads. -/
theorem arguments_congr {val val' : Valuation} (same : ∀ r ∈ i.reads, val r = val' r)
    (c : List Value × Keywords) : i.arguments val c = i.arguments val' c := by
  have value : ∀ (a : Arg) (v : Value), (∀ r, a.slot? = some r → r ∈ i.reads) →
      a.value val v = a.value val' v := by
    intro a v reads
    cases a with
    | slot r => exact same r (reads r rfl)
    | const c => rfl
  simp only [Instruction.arguments, Prod.mk.injEq]
  constructor
  · refine List.map_congr_left fun p hp => value p.1 p.2 fun r hr => ?_
    exact List.mem_append_left _ (List.mem_filterMap.mpr ⟨p.1, (List.of_mem_zip hp).1, hr⟩)
  · refine List.map_congr_left fun p hp => ?_
    rw [value p.1.2 p.2.2 fun r hr => ?_]
    exact List.mem_append_right _ (List.mem_filterMap.mpr ⟨p.1, (List.of_mem_zip hp).1, hr⟩)

theorem argumentsOf_congr {val val' : Valuation} (same : ∀ r ∈ i.reads, val r = val' r) :
    net.argumentsOf val i = net.argumentsOf val' i := by
  unfold argumentsOf
  simp only [arguments_congr same]

theorem outputsOf_congr {val val' : Valuation} (same : ∀ r ∈ i.reads, val r = val' r)
    (testing : Bool) : net.outputsOf testing val i = net.outputsOf testing val' i := by
  unfold outputsOf
  rw [argumentsOf_congr same]

theorem length_of_splitOutputs {result : Value} {outs : List Value}
    (h : splitOutputs i result = .ok outs) : outs.length = i.outputs.length := by
  unfold splitOutputs at h
  split at h
  next one =>
    cases h
    exact one.symm
  next =>
    split at h
    · split at h
      next len =>
        cases h
        exact len
      next => cases h
    · split at h
      next len =>
        cases h
        exact len
      next => cases h
    · cases h

theorem length_of_outputsOf {testing : Bool} {val : Valuation} {outs : List Value}
    (h : net.outputsOf testing val i = .ok outs) : outs.length = i.outputs.length := by
  unfold outputsOf at h
  cases args : net.argumentsOf val i with
  | error e => rw [args] at h; cases h
  | ok c =>
    rw [args] at h
    change (i.operation.forwardKernel testing c.1 c.2).bind (splitOutputs i) = .ok outs at h
    cases run : i.operation.forwardKernel testing c.1 c.2 with
    | error e => rw [run] at h; cases h
    | ok result =>
      rw [run] at h
      exact length_of_splitOutputs h

@[simp] theorem valuesAfter_nil (testing : Bool) (val : Valuation) :
    net.valuesAfter testing val [] = .ok val := rfl

theorem valuesAfter_cons (testing : Bool) (val : Valuation) (i : Instruction)
    (l : List Instruction) : net.valuesAfter testing val (i :: l) =
      (net.outputsOf testing val i).bind fun outs =>
        net.valuesAfter testing (val.write i.outputs outs) l := by
  simp only [valuesAfter, List.foldlM_cons]
  cases net.outputsOf testing val i <;> rfl

theorem valuesAfter_append (testing : Bool) (val : Valuation) (l m : List Instruction) :
    net.valuesAfter testing val (l ++ m) =
      (net.valuesAfter testing val l).bind fun val => net.valuesAfter testing val m := by
  simp only [valuesAfter, List.foldlM_append]
  rfl

/-- Slots that no instruction writes stay as they are. -/
theorem valuesAfter_of_not_written {testing : Bool} {r : Slot} {l : List Instruction} :
    ∀ {val val' : Valuation}, net.valuesAfter testing val l = .ok val' → ¬ Written l r →
      val' r = val r := by
  induction l with
  | nil =>
    intro val val' run _
    cases run
    rfl
  | cons i l ih =>
    intro val val' run unwritten
    rw [written_cons, not_or] at unwritten
    rw [valuesAfter_cons] at run
    cases computed : net.outputsOf testing val i with
    | error e =>
      rw [computed] at run
      cases run
    | ok outs =>
      rw [computed] at run
      rw [ih run unwritten.2, Valuation.write_of_not_mem _ _ unwritten.1]

/-- If every instruction reads slots that are known or written before it, then a run depends on the known
slots only: from valuations that agree on these it fails alike, or leads to valuations that agree on them
and on whatever was written. -/
theorem valuesAfter_congr {testing : Bool} {l : List Instruction} :
    ∀ {known : Slot → Prop} {val val' : Valuation},
      (∀ pre i post, l = pre ++ i :: post → ∀ r ∈ i.reads, known r ∨ Written pre r) →
      (∀ r, known r → val r = val' r) →
      (∃ e, net.valuesAfter testing val l = .error e ∧ net.valuesAfter testing val' l = .error e) ∨
      ∃ w w', net.valuesAfter testing val l = .ok w ∧ net.valuesAfter testing val' l = .ok w' ∧
        ∀ r, known r ∨ Written l r → w r = w' r := by
  induction l with
  | nil =>
    intro known val val' _ same
    exact .inr ⟨val, val', rfl, rfl, fun r hr => same r (hr.resolve_right (written_nil r))⟩
  | cons i l ih =>
    intro known val val' reads same
    have inputs : ∀ r ∈ i.reads, val r = val' r := fun r hr =>
      same r ((reads [] i l rfl r hr).resolve_right (written_nil r))
    rw [valuesAfter_cons, valuesAfter_cons, ← outputsOf_congr inputs]
    -- The rest knows what the instruction writes besides.
    cases computed : net.outputsOf testing val i with
    | error e => exact .inl ⟨e, rfl, rfl⟩
    | ok outs =>
      have len := length_of_outputsOf computed
      have reads' : ∀ pre j post, l = pre ++ j :: post → ∀ r ∈ j.reads,
          (known r ∨ r ∈ i.outputs) ∨ Written pre r := fun pre j post split r hr => by
        have before := reads (i :: pre) j post (by rw [split, List.cons_append]) r hr
        rwa [written_cons, ← or_assoc] at before
      have same' : ∀ r, known r ∨ r ∈ i.outputs →
          val.write i.outputs outs r = val'.write i.outputs outs r := fun r hr => by
        by_cases out : r ∈ i.outputs
        · exact Valuation.write_of_mem _ _ out len
        · exact Valuation.write_congr (same r (hr.resolve_right out)) _ _
      simpa only [Except.bind, written_cons, or_assoc] using ih reads' same'

/-! ### Surroundings -/

theorem placedValue_eq (device : net'.device = net.device) (transfer : net'.transfer = net.transfer) :
    net'.placedValue = net.placedValue := by
  funext v
  simp only [placedValue, device, transfer]

theorem places_eq (device : net'.device = net.device) : net'.places = net.places := by
  funext i
  simp only [places, device]

theorem constantsOf_eq (device : net'.device = net.device) (transfer : net'.transfer = net.transfer) :
    net'.constantsOf = net.constantsOf := by
  funext i
  simp only [constantsOf, movedConstants, places_eq device, placedValue_eq device transfer]

namespace Follows

theorem refl (runs : Runs s net) : Follows s net net := ⟨runs, rfl, rfl, rfl, rfl, id⟩

theorem trans (h : Follows s net net') (h' : Follows s net' net'') : Follows s net net'' :=
  ⟨h'.runs, h'.addition.trans h.addition, h'.config.trans h.config, h'.device.trans h.device,
    h'.transfer.trans h.transfer, fun quiet => h'.quiet (h.quiet quiet)⟩

theorem constantsOf (h : Follows s net net') : net'.constantsOf = net.constantsOf :=
  constantsOf_eq h.device h.transfer

theorem argumentsOf (h : Follows s net net') : net'.argumentsOf = net.argumentsOf := by
  funext val i
  simp only [Net.argumentsOf, h.constantsOf]

theorem outputsOf (h : Follows s net net') : net'.outputsOf = net.outputsOf := by
  funext testing val i
  simp only [Net.outputsOf, h.argumentsOf]

theorem valuesAfter (h : Follows s net net') : net'.valuesAfter = net.valuesAfter := by
  funext testing val l
  simp only [Net.valuesAfter, h.outputsOf]

/-- A change of the table that keeps its slots. -/
theorem of_table (runs : Runs s net) {table : VariableTable} (same : net.table.SameSlots table) :
    Follows s net { net with table } := by
  have infos := congrArg Array.toList same.infos
  simp only [Array.toList_map] at infos
  exact ⟨⟨runs.schedule, infos.trans runs.infos, runs.placed⟩, same.addition, rfl, rfl, rfl, id⟩

theorem of_recorded (runs : Runs s net) (h : Recorded net net') : Follows s net net' := by
  obtain ⟨journal, profile, rfl⟩ := h
  exact ⟨⟨runs.schedule, runs.infos, runs.placed⟩, rfl, rfl, rfl, rfl, id⟩

end Follows

theorem Recorded.table (h : Recorded net net') : net'.table = net.table := by
  obtain ⟨_, _, rfl⟩ := h
  rfl

namespace Runs

theorem size (runs : Runs s net) : net.table.size = s.slots.length := by
  simpa [VariableTable.size] using congrArg List.length runs.infos

theorem has_inPlace (runs : Runs s net) (inPlace : s.InPlace) (r : Slot) :
    net.table.Has r ↔ s.HasSlot r := by
  rw [Schedule.hasSlot_iff inPlace.slotIndex, VariableTable.Has, runs.size]

theorem has (runs : Runs s net) (wf : s.WellFormed) (r : Slot) : net.table.Has r ↔ s.HasSlot r :=
  runs.has_inPlace wf.inPlace r

/-- The table describes a slot as the schedule does. -/
theorem at?_info (runs : Runs s net) (wf : s.WellFormed) {info : SlotInfo} (h : info ∈ s.slots) :
    (net.table.at? info.index).map (·.info) = some info := by
  obtain ⟨k, hk⟩ := List.getElem?_of_mem h
  have bound := (List.getElem?_eq_some_iff.mp hk).1
  rw [wf.slotIndex k info hk, VariableTable.at?, locate_nat (by rw [runs.size]; exact bound)]
  rw [← runs.infos, List.getElem?_map, Array.getElem?_toList] at hk
  exact hk

theorem persistentAt (runs : Runs s net) (wf : s.WellFormed) {info : SlotInfo}
    (h : info ∈ s.slots) : net.table.persistentAt info.index = info.persistent := by
  obtain ⟨v, hv, rfl⟩ := Option.map_eq_some_iff.mp (runs.at?_info wf h)
  simp [VariableTable.persistentAt, hv]

end Runs

/-! ### Gathering arguments -/

theorem leads_place (v : Value) : Leads (place v) net
    (fun x net' => net.placedValue v = .ok x ∧ Recorded net net')
    (fun e _ => net.placedValue v = .error e) := by
  unfold place placedValue
  split
  next movable =>
    simp only [recordTransfer, callTransfer, leads_bind, leads_modify, leads_get, leads_ofExcept]
    cases moved : net.transfer v net.device with
    | ok x => exact ⟨rfl, _, _, rfl⟩
    | error e => rfl
  next => exact ⟨rfl, .refl net⟩

theorem placedValue_recorded (h : Recorded net net') : net'.placedValue = net.placedValue := by
  obtain ⟨_, _, rfl⟩ := h
  rfl

theorem leads_movedConstants (i : Instruction) {ok : List Value → Keywords → Net → Prop}
    {err : Error → Net → Prop}
    (done : ∀ args kwargs net', net.movedConstants i = .ok (args, kwargs) → Recorded net net' →
      ok args kwargs net')
    (failed : ∀ e net', net.movedConstants i = .error e → err e net') :
    Leads (i.constants.1.mapM place) net (fun args t =>
      Leads (i.constants.2.mapM fun (k, v) => do return (k, ← place v)) t
        (fun kwargs u => ok args kwargs u) err) err := by
  have args := Leads.mapM (g := net.placedValue) Recorded.refl Recorded.trans
    i.constants.1 net fun v _ t same => by
      rw [← placedValue_recorded same]
      exact leads_place v
  apply args.mono
  · rintro args t ⟨hargs, same⟩
    have kwargs := Leads.mapM (g := fun (k, v) => do return (k, ← net.placedValue v))
      Recorded.refl Recorded.trans i.constants.2 t
      (f := fun (p : String × Value) => do return (p.1, ← place p.2)) fun p _ u tu => by
        simp only [leads_bind, leads_pure]
        rw [← placedValue_recorded (same.trans tu)]
        apply (leads_place p.2).mono
        · rintro x u' ⟨moved, uu⟩
          exact ⟨by simp only [moved]; rfl, uu⟩
        · intro e u' none
          simp only [none]
          rfl
    apply kwargs.mono
    · rintro kwargs u ⟨hkwargs, tu⟩
      refine done args kwargs u ?_ (same.trans tu)
      simp only [movedConstants, hargs, hkwargs]
      rfl
    · intro e u hkwargs
      refine failed e u ?_
      simp only [movedConstants, hargs, hkwargs]
      rfl
  · intro e t hargs
    refine failed e t ?_
    simp only [movedConstants, hargs]
    rfl

/-- The constants are those of the present device, whether they were moved before or are moved now. -/
theorem leads_constants (inPlace : s.InPlace) (runs : Runs s net) (hi : i ∈ s.forward) :
    Leads (constants i) net
      (fun c net' => net.constantsOf i = .ok c ∧ Follows s net net' ∧ net'.table = net.table)
      (fun e _ => net.constantsOf i = .error e) := by
  simp only [constants, leads_bind, leads_get]
  split
  next places =>
    have moved : net.constantsOf i = net.movedConstants i := if_pos places
    rw [moved]
    split
    next c found => exact ⟨moved ▸ runs.placed i hi c places found, .refl runs, rfl⟩
    next =>
      simp only [leads_bind, leads_modify, leads_pure]
      refine leads_movedConstants i ?_ fun _ _ h => h
      rintro args kwargs _ h ⟨journal, profile, rfl⟩
      refine ⟨h, ⟨⟨runs.schedule, runs.infos, ?_⟩, rfl, rfl, rfl, rfl, id⟩, rfl⟩
      intro j hj c placesj found
      rw [List.lookup_cons] at found
      split at found
      next same =>
        obtain rfl := inPlace.instruction_unique hj hi (beq_iff_eq.mp same)
        cases found
        exact moved.trans h
      next => exact runs.placed j hj c placesj found
  next plain => exact ⟨if_neg plain, .refl runs, rfl⟩

theorem leads_valueOf (has : ∀ r, a.slot? = some r → net.table.Has r) (v : Value) :
    Leads (valueOf a v) net
      (fun x net' => x = a.value net.table.valueAt v ∧ net = net') (fun _ _ => False) := by
  cases a with
  | slot r =>
    simp only [valueOf, leads_onTable]
    rw [VariableTable.leads_getValue (has r rfl)]
    exact ⟨rfl, rfl⟩
  | const c => exact ⟨rfl, rfl⟩

/-- An instruction is run on what its slots hold and on its constants. -/
theorem leads_gather (inPlace : s.InPlace) (runs : Runs s net) (hi : i ∈ s.forward) :
    Leads (gather i) net
      (fun c net' => net.argumentsOf net.table.valueAt i = .ok c ∧ Follows s net net' ∧
        net'.table = net.table)
      (fun e _ => net.argumentsOf net.table.valueAt i = .error e) := by
  simp only [gather, leads_bind]
  apply (leads_constants inPlace runs hi).mono
  · rintro ⟨cargs, ckwargs⟩ t ⟨constants, follows, table⟩
    have has : ∀ r ∈ i.reads, t.table.Has r := fun r hr => by
      rw [table, runs.has_inPlace inPlace]
      exact inPlace.reads_hasSlot hi hr
    have args := Leads.mapM (f := fun (p : Arg × Value) => valueOf p.1 p.2)
      (g := fun p => pure (p.1.value net.table.valueAt p.2)) (R := Eq) (fun _ => rfl) Eq.trans
      (i.args.zip cargs) t fun p hp u eq => by
        subst eq
        apply (leads_valueOf (fun r hr => has r ?_) p.2).mono
        · rintro x u ⟨rfl, same⟩
          exact ⟨by rw [table]; rfl, same⟩
        · exact fun _ _ h => h.elim
        · exact List.mem_append_left _
            (List.mem_filterMap.mpr ⟨p.1, (List.of_mem_zip hp).1, hr⟩)
    apply args.mono
    · rintro args u ⟨hargs, rfl⟩
      rw [List.mapM_pure] at hargs
      cases hargs
      have kwargs := Leads.mapM
        (f := fun (p : (String × Arg) × String × Value) => do
          return (p.1.1, ← valueOf p.1.2 p.2.2))
        (g := fun p => pure (p.1.1, p.1.2.value net.table.valueAt p.2.2)) (R := Eq)
        (fun _ => rfl) Eq.trans (i.kwargs.zip ckwargs) t fun p hp u eq => by
          subst eq
          simp only [leads_bind, leads_pure]
          apply (leads_valueOf (fun r hr => has r ?_) p.2.2).mono
          · rintro x u ⟨rfl, same⟩
            exact ⟨by rw [table]; rfl, same⟩
          · exact fun _ _ h => h.elim
          · exact List.mem_append_right _
              (List.mem_filterMap.mpr ⟨p.1, (List.of_mem_zip hp).1, hr⟩)
      apply kwargs.mono
      · rintro kwargs u ⟨hkwargs, rfl⟩
        rw [List.mapM_pure] at hkwargs
        cases hkwargs
        refine ⟨?_, follows, table⟩
        simp only [argumentsOf, constants]
        rfl
      · intro e u none
        rw [List.mapM_pure] at none
        cases none
    · intro e u none
      rw [List.mapM_pure] at none
      cases none
  · intro e t failed
    simp only [argumentsOf, failed]
    rfl

end Net

end Backprop
