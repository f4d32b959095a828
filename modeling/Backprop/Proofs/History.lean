import Mathlib
import Backprop.Proofs.Agreement
import Backprop.Proofs.Binding
import Backprop.Proofs.Nets
/-!
# Evaluations do not depend on history

What a net has been through shows in its parameters and in the device it is on. When every input is
given a value, an evaluation overwrites whatever else is left: values kept for a backward pass that
never ran, derivatives and what waits to be added to them, bindings that wait, constants that were
moved, and the traces of an aborted pass.

* `VariableTable.agree_reset`: tables that agree on what persists are equal after a reset.
* `Net.Twin` relates nets between which a pass cannot tell; `Net.agree_evaluate` leads to it.
* `Net.Reached.history_independent`: two nets that one net was led to by calls.
-/

namespace Backprop

/-! ### Tables -/

namespace VariableTable

variable {t t' : VariableTable}

/-- A table is what its slots are described as and hold. -/
theorem eq_of_slots (same : t.SameSlots t') (values : ∀ r, t.Has r → t'.valueAt r = t.valueAt r)
    (ders : ∀ r, t.Has r → t'.derAt r = t.derAt r)
    (parts : ∀ r, t.Has r → t'.partsAt r = t.partsAt r) : t' = t := by
  have entries : t'.entries = t.entries := by
    refine Array.ext same.size fun k hk hk' => ?_
    have bound : k < t.size := hk'
    have has : t.Has (k : Int) := ⟨by omega, by omega⟩
    have here : t.at? k = some t.entries[k] := by
      rw [at?, locate_nat bound]
      exact Array.getElem?_eq_getElem hk'
    have there : t'.at? k = some t'.entries[k] := by
      rw [at?, locate_nat (same.size ▸ bound)]
      exact Array.getElem?_eq_getElem hk
    have info := infoAt_sameSlots same k
    have value := values k has
    have der := ders k has
    have part := parts k has
    simp only [valueAt, derAt, partsAt, here, there, Option.map_some, Option.getD_some,
      Option.some.injEq] at info value der part
    cases x : t.entries[k]
    cases y : t'.entries[k]
    simp_all
  cases t
  cases t'
  simp only [mk.injEq]
  exact ⟨entries, same.addition⟩

/-- Tables that agree on what an evaluation starts from. -/
structure Agrees (keep : Bool) (t t' : VariableTable) : Prop where
  same : t.SameSlots t'
  values : ∀ r, t.Has r → t.persistentAt r = true → t'.valueAt r = t.valueAt r
  ders : ∀ r, t.Has r → t'.startDer keep r = t.startDer keep r

/-- What a slot starts with stays what it starts with. -/
theorem Fresh.startDer {keep : Bool} {r : Slot} (fresh : t.Fresh t' keep r) (same : t.SameSlots t') :
    t'.startDer keep r = t.startDer keep r := by
  have persistent := persistentAt_sameSlots same r
  have read := readDer_of_partsAt fresh.parts
  have der := fresh.der
  unfold VariableTable.startDer at der ⊢
  rw [persistent]
  split at der
  next kept => rw [if_pos kept, if_pos kept, read, der]
  next lost => rw [if_neg lost, if_neg lost]

/-- Resetting a slot leaves what an evaluation starts from, or fails by it. -/
theorem agrees_resetSlot (keep : Bool) {k : Slot} (has : t.Has k) :
    Leads (resetSlot keep k) t (fun _ u => t.Agrees keep u ∧ ∃ d, t.startDer keep k = .ok d)
      (fun e _ => t.startDer keep k = .error e) := by
  refine (leads_resetSlot keep has).mono ?_ fun _ _ h => h
  rintro _ u ⟨same, fresh, others⟩
  refine ⟨⟨same, fun r hr persistent => ?_, fun r hr => ?_⟩, _, fresh.der⟩
  · by_cases here : r = k
    · subst here
      rw [fresh.value, if_pos persistent]
    · simp [valueAt, others r hr here]
  · by_cases here : r = k
    · subst here
      exact fresh.startDer same
    · have at' := others r hr here
      have read : u.readDer r = t.readDer r := readDer_congr same.addition
        (by simp [derAt, at']) (by simp [partsAt, at'])
      rw [startDer, startDer, persistentAt_sameSlots same, read]

theorem Agrees.symm_trans {keep : Bool} {u u' : VariableTable} (h : t.Agrees keep t')
    (first : t.Agrees keep u) (second : t'.Agrees keep u') : u.Agrees keep u' := by
  have has : ∀ r, u.Has r → t.Has r := fun r => (first.same.has r).mp
  have has' : ∀ r, t.Has r → t'.Has r := fun r => (h.same.has r).mpr
  have persistent := persistentAt_sameSlots first.same
  have persistent' := persistentAt_sameSlots h.same
  refine ⟨⟨?_, ?_⟩, fun r hr stays => ?_, fun r hr => ?_⟩
  · rw [second.same.infos, h.same.infos, first.same.infos]
  · rw [second.same.addition, h.same.addition, first.same.addition]
  · rw [persistent] at stays
    rw [second.values r (has' r (has r hr)) ((persistent' r).trans stays),
      h.values r (has r hr) stays, first.values r (has r hr) stays]
  · rw [second.ders r (has' r (has r hr)), h.ders r (has r hr), first.ders r (has r hr)]

theorem agree_resetSlot (keep : Bool) {size k : Nat} (bound : k < size) :
    Agree Eq (fun t t' => t.Agrees keep t' ∧ t.size = size) (resetSlot keep k) (resetSlot keep k)
      (fun t t' => t.Agrees keep t' ∧ t.size = size) fun _ _ => True := by
  rintro t t' ⟨agrees, rfl⟩
  have has : t.Has (k : Int) := ⟨by omega, by omega⟩
  have start := agrees.ders k has
  refine Meet.of_leads (agrees_resetSlot keep has)
    (agrees_resetSlot keep ((agrees.same.has k).mpr has)) ?_ ?_ ?_ ?_
  · rintro _ u _ u' ⟨first, _⟩ ⟨second, _⟩
    exact ⟨rfl, agrees.symm_trans first second, first.same.size⟩
  · intro e _ f _ failed failed'
    rw [start, failed] at failed'
    exact ⟨Except.error.inj failed', trivial⟩
  · rintro _ _ f _ ⟨_, d, read⟩ failed
    rw [start, read] at failed
    cases failed
  · rintro e _ _ _ failed ⟨_, d, read⟩
    rw [start, failed] at read
    cases read

/-- Whatever else they held, tables are equal after a reset, or fail alike. -/
theorem agree_reset (keep : Bool) :
    Agree Eq (Agrees keep) (reset keep) (reset keep) (fun t t' => t' = t) fun _ _ => True := by
  intro t t' agrees
  have rounds : Agree Eq (fun u u' => u.Agrees keep u' ∧ u.size = t.size) (reset keep) (reset keep)
      (fun u u' => u.Agrees keep u' ∧ u.size = t.size) fun _ _ => True := by
    refine .bind_get fun u u' ⟨rel, size⟩ => ?_
    rw [rel.same.size, size]
    exact .forM fun k hk => agree_resetSlot keep (List.mem_range.mp hk)
  refine ((rounds t t' ⟨agrees, rfl⟩).and_leads (leads_reset keep) (leads_reset keep)).mono ?_
    fun _ _ h => h
  rintro u u' ⟨_, _, ⟨same, fresh⟩, same', fresh'⟩
  have has : ∀ r, u.Has r → t.Has r := fun r => (same.has r).mp
  have has' : ∀ r, t.Has r → t'.Has r := fun r => (agrees.same.has r).mpr
  refine eq_of_slots ⟨?_, ?_⟩ (fun r hr => ?_) (fun r hr => ?_) fun r hr => ?_
  · rw [same'.infos, agrees.same.infos, same.infos]
  · rw [same'.addition, agrees.same.addition, same.addition]
  · rw [(fresh' r (has' r (has r hr))).value, (fresh r (has r hr)).value,
      persistentAt_sameSlots agrees.same]
    split
    next stays => exact agrees.values r (has r hr) stays
    next => rfl
  · have first := (fresh r (has r hr)).der
    have second := (fresh' r (has' r (has r hr))).der
    rw [agrees.ders r (has r hr), first] at second
    exact (Except.ok.inj second).symm
  · rw [(fresh' r (has' r (has r hr))).parts, (fresh r (has r hr)).parts]

end VariableTable

/-! ### Nets -/

/-- One failure, told in two workspaces: a node that was taken for a name is shown as it is called
there. -/
inductive Error.SameIn (ws ws' : Workspace) : Error → Error → Prop where
  | same (e : Error) : SameIn ws ws' e e
  | unknown (key : Value) :
    SameIn ws ws' (.noVariable (key.plainText ws.label)) (.noVariable (key.plainText ws'.label))

namespace Net

variable {s : Schedule} {ws ws' : Workspace} {watched : Bool} {net net' : Net}

/-- What no call changes: how a net was built. -/
structure Fixed (base net : Net) : Prop where
  schedule : net.schedule = base.schedule
  config : net.config = base.config
  params : net.params = base.params
  compiledNames : net.compiledNames = base.compiledNames
  transfer : net.transfer = base.transfer
  observed : net.observed = base.observed

theorem aloof_fixed {base : Net} : Aloof (Fixed base) where
  table := fun ⟨a, b, c, d, e, f⟩ _ => ⟨a, b, c, d, e, f⟩
  records := by
    rintro _ _ ⟨a, b, c, d, e, f⟩ ⟨journal, profile, rfl⟩
    exact ⟨a, b, c, d, e, f⟩
  pending := fun ⟨a, b, c, d, e, f⟩ => ⟨a, b, c, d, e, f⟩
  placed := fun ⟨a, b, c, d, e, f⟩ => ⟨a, b, c, d, e, f⟩

theorem running_fixed {base : Net} : Running base.schedule (Fixed base) where
  toLax := aloof_fixed.toLax
  device := fun ⟨a, b, c, d, e, f⟩ => ⟨a, b, c, d, e, f⟩
  constants {i} _ := keeps_constants aloof_fixed i
  schedule fixed := fixed.schedule
  flags := fun ⟨a, b, c, d, e, f⟩ => ⟨a, b, c, d, e, f⟩

/-- Two nets that run a schedule and differ in what no step of a pass reads only. Observers, where
there are any, wait for the same, and the devices that they move the net to read the same. -/
structure Twin (s : Schedule) (ws ws' : Workspace) (watched : Bool) (net net' : Net) : Prop where
  same : ∃ journal profile placed reactions dirty,
    net' = { net with journal, profile, placed, reactions, dirty }
  named : ∀ p ∈ net.compiledNames, ws.name p.1 = ws'.name p.1
  observed : net.observed = watched
  reactions : watched = true → net'.reactions = net.reactions
  devices : watched = true → ∀ r ∈ net.reactions.toList, ∀ device, r.action = .move device →
    Device.normalize ws.label device = Device.normalize ws'.label device
  left : Runs s net
  right : Runs s net'

theorem Twin.observed' (twin : Twin s ws ws' watched net net') : net'.observed = watched := by
  obtain ⟨⟨_, _, _, _, _, rfl⟩, _, observed, _⟩ := twin
  exact observed

/-- A change of what waits for inputs and of the state of passes, the same for both nets. -/
theorem Twin.map (twin : Twin s ws ws' watched net net') (f : Net → Net)
    (local' : ∀ net, f net = { net with
      pending := (f net).pending, evaluating := (f net).evaluating,
      backwardReady := (f net).backwardReady, dirty := (f net).dirty })
    (blind : ∀ (net : Net) journal profile placed reactions dirty,
      let other := f { net with journal, profile, placed, reactions, dirty }
      other.pending = (f net).pending ∧ other.evaluating = (f net).evaluating ∧
        other.backwardReady = (f net).backwardReady) : Twin s ws ws' watched (f net) (f net') := by
  obtain ⟨⟨journal, profile, placed, reactions, dirty, rfl⟩, named, observed, waiting, devices, left, right⟩ :=
    twin
  obtain ⟨pending, evaluating, ready⟩ := blind net journal profile placed reactions dirty
  have first := local' net
  have second := local' { net with journal, profile, placed, reactions, dirty }
  rw [pending, evaluating, ready] at second
  rw [first, second]
  exact ⟨⟨_, _, _, _, _, rfl⟩, named, observed, waiting, devices, ⟨left.schedule, left.infos, left.placed⟩,
    ⟨right.schedule, right.infos, right.placed⟩⟩

theorem kin_twin : Kin (Error.SameIn ws ws') (Twin s ws ws' watched) where
  refl := .same
  same twin := twin.same
  table := by
    rintro net _ table ⟨⟨_, _, _, _, _, rfl⟩, named, observed, reactions, devices, left, right⟩ same
    exact ⟨⟨_, _, _, _, _, rfl⟩, named, observed, reactions, devices, (Follows.of_table left same).runs,
      (Follows.of_table right same).runs⟩
  records := by
    rintro net _ j j' f ⟨⟨_, _, _, _, _, rfl⟩, named, observed, reactions, devices, left, right⟩
    exact ⟨⟨_, _, _, _, _, rfl⟩, named, observed, reactions, devices,
      (Follows.of_recorded left ⟨_, _, rfl⟩).runs, (Follows.of_recorded right ⟨_, _, rfl⟩).runs⟩
  pending {_ _ pending} twin := twin.map (fun net => { net with pending }) (fun _ => rfl)
     fun _ _ _ _ _ _ => ⟨rfl, rfl, rfl⟩

/-- Moving constants changes records and what is kept of moved constants. -/
theorem leads_constants_same (net : Net) (i : Instruction) :
    Leads (constants i) net
      (fun _ t => ∃ journal profile placed, t = { net with journal, profile, placed })
      (fun _ t => ∃ journal profile placed, t = { net with journal, profile, placed }) := by
  have kept : Keeps (fun t => ∃ journal profile placed, t = { net with journal, profile, placed })
      (constants i) := by
    have moved : ∀ v : Value, Keeps
        (fun t => ∃ journal profile placed, t = { net with journal, profile, placed }) (place v) := by
      intro v
      unfold place
      split
      · refine .bind (.modify ?_) fun _ => .bind .get fun _ => .bind (.modify ?_) fun _ =>
          .bind .get fun _ => keeps_ofExcept _
        · rintro _ ⟨_, _, _, rfl⟩
          exact ⟨_, _, _, rfl⟩
        · rintro _ ⟨_, _, _, rfl⟩
          exact ⟨_, _, _, rfl⟩
      · exact .pure v
    refine .bind .get fun net => ?_
    dsimp only
    split
    · split
      · exact .pure _
      · refine .bind (.mapM fun v _ => moved v) fun args => ?_
        refine .bind (.mapM fun p _ => .bind (moved p.2) fun _ => .pure _) fun kwargs => ?_
        refine .bind (.modify ?_) fun _ => .pure _
        rintro _ ⟨_, _, _, rfl⟩
        exact ⟨_, _, _, rfl⟩
    · exact .pure _
  exact kept net ⟨_, _, _, rfl⟩

/-- Whether they were moved before or are moved now, constants are the same. -/
theorem agree_constants (wf : s.WellFormed) {i : Instruction} (hi : i ∈ s.forward) :
    Agree (Error.SameIn ws ws') (Twin s ws ws' watched) (constants i) (constants i)
      (Twin s ws ws' watched) (Twin s ws ws' watched) := by
  rintro net _ ⟨⟨_, _, _, _, _, rfl⟩, named, observed, reactions, devices, left, right⟩
  have values := (leads_constants wf.inPlace left hi).and
    (((running_serves wf).constants hi _ ⟨left, rfl, rfl⟩).and (leads_constants_same _ i))
  have values' := (leads_constants wf.inPlace right hi).and
    (((running_serves wf).constants hi _ ⟨right, rfl, rfl⟩).and (leads_constants_same _ i))
  refine Meet.of_leads values values' ?_ ?_ ?_ ?_
  · rintro c _ c' _ ⟨⟨found, _⟩, serves, j, p, moved, rfl⟩ ⟨⟨found', _⟩, serves', j', p', moved', rfl⟩
    have same : c = c' := Except.ok.inj (found.symm.trans found')
    exact ⟨same, ⟨j', p', moved', _, _, rfl⟩, named, observed, reactions, devices, serves.runs, serves'.runs⟩
  · rintro e _ f _ ⟨failed, serves, j, p, moved, rfl⟩ ⟨failed', serves', j', p', moved', rfl⟩
    have same : e = f := Except.error.inj (failed.symm.trans failed')
    exact ⟨same ▸ .same e, ⟨j', p', moved', _, _, rfl⟩, named, observed, reactions, devices, serves.runs, serves'.runs⟩
  · rintro c _ f _ ⟨⟨found, _⟩, _⟩ ⟨failed, _⟩
    cases found.symm.trans failed
  · rintro e _ c _ ⟨failed, _⟩ ⟨⟨found, _⟩, _⟩
    cases failed.symm.trans found

theorem twins_twin (wf : s.WellFormed) :
    Twins s (Error.SameIn ws ws') (Twin s ws ws' watched) (Twin s ws ws' watched) where
  out := kin_twin
  inside := kin_twin
  schedule twin := twin.left.schedule
  constants hi := agree_constants wf hi
  enter twin _ := twin.map (fun net => { net with evaluating := true, backwardReady := false })
    (fun _ => rfl) fun _ _ _ _ _ _ => ⟨rfl, rfl, rfl⟩
  leave {_ _ backwardReady} twin :=
    twin.map (fun net => { net with evaluating := false, backwardReady }) (fun _ => rfl)
      fun _ _ _ _ _ _ => ⟨rfl, rfl, rfl⟩
  abort twin := twin.map (fun net => { net with dirty := true, evaluating := false })
    (fun _ => rfl) fun _ _ _ _ _ _ => ⟨rfl, rfl, rfl⟩
  clean twin := twin.map (fun net => { net with dirty := false }) (fun _ => rfl)
     fun _ _ _ _ _ _ => ⟨rfl, rfl, rfl⟩
  device := by
    rintro net _ device ⟨⟨_, _, _, _, _, rfl⟩, named, observed, reactions, devices, left, right⟩
    exact ⟨⟨_, _, _, _, _, rfl⟩, named, observed, reactions, devices,
      ⟨left.schedule, left.infos, fun _ _ _ _ found => by cases found⟩,
      ⟨right.schedule, right.infos, fun _ _ _ _ found => by cases found⟩⟩

/-! ### Observers -/

/-- Marking a reaction as taken does not change what it does. -/
theorem action_of_mem_modify {reactions : Array Reaction} {k : Nat} {r : Reaction}
    (mem : r ∈ (reactions.modify k fun r => { r with waiting := false }).toList) :
    ∃ q ∈ reactions.toList, q.action = r.action := by
  obtain ⟨j, hj, rfl⟩ := List.getElem_of_mem mem
  have bound : j < reactions.size := by simpa using hj
  refine ⟨reactions[j], by simp, ?_⟩
  rw [Array.getElem_toList, Array.getElem_modify]
  split <;> rfl

theorem alike_twin : Alike (Error.SameIn ws ws') (Twin s ws ws' watched) ws ws' where
  names twin := twin.named
  unknown := .unknown

section
variable {notify notify' : Notify} (wf : s.WellFormed)
include wf

theorem agree_perform
    (told : Told (Error.SameIn ws ws') (Twin s ws ws' watched) (Twin s ws ws' watched) notify notify')
    (action : Action) (read : ∀ device, action = .move device →
      Device.normalize ws.label device = Device.normalize ws'.label device) :
    Agree (Error.SameIn ws ws') (Twin s ws ws' watched) (perform ws notify action)
      (perform ws' notify' action) (Twin s ws ws' watched) (Twin s ws ws' watched) := by
  have twins : Twins s (Error.SameIn ws ws') (Twin s ws ws' watched) (Twin s ws ws' watched) :=
    twins_twin wf
  cases action with
  | refuse => exact .throw (.same _)
  | evaluate inputs => exact agree_evaluatePass twins told wf alike_twin _ _
  | forward inputs => exact agree_forwardPass twins told alike_twin _
  | backward => exact agree_backwardPass twins told wf alike_twin _
  | move device => exact agree_move twins (read device rfl)
  | setValue key v => exact agree_setValue kin_twin key v
  | setDer key v => exact agree_setDer kin_twin key v
  | setInputs inputs => exact agree_setInputs kin_twin inputs

theorem agree_reactOnce
    (told : Told (Error.SameIn ws ws') (Twin s ws ws' true) (Twin s ws ws' true) notify notify')
    (e : Event) (k : Nat) :
    Agree (Error.SameIn ws ws') (Twin s ws ws' true) (reactOnce ws notify e k)
      (reactOnce ws' notify' e k) (Twin s ws ws' true) (Twin s ws ws' true) := by
  refine .bind_get fun net net' twin => ?_
  rw [twin.reactions rfl]
  cases found : net.reactions[k]? with
  | none => exact .pure _
  | some r =>
    have mem : r ∈ net.reactions.toList := Array.mem_toList_iff.mpr (Array.mem_of_getElem? found)
    refine .ite (fun _ => .bind (.modify ?_) fun _ => agree_perform wf told r.action
      (twin.devices rfl r mem)) fun _ => .pure _
    rintro net _ ⟨⟨_, _, _, _, _, rfl⟩, named, observed, reactions, devices, left, right⟩
    refine ⟨⟨_, _, _, _, _, rfl⟩, named, observed, fun on => ?_, fun on r mem device action => ?_,
      ⟨left.schedule, left.infos, left.placed⟩, ⟨right.schedule, right.infos, right.placed⟩⟩
    · exact congrArg (·.modify k fun r => { r with waiting := false }) (reactions on)
    · obtain ⟨q, hq, same⟩ := action_of_mem_modify mem
      exact devices on q hq device (same.trans action)

end

/-- The record of an event. -/
def toldOf (e : Event) (net : Net) : Net :=
  { net with journal := { net.journal with events := net.journal.events.push e } }

theorem react_unobserved (observed : net.observed = false) (depth : Nat) (signal : Signal) :
    react ws depth signal net = .ok ⟨⟩ net := by
  cases signal with
  | kernel instruction args kwargs => cases depth <;> rfl
  | event e =>
    cases depth
    all_goals
      simp only [react]
      change (if net.observed then _ else _ : NetM PUnit) net = _
      rw [observed]
      rfl

theorem react_observed (observed : net.observed = true) (depth : Nat) (e : Event) :
    react ws depth (.event e) net = match depth with
      | 0 => .ok ⟨⟩ (toldOf e net)
      | depth + 1 => ((List.range net.reactions.size).forM fun k =>
          reactOnce ws (react ws depth) e k) (toldOf e net) := by
  cases depth
  all_goals
    simp only [react]
    change (if net.observed then _ else _ : NetM PUnit) net = _
    rw [if_pos observed]
    rfl

/-- Observers that wait for the same act alike, however deep their reactions set off others. -/
theorem agree_react (wf : s.WellFormed) : ∀ (depth : Nat) (signal : Signal),
    Agree (Error.SameIn ws ws') (Twin s ws ws' true) (react ws depth signal) (react ws' depth signal)
      (Twin s ws ws' true) (Twin s ws ws' true) := by
  have recorded : ∀ {net net' : Net} (e : Event), Twin s ws ws' true net net' →
      Twin s ws ws' true (toldOf e net) (toldOf e net') :=
    fun _ twin => kin_twin.records (fun p => p) twin
  intro depth
  induction depth with
  | zero =>
    intro signal net net' twin
    cases signal with
    | kernel instruction args kwargs => exact ⟨rfl, twin⟩
    | event e =>
      rw [react_observed twin.observed, react_observed twin.observed']
      exact ⟨rfl, recorded e twin⟩
  | succ depth ih =>
    intro signal net net' twin
    cases signal with
    | kernel instruction args kwargs => exact ⟨rfl, twin⟩
    | event e =>
      have told : Told (Error.SameIn ws ws') (Twin s ws ws' true) (Twin s ws ws' true)
          (react ws depth) (react ws' depth) := ⟨fun signal _ => ih signal, ih _⟩
      rw [react_observed twin.observed, react_observed twin.observed', twin.reactions rfl]
      exact Agree.forM (fun k _ => agree_reactOnce wf told e k) _ _ (recorded e twin)

theorem agree_notifyObservers (wf : s.WellFormed) (signal : Signal) :
    Agree (Error.SameIn ws ws') (Twin s ws ws' watched) (notifyObservers ws signal)
      (notifyObservers ws' signal) (Twin s ws ws' watched) (Twin s ws ws' watched) := by
  cases watched with
  | true =>
    refine .bind_get fun net net' twin => ?_
    rw [twin.reactions rfl]
    exact agree_react wf _ signal
  | false =>
    intro net net' twin
    change Meet _ _ _ (react ws _ signal net) (react ws' _ signal net')
    rw [react_unobserved twin.observed, react_unobserved twin.observed']
    exact ⟨rfl, twin⟩

/-! ### Evaluations -/

/-- Two nets at the start of a pass that cannot be told apart once their tables are emptied and their
inputs bound. -/
structure Level (s : Schedule) (ws ws' : Workspace) (watched keep : Bool) (net net' : Net) : Prop where
  twin : Twin s ws ws' watched net { net' with table := net.table, pending := net.pending }
  tables : net.table.Agrees keep net'.table

namespace Level

variable {keep : Bool}

theorem schedule (level : Level s ws ws' watched keep net net') : net'.schedule = net.schedule := by
  obtain ⟨_, _, _, _, _, eq⟩ := level.twin.same
  have same := congrArg Net.schedule eq
  exact same

theorem pending (level : Level s ws ws' watched keep net net')
    (pending pending' : List (Slot × Value)) :
    Level s ws ws' watched keep { net with pending } { net' with pending := pending' } :=
  ⟨kin_twin.pending level.twin, level.tables⟩

end Level

/-- A value that is given for an input takes the place of one that waited. -/
theorem stagedValue_of_given {inputs : Keywords} {r : Slot} (schedule : net'.schedule = net.schedule)
    (given : ∃ p ∈ inputs, net.schedule.inputSlots.lookup p.1 = some r) :
    net'.stagedValue inputs r = net.stagedValue inputs r := by
  obtain ⟨p, hp, slot⟩ := given
  unfold stagedValue
  rw [schedule]
  cases found : inputs.reverse.find? fun p => net.schedule.inputSlots.lookup p.1 == some r with
  | some q => rfl
  | none =>
    have none := List.find?_eq_none.mp found p (List.mem_reverse.mpr hp)
    simp [slot] at none

section
variable {keep : Bool} {inputs : Keywords}

theorem agree_stageInputs : Agree (Error.SameIn ws ws') (Level s ws ws' watched keep)
    (setInputs inputs) (setInputs inputs) (Level s ws ws' watched keep)
      (Level s ws ws' watched keep) := by
  refine .bind_get fun net net' level => ?_
  rw [level.schedule]
  refine .forM fun p _ => ?_
  dsimp only
  split
  · exact .modify fun _ _ level => level.pending _ _
  · exact .throw (.same _)

/-- Nets that are level, and in which the same waits for every input. -/
structure Staged (s : Schedule) (ws ws' : Workspace) (watched keep : Bool) (net net' : Net) : Prop
    extends Level s ws ws' watched keep net net' where
  waits : ∀ p ∈ s.inputSlots, net.pending.lookup p.2 = net'.pending.lookup p.2

theorem agree_setInputs_of_complete
    (complete : ∀ p ∈ s.inputSlots, ∃ q ∈ inputs, s.inputSlots.lookup q.1 = some p.2) :
    Agree (Error.SameIn ws ws') (Level s ws ws' watched keep) (setInputs inputs) (setInputs inputs)
      (Staged s ws ws' watched keep) fun _ _ => True := by
  intro net net' level
  have same : net.schedule = s := level.twin.left.schedule
  refine ((agree_stageInputs net net' level).and_leads (leads_setInputs inputs net)
    (leads_setInputs inputs net')).mono ?_ fun _ _ _ => trivial
  rintro u u' ⟨level', _, ⟨_, waits, _⟩, _, waits', _⟩
  refine ⟨level', fun p hp => ?_⟩
  rw [waits, waits']
  exact (stagedValue_of_given level.schedule (by rw [same]; exact complete p hp)).symm

/-- Nets with equal tables, in which the same waits for every input. -/
structure Emptied (s : Schedule) (ws ws' : Workspace) (watched : Bool) (net net' : Net) : Prop where
  twin : Twin s ws ws' watched net { net' with pending := net.pending }
  waits : ∀ p ∈ s.inputSlots, net.pending.lookup p.2 = net'.pending.lookup p.2

theorem agree_empty : Agree (Error.SameIn ws ws') (Staged s ws ws' watched keep)
    (onTable (VariableTable.reset keep)) (onTable (VariableTable.reset keep))
      (Emptied s ws ws' watched) fun _ _ => True := by
  intro net net' staged
  have ends := VariableTable.agree_reset keep net.table net'.table staged.tables
  have kept := VariableTable.keeps_reset (t := net.table) keep net.table (.refl _)
  simp only [onTable]
  unfold Leads at kept
  cases x : VariableTable.reset keep net.table <;>
    cases y : VariableTable.reset keep net'.table <;> rw [x, y] at ends <;> rw [x] at kept
  · obtain ⟨-, rfl⟩ := ends
    exact ⟨rfl, kin_twin.table staged.twin kept, staged.waits⟩
  · exact ends
  · exact ends
  · obtain ⟨rfl, -⟩ := ends
    exact ⟨.same _, trivial⟩

/-- What an evaluation finds after its preparation does not depend on what was there before. -/
theorem agree_prepare_level (options : PassOptions)
    (complete : ∀ p ∈ s.inputSlots, ∃ q ∈ options.inputs, s.inputSlots.lookup q.1 = some p.2) :
    Agree (Error.SameIn ws ws') (Level s ws ws' watched options.accumulate) (prepare ws options)
      (prepare ws' options) (Twin s ws ws' watched) fun _ _ => True := by
  have rest : Agree (Error.SameIn ws ws') (Staged s ws ws' watched options.accumulate)
      (do
        onTable (VariableTable.reset options.accumulate)
        bindInputs
        modify fun net => { net with dirty := false })
      (do
        onTable (VariableTable.reset options.accumulate)
        bindInputs
        modify fun net => { net with dirty := false }) (Twin s ws ws' watched) fun _ _ => True := by
    have kin : Kin (Error.SameIn ws ws') (Twin s ws ws' watched) := kin_twin
    refine .bind agree_empty fun _ => .bind (agree_bindInputs kin ?_ ?_).lenient fun _ => ?_
    · intro net net' emptied
      have cleared := @Kin.pending _ _ kin _ _ [] emptied.twin
      exact cleared
    · intro net net' emptied p hp
      rw [emptied.twin.left.schedule] at hp
      exact emptied.waits p hp
    · exact .modify fun _ _ twin =>
        twin.map (fun net => { net with dirty := false }) (fun _ => rfl) fun _ _ _ _ _ _ => ⟨rfl, rfl, rfl⟩
  refine .bind (agree_checkStructure .same (fun level => ?_) (fun level => ?_)
    (fun level => level.twin.named)).lenient fun _ => ?_
  · obtain ⟨_, _, _, _, _, eq⟩ := level.twin.same
    have same := congrArg Net.config eq
    exact same
  · obtain ⟨_, _, _, _, _, eq⟩ := level.twin.same
    have same := congrArg Net.compiledNames eq
    exact same
  · refine .ite (fun _ => .bind (agree_setInputs_of_complete complete) fun _ => rest) fun none => ?_
    refine rest.mono (fun net net' level => ⟨level, fun p hp => ?_⟩) (fun _ _ h => h) fun _ _ h => h
    obtain ⟨q, hq, _⟩ := complete p hp
    simp [List.isEmpty_iff.mp (by simpa using none)] at hq

/-- The net once a pass has started. -/
def entered (net : Net) : Net := { net with evaluating := true, backwardReady := false }

/-- Two nets outside of passes that are level once a pass has started. -/
structure Start (s : Schedule) (ws ws' : Workspace) (watched keep : Bool) (net net' : Net) : Prop where
  idle : net.Idle
  idle' : net'.Idle
  level : Level s ws ws' watched keep net.entered net'.entered

theorem agree_start : Agree (Error.SameIn ws ws') (Start s ws ws' watched keep) enter enter
    (Level s ws ws' watched keep) fun _ _ => True := by
  rintro net net' ⟨idle, idle', level⟩
  change Meet _ _ _ ((if net.evaluating then _ else _ : NetM PUnit) net)
    ((if net'.evaluating then _ else _ : NetM PUnit) net')
  rw [show net.evaluating = false from idle, show net'.evaluating = false from idle']
  exact ⟨rfl, level⟩

/-- An evaluation that is given every input ends the same way for nets that are level, and leaves
equal tables. -/
theorem agree_evaluate (wf : s.WellFormed) {options : PassOptions} (seed : Value)
    (complete : ∀ p ∈ s.inputSlots, ∃ q ∈ options.inputs, s.inputSlots.lookup q.1 = some p.2) :
    Agree (Error.SameIn ws ws') (Start s ws ws' watched options.accumulate)
      (evaluate ws options seed) (evaluate ws' options seed) (Twin s ws ws' watched)
        fun _ _ => True := by
  have twins : Twins s (Error.SameIn ws ws') (Twin s ws ws' watched) (Twin s ws ws' watched) :=
    twins_twin wf
  have told : Told (Error.SameIn ws ws') (Twin s ws ws' watched) (Twin s ws ws' watched)
      (notifyObservers ws) (notifyObservers ws') :=
    ⟨fun signal _ => agree_notifyObservers wf signal, agree_notifyObservers wf _⟩
  have reported : ∀ message, Agree (Error.SameIn ws ws') (Start s ws ws' watched options.accumulate)
      (report message) (report message) (Start s ws ws' watched options.accumulate)
        fun _ _ => True := fun message =>
    .modify fun net net' ⟨idle, idle', twin, tables⟩ =>
      ⟨idle, idle', kin_twin.records (fun p => p) twin, tables⟩
  have passed : ∀ keep, Agree (Error.SameIn ws ws') (Start s ws ws' watched options.accumulate)
      (forwardPass ws (notifyObservers ws) { options with keepForBackward := keep })
      (forwardPass ws' (notifyObservers ws') { options with keepForBackward := keep })
        (Twin s ws ws' watched) fun _ _ => True := by
    intro keep
    refine .bind (agree_ofExcept .same _).lenient fun mode => .bind agree_start fun _ => ?_
    refine .bind (agree_attempt (agree_prepare_level { options with keepForBackward := keep } complete)
      fun _ _ _ => trivial) fun _ => ?_
    exact (agree_runForward twins told _ _).lenient
  refine .bind (agree_ofExcept .same _).lenient fun mode => .bind (reported _) fun _ => ?_
  refine .bind (passed _) fun _ => .ite (fun _ => ?_) fun _ => .pure _
  exact (agree_backwardPass twins told wf alike_twin seed).lenient

end

/-! ### Nets that calls led to -/

variable {terminals : List Value} {options : NetOptions}

/-- Whatever is called, a net stays the one that was built. -/
theorem Reached.fixed (built : ws.Built) (exist : ∀ n ∈ terminalNodes terminals, ws.Exists n)
    {base : Net} (run : ws.buildNet terminals options = (.ok base, ws'))
    (reached : Reached ws terminals options net) : Fixed base net := by
  obtain ⟨⟨_, _, _, sched⟩, _⟩ := (Reached.built run).spec built exist
  have stable : Stable (Fixed base) :=
    running_fixed.stable sched.wellFormed fun ⟨a, b, c, d, e, f⟩ => ⟨a, b, c, d, e, f⟩
  induction reached with
  | built again =>
    rw [run] at again
    cases again
    exact ⟨rfl, rfl, rfl, rfl, rfl, rfl⟩
  | call call _ ih => exact keeps_ends (call.keeps stable) ih

theorem Reached.origin (reached : Reached ws terminals options net) :
    ∃ base ws', ws.buildNet terminals options = (.ok base, ws') := by
  induction reached with
  | built run => exact ⟨_, _, run⟩
  | call _ _ ih => exact ih

/-- Nets that run one schedule have tables of the same slots. -/
theorem Runs.sameSlots (runs : Runs s net) (runs' : Runs s net')
    (addition : net'.table.addition = net.table.addition) : net.table.SameSlots net'.table := by
  refine ⟨Array.toList_inj.mp ?_, addition⟩
  rw [Array.toList_map, Array.toList_map, runs.infos, runs'.infos]

/-- Tables of one schedule agree on what an evaluation starts from if they agree on parameters. -/
theorem agrees_of_params (wf : s.WellFormed) (runs : Runs s net) (runs' : Runs s net')
    (addition : net'.table.addition = net.table.addition) {keep : Bool}
    (params : ∀ r, s.IsParam r → net'.table.valueAt r = net.table.valueAt r)
    (ders : keep = true → ∀ r, s.IsParam r → net'.table.readDer r = net.table.readDer r) :
    net.table.Agrees keep net'.table := by
  have same := runs.sameSlots runs' addition
  have param : ∀ r, net.table.Has r → net.table.persistentAt r = true → s.IsParam r := by
    intro r has stays
    obtain ⟨info, mem, rfl⟩ := (runs.has wf r).mp has
    rw [runs.persistentAt wf mem, wf.persistent info mem, decide_eq_true_eq] at stays
    exact ⟨info, mem, rfl, stays⟩
  refine ⟨same, fun r has stays => params r (param r has stays), fun r has => ?_⟩
  unfold VariableTable.startDer
  rw [VariableTable.persistentAt_sameSlots same]
  split
  next kept =>
    rw [Bool.and_eq_true] at kept
    exact ders kept.2 r (param r has kept.1)
  next => rfl

/-- Two nets that calls led one net to, on one device and with the same parameters, cannot be told
apart by an evaluation that is given a value for every input: both fail in the same way, or all
values and derivatives are equal afterwards. -/
theorem Reached.history_independent (built : ws.Built)
    (exist : ∀ n ∈ terminalNodes terminals, ws.Exists n) (reached : Reached ws terminals options net)
    (reached' : Reached ws terminals options net') (now now' : Workspace) (pass : PassOptions)
    (seed : Value)
    (params : ∀ r, net.schedule.IsParam r → net'.table.valueAt r = net.table.valueAt r)
    (device : net'.device = net.device)
    (named : ∀ p ∈ net.compiledNames, now.name p.1 = now'.name p.1)
    (ders : pass.accumulate = true →
      ∀ r, net.schedule.IsParam r → net'.table.readDer r = net.table.readDer r)
    (observers : net.observed = true → net'.reactions = net.reactions ∧
      ∀ r ∈ net.reactions.toList, ∀ device, r.action = .move device →
        Device.normalize now.label device = Device.normalize now'.label device)
    (complete : ∀ p ∈ net.schedule.inputSlots, p.1 ∈ pass.inputs.map (·.1)) :
    (∃ done done', evaluate now pass seed net = .ok ⟨⟩ done ∧
      evaluate now' pass seed net' = .ok ⟨⟩ done' ∧ done'.table = done.table) ∨
    ∃ e e' failed failed', evaluate now pass seed net = .error e failed ∧
      evaluate now' pass seed net' = .error e' failed' ∧ Error.SameIn now now' e e' := by
  obtain ⟨base, ws', run⟩ := reached.origin
  have fixed := reached.fixed built exist run
  have fixed' := reached'.fixed built exist run
  obtain ⟨⟨_, _, _, sched⟩, runs, idle, addition, _⟩ := reached.spec built exist
  obtain ⟨_, runs', idle', addition', _⟩ := reached'.spec built exist
  have wf := sched.wellFormed
  rw [fixed'.schedule.trans fixed.schedule.symm] at runs'
  have same : { net'.entered with table := net.table, pending := net.pending } =
      { net.entered with
        journal := net'.journal, profile := net'.profile, placed := net'.placed,
        reactions := net'.reactions, dirty := net'.dirty } := by
    obtain ⟨a, b, c, d, e, f⟩ := fixed
    obtain ⟨a', b', c', d', e', f'⟩ := fixed'
    simp only [entered, a, b, c, d, e, f, a', b', c', d', e', f', device]
  have twin : Twin net.schedule now now' net.observed net.entered
      { net'.entered with table := net.table, pending := net.pending } :=
    ⟨⟨_, _, _, _, _, same⟩, named, rfl, fun on => (observers on).1, fun on => (observers on).2,
      ⟨runs.schedule, runs.infos, runs.placed⟩, ⟨runs'.schedule, runs.infos, runs'.placed⟩⟩
  have tables : net.table.Agrees pass.accumulate net'.table :=
    agrees_of_params wf runs runs' (addition'.trans addition.symm) params ders
  have given : ∀ p ∈ net.schedule.inputSlots, ∃ q ∈ pass.inputs,
      net.schedule.inputSlots.lookup q.1 = some p.2 := by
    intro p hp
    obtain ⟨q, hq, name⟩ := List.mem_map.mp (complete p hp)
    refine ⟨q, hq, ?_⟩
    rw [name]
    exact wf.lookup_inputSlots hp
  have ends := agree_evaluate wf seed given net net' ⟨idle, idle', twin, tables⟩
  cases x : evaluate now pass seed net <;> cases y : evaluate now' pass seed net' <;> rw [x, y] at ends
  · obtain ⟨-, twin⟩ := ends
    obtain ⟨_, _, _, _, _, rfl⟩ := twin.same
    exact .inl ⟨_, _, rfl, rfl, rfl⟩
  · exact ends.elim
  · exact ends.elim
  · exact .inr ⟨_, _, _, _, rfl, rfl, ends.1⟩

/-- A net after half of an evaluation, and another pass that was given an input it does not have. -/
def Sample.interrupted (now : Workspace) (net : Net) : Net :=
  ends (Call.forward now { inputs := [("x", .int 8), ("y", .int 1)] }).run
    (ends (Call.forward now { inputs := [("x", .int 7)] }).run net)

theorem history_independent_sample : ∃ now net net',
    Reached Sample.graph Sample.terminals Sample.options net ∧
      Reached Sample.graph Sample.terminals Sample.options net' ∧
      net.dirty = false ∧ net'.dirty = true ∧ net'.pending.isEmpty = false ∧
      ∃ done done', evaluate now Sample.pass .none net = .ok ⟨⟩ done ∧
        evaluate now Sample.pass .none net' = .ok ⟨⟩ done' ∧ done'.table = done.table := by
  have check : Sample.graph.builds Sample.terminals Sample.options (fun now net =>
      !net.observed && !net.dirty && net.schedule.inputSlots.all (fun p =>
        (Sample.pass.inputs.map (·.1)).contains p.1) &&
      net.succeeds (evaluate now Sample.pass .none) (fun _ => true) && (fun net' : Net =>
        net'.dirty && !net'.pending.isEmpty && net'.device == net.device &&
        net.schedule.slots.all fun info => info.kind != .param ||
          (isWhole 3 (net.table.valueAt info.index) && isWhole 3 (net'.table.valueAt info.index)))
        (Sample.interrupted now net)) = true := by cbv
  obtain ⟨now, net, reached, check⟩ := Reached.of_builds check
  simp only [Bool.and_eq_true, Bool.not_eq_true', beq_iff_eq, List.all_eq_true, Bool.or_eq_true,
    bne_iff_ne, List.contains_iff_mem] at check
  obtain ⟨⟨⟨⟨alone, clean⟩, given⟩, run⟩, ⟨⟨dirty, waiting⟩, device⟩, params⟩ := check
  obtain ⟨done, run, _⟩ := succeeds_iff.mp run
  have reached' : Reached Sample.graph Sample.terminals Sample.options (Sample.interrupted now net) :=
    .call _ (.call _ reached)
  have same : ∀ r, net.schedule.IsParam r →
      (Sample.interrupted now net).table.valueAt r = net.table.valueAt r := by
    rintro _ ⟨info, mem, rfl, param⟩
    obtain ⟨three, three'⟩ := (params info mem).resolve_left fun other => other param
    rw [eq_of_isWhole three, eq_of_isWhole three']
  have ends := reached.history_independent Sample.graph_built Sample.terminals_exist reached' now now
    Sample.pass .none same device (fun _ _ => rfl) (fun on => by cases on)
    (fun on => by rw [alone] at on; cases on) given
  refine ⟨now, net, _, reached, reached', clean, dirty, waiting, ?_⟩
  rcases ends with equal | ⟨e, e', failed, failed', refused, _⟩
  · exact equal
  · rw [run] at refused
    cases refused

end Net

end Backprop
