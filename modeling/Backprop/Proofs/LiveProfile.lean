import Mathlib
import Backprop.Proofs.Checked
import Backprop.Proofs.Occupancy
/-!
# The static profile is that of the run

A schedule predicts how many slots hold values after each step, from nothing but the lists of what
its instructions write and of what is given back after them.

* `liveAt` is the list of live slots after some steps; `liveProfile_eq` says that the profile counts
  these lists.
* `Net.forwardTo_occupied`, `Net.backwardTo_occupied`: a pass goes through the same sets of slots.
* `Reached.live_profile`: so the profile lists how many slots hold values after each step of a run.
-/

namespace Backprop

/-! ### Lists of live slots -/

theorem mem_insertAll {r : Slot} : ∀ {made live : List Slot},
    r ∈ insertAll live made ↔ r ∈ live ∨ r ∈ made := by
  intro made
  induction made with
  | nil => simp [insertAll]
  | cons a made ih =>
    intro live
    have rest : r ∈ insertAll live (a :: made) ↔
        r ∈ (if live.contains a then live else live ++ [a]) ∨ r ∈ made := ih
    rw [rest]
    by_cases there : a ∈ live
    · have known : r = a → r ∈ live := fun eq => eq ▸ there
      simp only [List.contains_eq_mem, there, decide_true, if_true, List.mem_cons]
      tauto
    · simp only [List.contains_eq_mem, there, decide_false, Bool.false_eq_true, if_false,
        List.mem_append, List.mem_cons, List.not_mem_nil, or_false, or_assoc]

theorem nodup_insertAll : ∀ {made live : List Slot}, live.Nodup → (insertAll live made).Nodup := by
  intro made
  induction made with
  | nil => exact id
  | cons a made ih =>
    intro live nodup
    have rest : (if live.contains a then live else live ++ [a]).Nodup →
        (insertAll live (a :: made)).Nodup := ih
    refine rest ?_
    split
    next => exact nodup
    next new =>
      rw [List.contains_eq_mem, decide_eq_true_eq] at new
      exact nodup.append (by simp) (by simpa using new)

/-- The slots that are alive after some steps, given what each step produces and releases. -/
def liveAt (produced released : List (List Slot)) (live : List Slot) (k : Nat) : List Slot :=
  (liveProfile (produced.take k) (released.take k) live).2

section
variable {produced released : List (List Slot)} {live : List Slot} {k : Nat} {r : Slot}

@[simp] theorem liveAt_zero : liveAt produced released live 0 = live := rfl

theorem liveAt_cons (made gone : List Slot) :
    liveAt (made :: produced) (gone :: released) live (k + 1) =
      liveAt produced released ((insertAll live made).filter fun s => !gone.contains s) k := rfl

theorem liveAt_succ {made gone : List Slot} (h : produced[k]? = some made)
    (h' : released[k]? = some gone) : liveAt produced released live (k + 1) =
      (insertAll (liveAt produced released live k) made).filter fun s => !gone.contains s := by
  induction k generalizing produced released live with
  | zero =>
    cases produced with
    | nil => cases h
    | cons a produced =>
      cases released with
      | nil => cases h'
      | cons b released =>
        cases h
        cases h'
        rfl
  | succ k ih =>
    cases produced with
    | nil => cases h
    | cons a produced =>
      cases released with
      | nil => cases h'
      | cons b released => exact ih h h'

theorem mem_liveAt_succ {made gone : List Slot} (h : produced[k]? = some made)
    (h' : released[k]? = some gone) : r ∈ liveAt produced released live (k + 1) ↔
      (r ∈ liveAt produced released live k ∨ r ∈ made) ∧ r ∉ gone := by
  rw [liveAt_succ h h', List.mem_filter, mem_insertAll, List.contains_eq_mem, Bool.not_eq_true',
    decide_eq_false_iff_not]

theorem nodup_liveAt (nodup : live.Nodup) : (liveAt produced released live k).Nodup := by
  induction k generalizing produced released live with
  | zero => exact nodup
  | succ k ih =>
    cases produced with
    | nil => exact nodup
    | cons a produced =>
      cases released with
      | nil => exact nodup
      | cons b released => exact ih ((nodup_insertAll nodup).filter _)

/-- Only what is produced becomes alive. -/
theorem mem_of_mem_liveAt (h : r ∈ liveAt produced released live k) :
    r ∈ live ∨ ∃ made ∈ produced, r ∈ made := by
  induction k generalizing produced released live with
  | zero => exact .inl h
  | succ k ih =>
    cases produced with
    | nil => exact .inl h
    | cons a produced =>
      cases released with
      | nil => exact .inl h
      | cons b released =>
        rcases ih h with before | ⟨made, mem, out⟩
        · rcases mem_insertAll.mp (List.mem_filter.mp before).1 with before | out
          · exact .inl before
          · exact .inr ⟨a, by simp, out⟩
        · exact .inr ⟨made, by simp [mem], out⟩

/-- The profile counts the slots that are alive after each step. -/
theorem liveProfile_eq (same : produced.length = released.length) :
    liveProfile produced released live =
      ((List.range produced.length).map fun k => (liveAt produced released live (k + 1)).length,
        liveAt produced released live produced.length) := by
  induction produced generalizing released live with
  | nil => rfl
  | cons a produced ih =>
    cases released with
    | nil => cases same
    | cons b released =>
      simp only [liveProfile, ih (Nat.succ.inj same), List.length_cons, List.range_succ_eq_map,
        List.map_cons, List.map_map, liveAt_cons, liveAt_zero, Function.comp_def]

end

namespace ReleasePlan

/-- A plan has an entry for each step. -/
theorem length_byStep (slots : List SlotInfo) (n : Nat) (due : SlotInfo → Option Nat) :
    (byStep slots n due).length = n := by simp [byStep]

end ReleasePlan

namespace Schedule

variable {s : Schedule} {k : Nat} {r : Slot}

/-- The slots that are alive after some steps of a forward pass. -/
def liveForward (s : Schedule) (keep : Bool) (k : Nat) : List Slot :=
  liveAt (s.forward.map (·.outputs)) (s.releasedForward keep) s.leafSlots k

/-- The slots that are alive after some steps of a backward pass. -/
def liveBackward (s : Schedule) (k : Nat) : List Slot :=
  liveAt (s.backward.map fun _ => []) s.release.backwardValues
    (s.liveForward true s.forward.length) k

namespace WellFormed

variable (wf : s.WellFormed)
include wf

theorem nodup_indices : (s.slots.map (·.index)).Nodup := by
  have places : s.slots.map (·.index) = (List.range s.slots.length).map fun k : Nat => (k : Int) :=
    List.ext_getElem (by simp) fun k bound _ => by
      rw [List.length_map] at bound
      simpa using wf.slotIndex k _ (List.getElem?_eq_getElem bound)
  rw [places]
  exact List.nodup_range.map fun _ _ => Int.ofNat.inj

theorem nodup_leafSlots : s.leafSlots.Nodup := by
  have nodup : ((s.slots.filter (·.kind ≠ .op)).map (·.index)).Nodup :=
    wf.nodup_indices.sublist (List.filter_sublist.map _)
  rwa [leafSlots, eraseDups_of_nodup nodup]

theorem nodup_liveForward (keep : Bool) (k : Nat) : (s.liveForward keep k).Nodup :=
  nodup_liveAt wf.nodup_leafSlots

theorem nodup_liveBackward (k : Nat) : (s.liveBackward k).Nodup :=
  nodup_liveAt (wf.nodup_liveForward true _)

theorem hasSlot_of_liveForward {keep : Bool} (h : r ∈ s.liveForward keep k) : s.HasSlot r := by
  rcases mem_of_mem_liveAt h with leaf | ⟨made, mem, out⟩
  · obtain ⟨info, mem, index, -⟩ := mem_leafSlots.mp leaf
    exact ⟨info, mem, index⟩
  · obtain ⟨i, hi, rfl⟩ := List.mem_map.mp mem
    exact wf.outputs_hasSlot hi out

theorem hasSlot_of_liveBackward (h : r ∈ s.liveBackward k) : s.HasSlot r := by
  rcases mem_of_mem_liveAt h with before | ⟨made, mem, out⟩
  · exact wf.hasSlot_of_liveForward before
  · obtain ⟨i, hi, rfl⟩ := List.mem_map.mp mem
    cases out

theorem length_releasedForward (keep : Bool) :
    (s.releasedForward keep).length = s.forward.length := by
  obtain ⟨only, both, -, -⟩ := ReleasePlan.eq_of_ofSlots wf.plan
  cases keep with
  | false => exact (congrArg List.length only).trans (ReleasePlan.length_byStep _ _ _)
  | true => exact (congrArg List.length both).trans (ReleasePlan.length_byStep _ _ _)

theorem length_backwardValues : s.release.backwardValues.length = s.backward.length := by
  obtain ⟨-, -, values, -⟩ := ReleasePlan.eq_of_ofSlots wf.plan
  rw [values, ReleasePlan.length_byStep]

theorem liveProfile_forward (keep : Bool) :
    Backprop.liveProfile (s.forward.map (·.outputs)) (s.releasedForward keep) s.leafSlots =
      ((List.range s.forward.length).map fun k => (s.liveForward keep (k + 1)).length,
        s.liveForward keep s.forward.length) := by
  have same : (s.forward.map (·.outputs)).length = (s.releasedForward keep).length := by
    rw [List.length_map, wf.length_releasedForward]
  rw [liveProfile_eq same, List.length_map]
  rfl

theorem liveProfile_backward :
    Backprop.liveProfile (s.backward.map fun _ => []) s.release.backwardValues
        (s.liveForward true s.forward.length) =
      ((List.range s.backward.length).map fun k => (s.liveBackward (k + 1)).length,
        s.liveBackward s.backward.length) := by
  have same : (s.backward.map fun _ => ([] : List Slot)).length =
      s.release.backwardValues.length := by rw [List.length_map, wf.length_backwardValues]
  rw [liveProfile_eq same, List.length_map]
  rfl

/-- The backward half of the profile starts from what the forward half leaves alive. -/
theorem liveProfile_eq (withBackward : Bool) : s.liveProfile withBackward =
    ((List.range s.forward.length).map fun k => (s.liveForward withBackward (k + 1)).length) ++
      if withBackward then
        (List.range s.backward.length).map fun k => (s.liveBackward (k + 1)).length
      else [] := by
  cases withBackward with
  | false =>
    rw [if_neg (by simp), List.append_nil]
    exact congrArg Prod.fst (wf.liveProfile_forward false)
  | true =>
    change (Backprop.liveProfile _ (s.releasedForward true) _).1 ++
      (Backprop.liveProfile _ _ (Backprop.liveProfile _ (s.releasedForward true) _).2).1 = _
    rw [wf.liveProfile_forward, wf.liveProfile_backward, if_pos rfl]

/-- After a step of a forward pass its outputs are alive, and what is given back after it is not. -/
theorem mem_liveForward_succ {keep : Bool} {i : Instruction} (next : s.forward[k]? = some i) :
    r ∈ s.liveForward keep (k + 1) ↔ (r ∈ s.liveForward keep k ∨ r ∈ i.outputs) ∧
      r ∉ (s.releasedForward keep).getD i.index [] := by
  have bound : k < (s.releasedForward keep).length := by
    rw [wf.length_releasedForward]
    exact (List.getElem?_eq_some_iff.mp next).1
  have made : (s.forward.map (·.outputs))[k]? = some i.outputs := by simp [next]
  refine (mem_liveAt_succ made (List.getElem?_eq_getElem bound)).trans ?_
  rw [wf.instructionIndex k i next, List.getD_eq_getElem _ _ bound]
  rfl

theorem mem_liveBackward_succ (bound : k < s.backward.length) :
    r ∈ s.liveBackward (k + 1) ↔
      r ∈ s.liveBackward k ∧ r ∉ s.release.backwardValues.getD k [] := by
  have bound' : k < s.release.backwardValues.length := by rwa [wf.length_backwardValues]
  have made : (s.backward.map fun _ => ([] : List Slot))[k]? = some [] := by simp [bound]
  refine (mem_liveAt_succ made (List.getElem?_eq_getElem bound')).trans ?_
  rw [List.getD_eq_getElem _ _ bound']
  simp only [List.not_mem_nil, or_false]
  rfl

end WellFormed

end Schedule

namespace VariableTable

variable {t : VariableTable}

theorem mem_liveSlots {k : Nat} : k ∈ t.liveSlots ↔ t.Has k ∧ t.valueAt k ≠ .none := by
  have some : ∀ v : Value, (!v.isNone) = true ↔ v ≠ .none := by
    intro v
    cases v <;> simp [Value.isNone]
  simp only [liveSlots, List.mem_map, List.mem_filter, some, Prod.exists, exists_eq_right,
    List.mem_zipIdx_iff_getElem?, Array.getElem?_toList]
  by_cases bound : k < t.size
  · have has : t.Has k := ⟨by omega, by omega⟩
    have here : t.at? (k : Int) = t.entries[k]? := by
      rw [at?, locate_nat bound]
      rfl
    rw [valueAt, here]
    cases t.entries[k]? <;> simp [has]
  · have outside : t.entries[k]? = none := Array.getElem?_eq_none (Nat.le_of_not_lt bound)
    have nowhere : ¬ t.Has k := fun has => bound (by have := has.2; omega)
    simp [outside, nowhere]

theorem nodup_liveSlots : t.liveSlots.Nodup := by
  have places : (t.entries.toList.zipIdx.map (·.2)).Nodup := by
    rw [List.zipIdx_map_snd]
    exact List.nodup_range'
  exact places.sublist (List.filter_sublist.map _)

end VariableTable

namespace Net

variable {ws : Workspace} {terminals : List Value} {options : NetOptions} {s : Schedule}
  {net mid base : Net} {notify : Notify} {pass : PassOptions} {mode : Mode} {k : Nat}

/-- If just the slots of a list hold values, the table counts them. -/
theorem Occupied.length_liveSlots (wf : s.WellFormed) {live : List Slot}
    (occupied : Occupied s base (· ∈ live) net) (nodup : live.Nodup)
    (has : ∀ r ∈ live, s.HasSlot r) : net.table.liveSlots.length = live.length := by
  have mem : ∀ r : Slot, r ∈ net.table.liveSlots.map (fun k : Nat => (k : Int)) ↔ r ∈ live := by
    intro r
    rw [List.mem_map]
    constructor
    · rintro ⟨k, there, rfl⟩
      obtain ⟨here, some⟩ := VariableTable.mem_liveSlots.mp there
      exact (occupied.holds _ ((occupied.has wf _).mp here)).mp some
    · intro mem
      have here := has r mem
      obtain ⟨k, rfl⟩ := Int.eq_ofNat_of_zero_le ((wf.hasSlot_iff r).mp here).1
      exact ⟨k, VariableTable.mem_liveSlots.mpr
        ⟨(occupied.has wf _).mpr here, (occupied.holds _ here).mpr mem⟩, rfl⟩
  have nodup' : (net.table.liveSlots.map (fun k : Nat => (k : Int))).Nodup :=
    VariableTable.nodup_liveSlots.map fun _ _ => Int.ofNat.inj
  have perm := (List.perm_ext_iff_of_nodup nodup' nodup).mpr mem
  rw [← perm.length_eq, List.length_map]

/-! ### Passes -/

/-- Whether, as far as a pass gets, its leaves hold values and its kernels compute values. -/
def AllSome (net : Net) (now : Workspace) (notify : Notify) (pass : PassOptions) : Prop :=
  ∀ k found net', forwardTo now notify pass k net = .ok found net' →
    (k = 0 → ∀ r, net.schedule.IsLeaf r → net'.Holds r) ∧
      ∀ i, net.schedule.forward[k]? = some i → ∀ outs,
        net'.outputsOf (found.1 == Mode.test) net'.table.valueAt i = .ok outs → .none ∉ outs

section
variable (wf : s.WellFormed)
include wf

/-! #### Forward -/

/-- Before its first instruction a pass holds values in leaves only. -/
theorem leads_forwardTo_zero (serves : Serves s net net) (tame : net.Tame) (now : Workspace)
    (named : Mode.ofName pass.mode = .ok mode) :
    Leads (forwardTo now notify pass 0) net (fun found net' => found = (mode, s) ∧
      Serves s net net' ∧ net'.Tame ∧ ∀ info ∈ s.slots, info.kind = .op → ¬ net'.Holds info.index)
      fun _ _ => True := by
  let entered : Net := { net with evaluating := true, backwardReady := false }
  have serves' : Serves s net entered := serves.update rfl rfl rfl rfl rfl rfl
  have stays := keeps_prepare aloof_tame.toLax (fun _ tame => tame) now pass entered tame
  simp only [forwardTo, named, List.take_zero, forwardSteps, leads_bind, leads_ofExcept, enter,
    leads_get]
  split
  next => trivial
  next =>
    simp only [leads_pure, leads_modify, leads_attempt]
    refine ((leads_prepare wf serves'.runs now pass).and stays).mono ?_ fun _ _ _ => trivial
    rintro _ t ⟨⟨-, prepared⟩, tame⟩
    have serves'' := serves'.follows prepared.follows
    refine ⟨by rw [serves''.runs.schedule], serves'', tame, fun info mem op => ?_⟩
    simp [Holds, prepared.others info mem op]

theorem forwardTo_zero_occupied (serves : Serves s net net) (tame : net.Tame) {now : Workspace}
    (named : Mode.ofName pass.mode = .ok mode) (some : net.AllSome now notify pass)
    {found : Mode × Schedule} {net' : Net}
    (run : forwardTo now notify pass 0 net = .ok found net') :
    found = (mode, s) ∧ Occupied s net (· ∈ s.leafSlots) net' := by
  obtain ⟨rfl, serves', tame', empty⟩ :=
    (leads_of_ok run).mp (leads_forwardTo_zero wf serves tame now named)
  refine ⟨rfl, serves', tame', fun r has => ?_⟩
  rw [Schedule.mem_leafSlots]
  obtain ⟨info, mem, rfl⟩ := has
  constructor
  · intro holds
    exact ⟨info, mem, rfl, fun op => empty info mem op holds⟩
  · intro leaf
    rw [← serves.runs.schedule] at leaf
    exact (some 0 _ net' run).1 rfl _ leaf

variable (sparing : Sparing notify) (conserve : base.config.conserveMemory = true)
include sparing conserve

theorem Occupied.nextForward {keep testing : Bool} (bound : k < s.forward.length)
    (occupied : Occupied s base (· ∈ s.liveForward keep k) net)
    (some : ∀ outs, net.outputsOf testing net.table.valueAt s.forward[k] = .ok outs →
      .none ∉ outs) :
    Leads (forwardSteps notify testing (s.releasedForward keep) ((s.forward.drop k).take 1)) net
      (fun _ net' => Occupied s base (· ∈ s.liveForward keep (k + 1)) net') fun _ _ => True := by
  have rest := List.drop_eq_getElem_cons bound
  have split : s.forward = s.forward.take k ++ s.forward[k] :: s.forward.drop (k + 1) := by
    rw [← rest, List.take_append_drop]
  simp only [rest, List.take_succ_cons, List.take_zero, forwardSteps, leads_bind, leads_attempt]
  have released := fun r hr => ((wf.mem_releasedForward keep split r).mp hr).1
  refine (occupied.forwardStep wf sparing conserve (List.getElem_mem bound) released some).mono ?_
    fun _ _ h => h
  intro _ net' occupied
  exact occupied.congr fun r _ =>
    (wf.mem_liveForward_succ (List.getElem?_eq_getElem bound)).symm

omit conserve in
/-- A forward pass holds values in the slots that the profile takes for alive. -/
theorem forwardTo_occupied (conserve : net.config.conserveMemory = true)
    (serves : Serves s net net) (tame : net.Tame) {now : Workspace}
    (named : Mode.ofName pass.mode = .ok mode) (some : net.AllSome now notify pass) :
    ∀ {k : Nat}, k ≤ s.forward.length → ∀ {found : Mode × Schedule} {net' : Net},
      forwardTo now notify pass k net = .ok found net' →
      found = (mode, s) ∧ Occupied s net (· ∈ s.liveForward (keeps pass mode) k) net' := by
  intro k
  induction k with
  | zero => exact fun _ _ _ run => forwardTo_zero_occupied wf serves tame named some run
  | succ k ih =>
    intro bound found net' run
    rw [forwardTo_succ] at run
    obtain ⟨⟨_, _⟩, t, before, rest⟩ := bind_of_ok run
    obtain ⟨same, occupied⟩ := ih (by omega) before
    cases same
    have computes := (some k _ t before).2
    rw [serves.runs.schedule] at computes
    have one := occupied.nextForward wf sparing conserve bound
      (computes _ (List.getElem?_eq_getElem bound))
    have step : Leads (do
        forwardSteps notify (mode == Mode.test) (s.releasedForward (keeps pass mode))
          ((s.forward.drop k).take 1)
        return (mode, s)) t (fun found net' => found = (mode, s) ∧
          Occupied s net (· ∈ s.liveForward (keeps pass mode) (k + 1)) net') fun _ _ => True := by
      rw [leads_bind]
      exact one.mono (fun _ _ h => ⟨rfl, h⟩) fun _ _ h => h
    exact (leads_of_ok rest).mp step

omit conserve in
/-- A forward pass leaves values where the profile starts its backward half. -/
theorem forwardPass_occupied (conserve : net.config.conserveMemory = true)
    (serves : Serves s net net) (tame : net.Tame) {now : Workspace}
    (named : Mode.ofName pass.mode = .ok mode) (some : net.AllSome now notify pass)
    (run : forwardPass now notify pass net = .ok ⟨⟩ mid) :
    Occupied s net (· ∈ s.liveForward (keeps pass mode) s.forward.length) mid := by
  rw [forwardPass_eq now pass s.forward.length] at run
  obtain ⟨⟨_, _⟩, last, stopped, rest⟩ := bind_of_ok run
  obtain ⟨same, occupied⟩ :=
    forwardTo_occupied wf sparing conserve serves tame named some le_rfl stopped
  cases same
  have step : Leads (do
      forwardSteps notify (mode == Mode.test) (s.releasedForward (keeps pass mode))
        (s.forward.drop s.forward.length)
      leave (keeps pass mode)
      notify (.event .finished)) last (fun _ net' =>
        Occupied s net (· ∈ s.liveForward (keeps pass mode) s.forward.length) net')
      fun _ _ => True := by
    simp only [List.drop_length, forwardSteps, leave, leads_bind, leads_pure, leads_modify]
    exact sparing wf (occupied.flags false (keeps pass mode) last.dirty) _
  exact (leads_of_ok rest).mp step

/-! #### Backward -/

theorem Occupied.nextBackward (bound : k < s.backward.length)
    (occupied : Occupied s base (· ∈ s.liveBackward k) net) :
    Leads (backwardSteps notify s.release k ((s.backward.drop k).take 1)) net
      (fun _ net' => Occupied s base (· ∈ s.liveBackward (k + 1)) net') fun _ _ => True := by
  have rest := List.drop_eq_getElem_cons bound
  have split : s.backward = s.backward.take k ++ s.backward[k] :: s.backward.drop (k + 1) := by
    rw [← rest, List.take_append_drop]
  have values := wf.mem_backwardValues split
  have ders := wf.mem_backwardDers split
  rw [List.length_take, Nat.min_eq_left (by omega)] at values ders
  have here := wf.mem_forward_of_backward (List.getElem_mem bound)
  simp only [rest, List.take_succ_cons, List.take_zero, backwardSteps, leads_bind, leads_attempt]
  refine (occupied.backwardStep wf sparing conserve here (fun r hr => ((values r).mp hr).1)
    fun r hr => ((ders r).mp hr).1).mono ?_ fun _ _ h => h
  intro _ net' occupied
  exact occupied.congr fun r _ => (wf.mem_liveBackward_succ bound).symm

omit sparing conserve in
theorem backwardTo_zero_occupied (occupied : Occupied s base (· ∈ s.liveBackward 0) mid)
    (now : Workspace) (seed : Value) :
    Leads (backwardTo now notify seed 0) mid
      (fun found net' => found = s ∧ Occupied s base (· ∈ s.liveBackward 0) net')
      fun _ _ => True := by
  simp only [backwardTo, List.take_zero, backwardSteps, leads_bind, leads_get]
  split
  next => trivial
  next =>
    simp only [enter, leads_bind, leads_get, leads_pure]
    split
    next => trivial
    next =>
      simp only [leads_modify, leads_attempt]
      refine ((occupied.flags true false mid.dirty).seedDers wf now seed).mono ?_ fun _ _ h => h
      exact fun _ t occupied => ⟨occupied.serves.runs.schedule, occupied⟩

/-- So does a backward pass. -/
theorem backwardTo_occupied (occupied : Occupied s base (· ∈ s.liveBackward 0) mid)
    {now : Workspace} {seed : Value} :
    ∀ {k : Nat}, k ≤ s.backward.length → ∀ {found : Schedule} {net' : Net},
      backwardTo now notify seed k mid = .ok found net' →
      found = s ∧ Occupied s base (· ∈ s.liveBackward k) net' := by
  intro k
  induction k with
  | zero =>
    exact fun _ _ _ run => (leads_of_ok run).mp (backwardTo_zero_occupied wf occupied now seed)
  | succ k ih =>
    intro bound found net' run
    rw [backwardTo_succ] at run
    obtain ⟨schedule, t, before, rest⟩ := bind_of_ok run
    obtain ⟨same, occupied⟩ := ih (by omega) before
    obtain rfl : s = schedule := same.symm
    have one := occupied.nextBackward wf sparing conserve bound
    have step : Leads (do
        backwardSteps notify s.release (s.backward.take k).length ((s.backward.drop k).take 1)
        return s) t (fun found net' => found = s ∧
          Occupied s base (· ∈ s.liveBackward (k + 1)) net') fun _ _ => True := by
      rw [leads_bind, List.length_take, Nat.min_eq_left (by omega)]
      exact one.mono (fun _ _ h => ⟨rfl, h⟩) fun _ _ h => h
    exact (leads_of_ok rest).mp step

end

/-! #### Whole passes -/

/-- How many slots hold values after each of the first steps of a pass, as far as it gets. `stop k`
is the pass stopped after `k` steps. -/
def heldAfter {α : Type} (stop : Nat → NetM α) (n : Nat) (net : Net) : List (Option Nat) :=
  (List.range n).map fun k =>
    match stop (k + 1) net with
    | .ok _ net' => some net'.table.liveSlots.length
    | .error .. => none

theorem heldAfter_eq {α : Type} {stop : Nat → NetM α} {n : Nat} {live : Nat → Nat}
    (each : ∀ k < n, ∃ a net', stop (k + 1) net = .ok a net' ∧
      net'.table.liveSlots.length = live k) :
    net.heldAfter stop n = ((List.range n).map live).map some := by
  rw [heldAfter, List.map_map]
  refine List.map_congr_left fun k hk => ?_
  obtain ⟨a, net', run, count⟩ := each k (List.mem_range.mp hk)
  rw [run]
  exact congrArg some count

/-- With storage conserved and no value nothing, the profile of a schedule lists how many slots hold
values after each step of a forward pass that is not kept for a backward pass; the profile with a
backward half lists how many do after each step of a forward pass that is kept for one, and then
after each step of the backward pass, whether or not kernels are skipped there. Code from outside must
leave it to the pass which slots hold values, as observers do that set derivatives and stage inputs. -/
theorem Reached.live_profile (built : ws.Built) (exist : ∀ n ∈ terminalNodes terminals, ws.Exists n)
    (reached : Reached ws terminals options net) (conserve : options.config.conserveMemory = true)
    (tame : net.Tame) (sparing : Sparing notify) (now : Workspace) (pass : PassOptions)
    (named : Mode.ofName pass.mode = .ok mode) (some : net.AllSome now notify pass)
    (run : forwardPass now notify pass net = .ok ⟨⟩ mid) :
    (keeps pass mode = false →
      net.heldAfter (forwardTo now notify pass) net.schedule.forward.length =
        (net.schedule.liveProfile false).map .some) ∧
    (keeps pass mode = true → ∀ seed net', backwardPass now notify seed mid = .ok ⟨⟩ net' →
      net.heldAfter (forwardTo now notify pass) net.schedule.forward.length ++
          mid.heldAfter (backwardTo now notify seed) net.schedule.backward.length =
        (net.schedule.liveProfile true).map .some) := by
  obtain ⟨⟨id, order, marks, sched⟩, runs, -, -, config⟩ := reached.spec built exist
  have wf := sched.wellFormed
  have conserve' : net.config.conserveMemory = true := by rw [config]; exact conserve
  have serves : Serves net.schedule net net := ⟨runs, rfl, rfl⟩
  have forward : net.heldAfter (forwardTo now notify pass) net.schedule.forward.length =
      ((List.range net.schedule.forward.length).map fun k =>
        (net.schedule.liveForward (keeps pass mode) (k + 1)).length).map .some := by
    refine heldAfter_eq fun k bound => ?_
    rw [forwardPass_eq now pass (k + 1)] at run
    obtain ⟨found, t, stopped, -⟩ := bind_of_ok run
    have occupied :=
      (forwardTo_occupied wf sparing conserve' serves tame named some bound stopped).2
    exact ⟨found, t, stopped, occupied.length_liveSlots wf (wf.nodup_liveForward _ _)
      fun r => wf.hasSlot_of_liveForward⟩
  constructor
  · intro only
    rw [forward, wf.liveProfile_eq, only, if_neg (by simp), List.append_nil]
  · intro keep seed net' run'
    have start := forwardPass_occupied wf sparing conserve' serves tame named some run
    rw [keep] at start
    have backward : mid.heldAfter (backwardTo now notify seed) net.schedule.backward.length =
        ((List.range net.schedule.backward.length).map fun k =>
          (net.schedule.liveBackward (k + 1)).length).map .some := by
      refine heldAfter_eq fun k bound => ?_
      rw [backwardPass_eq now seed (k + 1)] at run'
      obtain ⟨found, t, stopped, -⟩ := bind_of_ok run'
      have occupied := (backwardTo_occupied wf sparing conserve' start bound stopped).2
      exact ⟨found, t, stopped, occupied.length_liveSlots wf (wf.nodup_liveBackward _)
        fun r => wf.hasSlot_of_liveBackward⟩
    rw [forward, backward, wf.liveProfile_eq, keep, if_pos rfl, List.map_append]

/-- Whether a pass comes across nothing but values. -/
def allSome (net : Net) (now : Workspace) (notify : Notify) (pass : PassOptions) : Bool :=
  (List.range (net.schedule.forward.length + 1)).all fun k =>
    match forwardTo now notify pass k net with
    | .error .. => true
    | .ok found net' =>
      (k != 0 || net.schedule.leafSlots.all fun r => !(net'.table.valueAt r).isNone) &&
        match net.schedule.forward[k]? with
        | none => true
        | some i =>
          match net'.outputsOf (found.1 == Mode.test) net'.table.valueAt i with
          | .ok outs => outs.all fun v => !v.isNone
          | .error _ => true

theorem AllSome.of_allSome {now : Workspace} (check : net.allSome now notify pass = true) :
    net.AllSome now notify pass := by
  intro k found net' run
  have none : ∀ v : Value, v.isNone = false → v ≠ .none := by
    rintro v h rfl
    cases h
  by_cases bound : k < net.schedule.forward.length + 1
  · have here := List.all_eq_true.mp check k (List.mem_range.mpr bound)
    simp only [run, Bool.and_eq_true, Bool.or_eq_true, List.all_eq_true, Bool.not_eq_true'] at here
    obtain ⟨leaves, outputs⟩ := here
    refine ⟨fun zero r leaf => ?_, fun i next outs computed mem => ?_⟩
    · have all := leaves.resolve_left (by simp [zero])
      exact none _ (all r (Schedule.mem_leafSlots.mpr leaf))
    · simp only [next, computed, List.all_eq_true, Bool.not_eq_true'] at outputs
      exact none _ (outputs _ mem) rfl
  · refine ⟨fun zero => absurd zero (by omega), fun i next => ?_⟩
    rw [List.getElem?_eq_none (by omega)] at next
    cases next

/-- An observer sets a derivative in the first step. -/
def Sample.watched : NetOptions :=
  { Sample.options with
    observed := true
    reactions := [{ on := .forward, action := .setDer (.text "x") (.int 5) }] }

/-- A pass that is not kept for a backward pass. -/
def Sample.once : PassOptions := { Sample.pass with keepForBackward := false }

/-- The product of `x * p + x` is there until the sum has sent its derivative back, and `x` until
the product has. In a pass that is not kept both go when the sum is there. -/
theorem live_profile_sample : ∃ now net mid done last,
    Reached Sample.graph Sample.terminals Sample.watched net ∧
      forwardPass now (notifyObservers now) Sample.pass net = .ok ⟨⟩ mid ∧
      backwardPass now (notifyObservers now) .none mid = .ok ⟨⟩ done ∧
      net.heldAfter (forwardTo now (notifyObservers now) Sample.pass) net.schedule.forward.length ++
          mid.heldAfter (backwardTo now (notifyObservers now) .none) net.schedule.backward.length =
        [some 3, some 4, some 3, some 2] ∧
      forwardPass now (notifyObservers now) Sample.once net = .ok ⟨⟩ last ∧
      net.heldAfter (forwardTo now (notifyObservers now) Sample.once) net.schedule.forward.length =
        [some 3, some 2] := by
  have check : Sample.graph.builds Sample.terminals Sample.watched (fun now net =>
      net.reactions.toList.all (·.action.spares) &&
        net.allSome now (notifyObservers now) Sample.pass &&
        net.allSome now (notifyObservers now) Sample.once &&
        net.schedule.liveProfile true == [3, 4, 3, 2] &&
        net.schedule.liveProfile false == [3, 2] &&
        net.succeeds (forwardPass now (notifyObservers now) Sample.once) (fun _ => true) &&
        net.succeeds (forwardPass now (notifyObservers now) Sample.pass) fun mid =>
          mid.succeeds (backwardPass now (notifyObservers now) .none) fun _ => true) = true := by
    cbv
  obtain ⟨now, net, reached, check⟩ := Reached.of_builds check
  simp only [Bool.and_eq_true, List.all_eq_true, beq_iff_eq] at check
  obtain ⟨⟨⟨⟨⟨⟨spares, kept⟩, free⟩, both⟩, only⟩, once⟩, runs⟩ := check
  obtain ⟨mid, run, rest⟩ := succeeds_iff.mp runs
  obtain ⟨done, run', -⟩ := succeeds_iff.mp rest
  obtain ⟨last, run'', -⟩ := succeeds_iff.mp once
  have tame : net.Tame := fun _ r mem _ => spares r mem
  have sparing : Sparing (notifyObservers now) := sparing_notifyObservers now
  have held := reached.live_profile Sample.graph_built Sample.terminals_exist rfl tame sparing now
    Sample.pass rfl (.of_allSome kept) run
  have held' := reached.live_profile Sample.graph_built Sample.terminals_exist rfl tame sparing now
    Sample.once rfl (.of_allSome free) run''
  refine ⟨now, net, mid, done, last, reached, run, run', ?_, run'', ?_⟩
  · rw [held.2 rfl .none done run', both]
    rfl
  · rw [held'.1 rfl, only]
    rfl

end Net

end Backprop
