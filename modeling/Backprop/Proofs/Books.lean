import Mathlib
import Backprop.Proofs.Shipments
/-!
# Books of transfers

* `Net.Books`: the records of a net agree with its account.
* `Net.books_constants`, `Net.books_bindInputs` and `Net.books_move`: they still do after an occasion.
-/

namespace Backprop

namespace Net

/-- The records of a net, behind earlier ones, are those of an account, and so is where it stands. -/
structure Books (s : Schedule) (earlier : List (String × Value)) (on : Bool) (a : Account) (net : Net) :
    Prop where
  schedule : net.schedule = s
  infos : net.table.entries.toList.map (·.info) = s.slots
  device : net.device = a.standing.device
  placed : ∀ i ∈ s.forward, net.places i = true →
    ((net.placed.lookup i.index).isSome = true ↔ i.index ∈ a.standing.gathered)
  calls : earlier ++ net.journal.transfers.toList = a.sent.map Shipment.entry
  enabled : net.profile.enabled = on
  count : on = true → net.profile.stats.transfers = a.count
  belong : ∀ x ∈ a.sent, x.Belongs s

variable {s : Schedule} {net net' : Net} {via : Transfer} {earlier : List (String × Value)} {on : Bool}
  {a : Account} {i : Instruction}

theorem loose_books : Loose (Books s earlier on a) where
  table {net table} books same := by
    have infos := congrArg Array.toList same.infos
    simp only [Array.toList_map] at infos
    exact ⟨books.schedule, infos.trans books.infos, books.device, books.placed, books.calls,
      books.enabled, books.count, books.belong⟩
  logged {net net'} books := by
    rintro ⟨journal, profile, rfl, transfers, enabled, count⟩
    refine ⟨books.schedule, books.infos, books.device, books.placed, ?_,
      enabled.trans books.enabled, fun on => count.trans (books.count on), books.belong⟩
    change earlier ++ journal.transfers.toList = _
    rw [transfers]
    exact books.calls
  pending books := ⟨books.schedule, books.infos, books.device, books.placed, books.calls,
    books.enabled, books.count, books.belong⟩

/-- The table of a net that keeps books has the slots of the schedule. -/
theorem Books.runs (books : Books s earlier on a net) : Runs s { net with placed := [] } :=
  ⟨books.schedule, books.infos, fun _ _ _ _ found => by cases found⟩

theorem Books.lists (books : Books s earlier on a net) (wf : s.WellFormed) {info : SlotInfo}
    (mem : info ∈ s.slots) : Lists net.table info :=
  ⟨(books.runs.has wf _).mpr ⟨info, mem, rfl⟩, Option.map_eq_some_iff.mp (books.runs.at?_info wf mem)⟩

/-- The calls that are due on an occasion are entered when they are made. -/
theorem Books.enter {o : Occasion} (books : Books s earlier on a net) (schedule : net'.schedule = s)
    (same : net.table.SameSlots net'.table)
    (sends : Sends o.transfer (carried o.transfer (o.due s a.standing)) net net')
    (device : net'.device = (o.next s a.standing).device)
    (placed : ∀ i ∈ s.forward, net'.places i = true →
      ((net'.placed.lookup i.index).isSome = true ↔ i.index ∈ (o.next s a.standing).gathered))
    (belong : ∀ x ∈ o.due s a.standing, x.Belongs s) : Books s earlier on (a.after s o) net' where
  schedule := schedule
  infos := (loose_books.table books same).infos
  device := device
  placed := placed
  calls := by
    rw [sends.calls, ← List.append_assoc, books.calls]
    exact List.map_append.symm
  enabled := sends.enabled.trans books.enabled
  count yes := (sends.count (books.enabled.trans yes)).trans (by rw [books.count yes]; rfl)
  belong x mem := by
    rcases List.mem_append.mp mem with before | now
    · exact books.belong x before
    · exact belong x (carried_subset _ now)

/-! ### Constants -/

/-- Where there are no constants, none is due. -/
theorem due_of_not_hasConstants (none : i.hasConstants = false) (device : String) :
    (i.constants.1 ++ i.constants.2.map (·.2)).flatMap (dueConstant device i) = [] := by
  have slot : ∀ a : Arg, a.isConst = false → dueConstant device i (constantOf a) = [] := by
    intro a const
    cases a with
    | slot r => rfl
    | const v => cases const
  obtain ⟨args, kwargs⟩ := Bool.or_eq_false_iff.mp none
  rw [List.flatMap_eq_nil_iff]
  intro v mem
  rcases List.mem_append.mp mem with mem | mem
  · obtain ⟨a, ha, rfl⟩ := List.mem_map.mp mem
    exact slot a (by simpa using List.any_eq_false.mp args a ha)
  · obtain ⟨p, hp, rfl⟩ := List.mem_map.mp mem
    obtain ⟨q, hq, rfl⟩ := List.mem_map.mp hp
    exact slot q.2 (by simpa using List.any_eq_false.mp kwargs q hq)

theorem belongs_of_due_gather (hi : i ∈ s.forward) (now : Standing) :
    ∀ x ∈ (Occasion.gather via i).due s now, x.Belongs s := by
  intro x mem
  rw [Occasion.due] at mem
  split at mem
  next => cases mem
  next due =>
    simp only [Bool.or_eq_true, not_or, Bool.not_eq_true, Bool.not_eq_false'] at due
    obtain ⟨v, hv, mem⟩ := List.mem_flatMap.mp mem
    unfold dueConstant at mem
    split at mem
    next movable =>
      obtain rfl := List.mem_singleton.mp mem
      exact ⟨movable, i, hi, rfl, due.1.2, hv⟩
    next => cases mem

theorem Books.device_gather (books : Books s earlier on a net) :
    ((Occasion.gather via i).next s a.standing).device = net.device := by
  rw [Occasion.next_gather, books.device]
  split <;> rfl

section
variable (wf : s.WellFormed) (hi : i ∈ s.forward) (books : Books s earlier on a net)
include hi books

/-- A transfer of constants that fails is entered, and nothing is placed. -/
theorem Books.gather_stopped (frame : Frame net net')
    (stopped : ((Occasion.gather net.transfer i).due s a.standing).all (·.arrives net.transfer) = false)
    (sends : Sends net.transfer
      (carried net.transfer ((Occasion.gather net.transfer i).due s a.standing)) net net') :
    Books s earlier on (a.after s (.gather net.transfer i)) net' := by
  have stays : (Occasion.gather net.transfer i).next s a.standing = a.standing := by
    rw [Occasion.next_gather, if_neg (ne_true_of_eq_false stopped)]
  have device : ((Occasion.gather net.transfer i).next s a.standing).device = net.device :=
    books.device_gather
  obtain ⟨⟨table, journal, profile, rfl⟩, same⟩ := frame
  refine books.enter books.schedule same sends device.symm ?_ (belongs_of_due_gather hi a.standing)
  rw [stays]
  exact books.placed

/-- Constants that were moved are entered when they are placed. -/
theorem Books.gather_placed {args kwargs} (frame : Frame net net')
    (arrive : ((Occasion.gather net.transfer i).due s a.standing).all (·.arrives net.transfer) = true)
    (sends : Sends net.transfer
      (carried net.transfer ((Occasion.gather net.transfer i).due s a.standing)) net net') :
    Books s earlier on (a.after s (.gather net.transfer i))
      { net' with placed := (i.index, args, kwargs) :: net'.placed } := by
  have counts : (Occasion.gather net.transfer i).next s a.standing =
      { a.standing with gathered := i.index :: a.standing.gathered } := by
    rw [Occasion.next_gather, if_pos arrive]
  have device : ((Occasion.gather net.transfer i).next s a.standing).device = net.device :=
    books.device_gather
  obtain ⟨⟨table, journal, profile, rfl⟩, same⟩ := frame
  refine books.enter books.schedule same ⟨sends.calls, sends.enabled, sends.count⟩ device.symm
    (fun j hj places => ?_) (belongs_of_due_gather hi a.standing)
  rw [counts, List.mem_cons, List.lookup_cons]
  by_cases eq : j.index = i.index
  · simp [eq]
  · rw [beq_eq_false_iff_ne.mpr eq, ← books.placed j hj places]
    exact ⟨.inr, fun h => h.resolve_left eq⟩

include wf

/-- Where no constants are due, the instruction counts as having gathered its arguments. -/
theorem Books.gather_idle (due : (Occasion.gather via i).due s a.standing = [])
    (known : net.places i = true → i.index ∈ a.standing.gathered) :
    Books s earlier on (a.after s (.gather via i)) net := by
  have counts : (Occasion.gather via i).next s a.standing =
      { a.standing with gathered := i.index :: a.standing.gathered } := by
    rw [Occasion.next_gather, due]
    rfl
  refine books.enter books.schedule (.refl _) ?_ books.device_gather.symm (fun j hj places => ?_)
    (belongs_of_due_gather hi a.standing)
  · rw [due]
    exact .refl _ _
  · rw [books.placed j hj places, counts, List.mem_cons]
    refine ⟨.inr, fun among => among.elim (fun eq => ?_) id⟩
    obtain rfl := wf.inPlace.instruction_unique hj hi eq
    exact known places

/-- An instruction that uses its constants is entered as having gathered its arguments, unless a transfer
fails. -/
theorem books_constants : Leads (constants i) net
    (fun _ net' => Books s earlier on (a.after s (.gather net.transfer i)) net')
    fun _ net' => Books s earlier on (a.after s (.gather net.transfer i)) net' := by
  simp only [constants, leads_bind, leads_get]
  split
  next places =>
    have placed := books.placed i hi places
    split
    next c found =>
      have known : i.index ∈ a.standing.gathered := placed.mp (by rw [found]; rfl)
      exact books.gather_idle wf hi (by simp [Occasion.due, known]) fun _ => known
    next missing =>
      have fresh : i.index ∉ a.standing.gathered := by
        rw [← placed, missing]
        exact Bool.false_ne_true
      have due : (Occasion.gather net.transfer i).due s a.standing =
          (i.constants.1 ++ i.constants.2.map (·.2)).flatMap (dueConstant net.device i) := by
        simp only [Bool.and_eq_true, bne_iff_ne] at places
        simp [Occasion.due, ← books.device, places.1.1, places.1.2, fresh]
      have delivers : Delivers net _ _ := delivers_constants i
      have run := delivers net (.refl net)
      rw [← due] at run
      simp only [leads_bind, leads_pure, leads_modify] at run ⊢
      refine run.mono (fun args t later => later.mono ?_ ?_) ?_
      · rintro kwargs u ⟨arrive, frame, sends⟩
        exact books.gather_placed hi frame arrive sends
      · rintro _ net' ⟨stopped, frame, sends⟩
        exact books.gather_stopped hi frame stopped sends
      · rintro _ net' ⟨stopped, frame, sends⟩
        exact books.gather_stopped hi frame stopped sends
  next unplaced =>
    refine books.gather_idle wf hi ?_ fun places => absurd places unplaced
    by_cases host : net.device = Device.host
    · simp [Occasion.due, ← books.device, host]
    · cases flag : i.devicePlacement with
      | false => simp [Occasion.due, flag]
      | true =>
        have none : i.hasConstants = false := by simpa [flag, host] using unplaced
        rw [Occasion.due, due_of_not_hasConstants none, ite_self]

end

/-! ### Inputs -/

theorem belongs_of_due_bind (pending : List (Slot × Value)) (now : Standing) :
    ∀ x ∈ (Occasion.bind via pending).due s now, x.Belongs s := by
  intro x mem
  rw [Occasion.due] at mem
  split at mem
  next => cases mem
  next =>
    obtain ⟨r, hr, mem⟩ := List.mem_flatMap.mp mem
    unfold dueInput at mem
    split at mem
    next => cases mem
    next => cases mem
    next =>
      obtain rfl := List.mem_singleton.mp mem
      exact hr

/-- The slots of inputs that are placed on the device. -/
theorem due_bind (pending : List (Slot × Value)) (now : Standing) :
    (Occasion.bind via pending).due s now = (s.slots.filter (·.kind = .input)).flatMap fun info =>
      if info.devicePlacement && now.device != Device.host then
        dueInput now.device pending info.index
      else [] := by
  rw [Occasion.due]
  split
  next host => simp [host]
  next away =>
    unfold Schedule.flagged
    induction s.slots with
    | nil => rfl
    | cons info infos ih =>
      cases input : decide (info.kind = .input) <;> cases flag : info.devicePlacement <;>
        simp_all

/-- A binding is entered, whether an input has no value or a transfer fails. -/
theorem books_bindInputs (wf : s.WellFormed) (books : Books s earlier on a net) :
    Leads bindInputs net
      (fun _ net' => Books s earlier on (a.after s (.bind net.transfer net.pending)) net')
      fun _ net' => Books s earlier on (a.after s (.bind net.transfer net.pending)) net' := by
  obtain rfl : net.schedule = s := books.schedule
  let base : Net := { net with pending := [] }
  let o : Occasion := .bind net.transfer net.pending
  have delivers : Delivers base _ _ :=
    delivers_bindEach net.pending (net.schedule.slots.filter (·.kind = .input)) fun info mem =>
      books.lists wf (List.mem_filter.mp mem).1
  have run := delivers base (.refl base)
  have due : o.due net.schedule a.standing = _ := due_bind net.pending a.standing
  rw [← wf.inputSlots_eq, show base.device = a.standing.device from books.device, ← due] at run
  have entered : ∀ net', Frame base net' →
      Sends net.transfer (carried net.transfer (o.due net.schedule a.standing)) base net' →
        Books net.schedule earlier on (a.after net.schedule o) net' := by
    rintro _ ⟨⟨table, journal, profile, rfl⟩, same⟩ ⟨calls, enabled, count⟩
    refine books.enter books.schedule same ⟨calls, enabled, count⟩ ?_ ?_
      (belongs_of_due_bind net.pending a.standing)
    · rw [Occasion.next_bind]
      exact books.device
    · rw [Occasion.next_bind]
      exact books.placed
  simp only [bindInputs, leads_bind, leads_get, leads_set]
  refine run.mono ?_ fun _ net' h => entered net' h.2.1 h.2.2
  rintro missing net' ⟨-, frame, sends⟩
  split <;> exact entered net' frame sends

/-! ### Moves -/

theorem slots_indices (wf : s.WellFormed) :
    s.slots.map (·.index) = (List.range s.slots.length).map fun k : Nat => (k : Slot) := by
  refine List.ext_getElem (by simp) fun k hk hk' => ?_
  have bound : k < s.slots.length := by simpa using hk
  rw [List.getElem_map, List.getElem_map, List.getElem_range,
    wf.slotIndex k _ (List.getElem?_eq_getElem bound)]

theorem forM_map {ι κ : Type} (g : ι → κ) (f : κ → NetM Unit) (l : List ι) :
    (l.map g).forM f = l.forM fun a => f (g a) := by
  induction l with
  | nil => rfl
  | cons a l ih => exact congrArg (fun rest => f (g a) >>= fun _ => rest) ih

/-- Slots are visited in the order that they have in the schedule. -/
theorem forM_range_slots (wf : s.WellFormed) (size : net.table.size = s.slots.length)
    (f : Slot → NetM Unit) :
    ((List.range net.table.size).forM fun k => f k) = s.slots.forM fun info => f info.index := by
  rw [size, ← forM_map (fun k : Nat => (k : Slot)) f, ← slots_indices wf, forM_map]

theorem belongs_of_due_move (device : String) (t : VariableTable) (now : Standing) :
    ∀ x ∈ (Occasion.move via device t).due s now, x.Belongs s := by
  intro x mem
  have among : ∀ slots, visited t slots ⊆ slots := by
    intro slots
    induction slots with
    | nil => exact List.Subset.refl _
    | cons r slots ih =>
      rw [visited]
      split
      · exact List.cons_subset_cons r ih
      · simp
  obtain ⟨r, hr, mem⟩ := List.mem_flatMap.mp mem
  have flagged : r ∈ s.flagged .param := among _ hr
  rcases List.mem_append.mp mem with mem | mem
  · unfold dueValue at mem
    split at mem
    next => cases mem
    next =>
      obtain rfl := List.mem_singleton.mp mem
      exact flagged
  · unfold dueDer at mem
    split at mem
    next =>
      split at mem
      next => cases mem
      next =>
        obtain rfl := List.mem_singleton.mp mem
        exact flagged
    next => cases mem

/-- A move is entered, whether it is completed or stops on the way. -/
theorem books_move (wf : s.WellFormed) (books : Books s earlier on a net) (idle : net.evaluating = false)
    (label : NodeRef → String) (device : Value) : Leads (move label device) net
      (fun _ net' => Books s earlier on
        (a.after s (.move net.transfer (Device.normalize label device) net.table)) net')
      fun _ net' => Books s earlier on
        (a.after s (.move net.transfer (Device.normalize label device) net.table)) net' := by
  generalize named : Device.normalize label device = place
  let o : Occasion := .move net.transfer place net.table
  have belong : ∀ x ∈ o.due s a.standing, x.Belongs s :=
    belongs_of_due_move place net.table a.standing
  have indices : (s.slots.map (·.index)).Nodup := by
    rw [slots_indices wf]
    exact List.nodup_range.map fun k l eq => Int.ofNat.inj eq
  have numbered : Numbered net.table := (books.runs.numbered wf :)
  have size : net.table.size = s.slots.length := books.runs.size
  have run := leads_moveParams place numbered s.slots net (.refl net) indices
    fun info mem => ⟨books.lists wf mem, rfl⟩
  simp only [move, leads_bind, leads_get, idle, Bool.false_eq_true, if_false, named,
    forM_range_slots wf size]
  refine Leads.mono run ?_ ?_
  · rintro _ _ ⟨through, ⟨⟨table, journal, profile, rfl⟩, same⟩, sends⟩
    have next : o.next s a.standing = { device := place } := if_pos through
    let there : Net := { net with
      table, journal, profile, device := place, placed := [], backwardReady := false }
    have entered : Books s earlier on (a.after s o) there := by
      refine books.enter books.schedule same ⟨sends.calls, sends.enabled, sends.count⟩ (by rw [next])
        (fun i hi places => ?_) belong
      rw [next]
      simp [there]
    exact loose_books.logged entered ⟨_, _, rfl, rfl, rfl, rfl⟩
  · rintro e _ ⟨stopped, ⟨⟨table, journal, profile, rfl⟩, same⟩, sends⟩
    have next : o.next s a.standing = a.standing := if_neg (ne_true_of_eq_false stopped)
    refine books.enter (o := o) books.schedule same sends (by rw [next]; exact books.device)
      (by rw [next]; exact books.placed) belong

end Net

end Backprop
