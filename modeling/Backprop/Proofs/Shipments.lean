import Mathlib
import Backprop.Proofs.Moving
/-!
# What is due to be moved

Flagged values are moved to the device on three occasions: when the net is moved there, when inputs are
bound, and when an instruction gathers its arguments for the first time after a move.

* `Net.Occasion.due`: what is to be moved on an occasion. `Net.carried`: what is, if a transfer can fail.
* `Net.Account`: what was moved so far, on some occasions one after the other.
* `Net.Delivers`: a part of a net's work calls the transfer for what is due. `Net.delivers_bindEach` and
  `Net.delivers_constants`: inputs and constants are. `Net.leads_moveParams`: so are parameters.
-/

namespace Backprop

/-- The slots of a kind whose values belong on the device. -/
def Schedule.flagged (s : Schedule) (kind : SlotKind) : List Slot :=
  (s.slots.filter fun info => info.kind = kind && info.devicePlacement).map (·.index)

namespace Net

/-! ### Occasions -/

/-- What a value is that is moved. -/
inductive Freight where
  | value (param : Slot)
  | der (param : Slot)
  | input (slot : Slot)
  | constant (instruction : Nat)
deriving DecidableEq

/-- A call of the transfer. -/
structure Shipment where
  freight : Freight
  device : String
  value : Value

namespace Shipment

/-- The record of a call. -/
def entry (x : Shipment) : String × Value := (x.device, x.value)

/-- Whether the call succeeds. -/
def arrives (transfer : Transfer) (x : Shipment) : Bool := (transfer x.value x.device).isOk

/-- Whether the call is counted: that for a constant before it is made, that for a derivative never, and
any other after it has succeeded. -/
def counted (transfer : Transfer) (x : Shipment) : Bool :=
  match x.freight with
  | .constant _ => true
  | .der _ => false
  | .value _ | .input _ => x.arrives transfer

end Shipment

/-- The calls that are made of those to make: they end with the first that fails. -/
def carried (transfer : Transfer) : List Shipment → List Shipment
  | [] => []
  | x :: l => x :: if x.arrives transfer then carried transfer l else []

/-- When values are moved, with what was there at that time. -/
inductive Occasion where
  | move (transfer : Transfer) (device : String) (table : VariableTable)
  | bind (transfer : Transfer) (pending : List (Slot × Value))
  | gather (transfer : Transfer) (i : Instruction)

/-- Where a net stands after its last move: its device, and the instructions that have gathered their
arguments since. -/
structure Standing where
  device : String := Device.host
  gathered : List Nat := []

/-- Whether a derivative can be read: what waits for it can be added up. -/
def readable (t : VariableTable) (r : Slot) : Bool := (t.readDer r).isOk

/-- The slots that a move comes to. One whose derivative cannot be read is the last. -/
def visited (t : VariableTable) : List Slot → List Slot
  | [] => []
  | r :: slots => r :: if readable t r then visited t slots else []

/-- The value of a parameter is to be moved, if it has one. -/
def dueValue (device : String) (t : VariableTable) (r : Slot) : List Shipment :=
  if (t.valueAt r).isNone then [] else [⟨.value r, device, t.valueAt r⟩]

/-- The derivative of a parameter is to be moved, if it can be read and there is one. -/
def dueDer (device : String) (t : VariableTable) (r : Slot) : List Shipment :=
  match t.readDer r with
  | .ok d => if d.isZero then [] else [⟨.der r, device, d⟩]
  | .error _ => []

/-- What is to be moved of a parameter. -/
def dueParam (device : String) (t : VariableTable) (r : Slot) : List Shipment :=
  dueValue device t r ++ dueDer device t r

/-- What is to be moved of an input: the value that waits for it, if there is one. -/
def dueInput (device : String) (pending : List (Slot × Value)) (r : Slot) : List Shipment :=
  match pending.lookup r with
  | none | some .none => []
  | some v => [⟨.input r, device, v⟩]

/-- What is to be moved of a constant: only arrays are. -/
def dueConstant (device : String) (i : Instruction) (v : Value) : List Shipment :=
  if v.isMovable then [⟨.constant i.index, device, v⟩] else []

namespace Occasion

def transfer : Occasion → Transfer
  | move transfer .. | bind transfer _ | gather transfer _ => transfer

/-- What is to be moved: by a move, the flagged parameters in slot order; and unless the net is on the
host, at a binding the flagged inputs, and the constants of a flagged instruction that has not gathered
its arguments since the last move. -/
def due (s : Schedule) (now : Standing) : Occasion → List Shipment
  | move _ device table => (visited table (s.flagged .param)).flatMap (dueParam device table)
  | bind _ pending =>
    if now.device = Device.host then []
    else (s.flagged .input).flatMap (dueInput now.device pending)
  | gather _ i =>
    if now.device = Device.host || !i.devicePlacement || now.gathered.contains i.index then []
    else (i.constants.1 ++ i.constants.2.map (·.2)).flatMap (dueConstant now.device i)

/-- Whether nothing fails on the way. -/
def succeeds (s : Schedule) (now : Standing) (o : Occasion) : Bool :=
  (o.due s now).all (·.arrives o.transfer) &&
    match o with
    | move _ _ table => (s.flagged .param).all (readable table)
    | _ => true

/-- Where the net stands afterwards. A move or a gathering that fails does not count. -/
def next (s : Schedule) (now : Standing) (o : Occasion) : Standing :=
  if o.succeeds s now then
    match o with
    | move _ device _ => { device }
    | bind .. => now
    | gather _ i => { now with gathered := i.index :: now.gathered }
  else now

end Occasion

/-- What was moved so far. -/
structure Account where
  standing : Standing := {}
  /-- The calls of the transfer. -/
  sent : List Shipment := []
  /-- How many of them were counted. -/
  count : Nat := 0

namespace Account

/-- An account after one more occasion. -/
def after (s : Schedule) (a : Account) (o : Occasion) : Account :=
  let calls := carried o.transfer (o.due s a.standing)
  { standing := o.next s a.standing
    sent := a.sent ++ calls
    count := a.count + calls.countP (·.counted o.transfer) }

/-- The account of some occasions. -/
def of (s : Schedule) (occasions : List Occasion) : Account := occasions.foldl (after s) {}

theorem of_append (s : Schedule) (a b : List Occasion) :
    of s (a ++ b) = b.foldl (after s) (of s a) := List.foldl_append

end Account

/-- A value that belongs on the device: that of a flagged parameter or input, or an array among the
constants of a flagged instruction. -/
def Shipment.Belongs (s : Schedule) (x : Shipment) : Prop :=
  match x.freight with
  | .value r | .der r => r ∈ s.flagged .param
  | .input r => r ∈ s.flagged .input
  | .constant k => x.value.isMovable = true ∧ ∃ i ∈ s.forward, i.index = k ∧
      i.devicePlacement = true ∧ x.value ∈ i.constants.1 ++ i.constants.2.map (·.2)

variable {s : Schedule} {base net net' net'' : Net} {via : Transfer} {l l' : List Shipment}
  {α β : Type}

theorem carried_one (x : Shipment) : carried via [x] = [x] := by
  unfold carried
  split <;> rfl

theorem carried_append (l l' : List Shipment) : carried via (l ++ l') =
    carried via l ++ if l.all (·.arrives via) then carried via l' else [] := by
  induction l with
  | nil => rfl
  | cons x l ih =>
    cases arrives : x.arrives via <;> simp [carried, arrives, ih]

/-- Calls of which none fails are all that were to be made. -/
theorem carried_of_arrive (arrive : (carried via l).all (·.arrives via) = true) : carried via l = l := by
  induction l with
  | nil => rfl
  | cons x l ih =>
    rw [carried, List.all_cons, Bool.and_eq_true] at arrive
    obtain ⟨here, rest⟩ := arrive
    rw [if_pos here] at rest
    rw [carried, if_pos here, ih rest]

theorem carried_subset (l : List Shipment) : carried via l ⊆ l := by
  induction l with
  | nil => exact List.Subset.refl _
  | cons x l ih =>
    rw [carried]
    split
    · exact List.cons_subset_cons x ih
    · simp

namespace Occasion

/-- A binding leaves a net where it stands. -/
theorem next_bind (pending : List (Slot × Value)) (now : Standing) :
    (bind via pending).next s now = now := by
  unfold next
  split <;> rfl

theorem next_gather (i : Instruction) (now : Standing) : (gather via i).next s now =
    if ((gather via i).due s now).all (·.arrives via) then
      { now with gathered := i.index :: now.gathered }
    else now := by
  simp [next, succeeds, transfer]

end Occasion

/-! ### Records of transfers -/

/-- One net has the records of another one and of these calls. -/
structure Sends (via : Transfer) (l : List Shipment) (net net' : Net) : Prop where
  calls : net'.journal.transfers.toList = net.journal.transfers.toList ++ l.map Shipment.entry
  enabled : net'.profile.enabled = net.profile.enabled
  count : net.profile.enabled = true → net'.profile.stats.transfers =
    net.profile.stats.transfers + l.countP (·.counted via)

theorem sends_nil (calls : net'.journal.transfers = net.journal.transfers)
    (enabled : net'.profile.enabled = net.profile.enabled)
    (count : net'.profile.stats.transfers = net.profile.stats.transfers) : Sends via [] net net' :=
  ⟨by simp [calls], enabled, fun _ => by simp [count]⟩

theorem Sends.refl (via : Transfer) (net : Net) : Sends via [] net net := sends_nil rfl rfl rfl

theorem Sends.trans (h : Sends via l net net') (h' : Sends via l' net' net'') :
    Sends via (l ++ l') net net'' := by
  refine ⟨?_, h'.enabled.trans h.enabled, fun on => ?_⟩
  · rw [h'.calls, h.calls, List.map_append, List.append_assoc]
  · rw [h'.count (h.enabled.trans on), h.count on, List.countP_append, Nat.add_assoc]

/-- A change of records and of the table without its slots. -/
structure Frame (net net' : Net) : Prop where
  rewritten : Rewritten net net'
  same : net.table.SameSlots net'.table

theorem Frame.refl (net : Net) : Frame net net := ⟨.refl net, .refl _⟩

theorem Frame.trans (h : Frame net net') (h' : Frame net' net'') : Frame net net'' :=
  ⟨h.rewritten.trans h'.rewritten, h.same.trans h'.same⟩

theorem Frame.device (h : Frame net net') : net'.device = net.device := by
  obtain ⟨⟨_, _, _, rfl⟩, -⟩ := h
  rfl

theorem Frame.transfer (h : Frame net net') : net'.transfer = net.transfer := by
  obtain ⟨⟨_, _, _, rfl⟩, -⟩ := h
  rfl

/-- A part of a net's work that calls the transfer for these, one after the other until one fails. It
fails if and only if a call does. -/
def Delivers (base : Net) (l : List Shipment) (m : NetM α) : Prop :=
  ∀ net, Frame base net → Leads m net
    (fun _ net' => l.all (·.arrives base.transfer) = true ∧ Frame base net' ∧
      Sends base.transfer (carried base.transfer l) net net')
    fun _ net' => l.all (·.arrives base.transfer) = false ∧ Frame base net' ∧
      Sends base.transfer (carried base.transfer l) net net'

namespace Delivers

theorem pure (a : α) : Delivers base [] (pure a) := fun _ frame => ⟨rfl, frame, .refl _ _⟩

theorem bind {m : NetM α} {f : α → NetM β} (h : Delivers base l m) (h' : ∀ a, Delivers base l' (f a)) :
    Delivers base (l ++ l') (m >>= f) := by
  intro net frame
  rw [leads_bind, carried_append, List.all_append]
  refine (h net frame).mono ?_ ?_
  · rintro a net₁ ⟨through, frame₁, sends⟩
    rw [through, Bool.true_and, if_pos rfl]
    exact (h' a net₁ frame₁).mono (fun _ _ ⟨through', frame₂, sends'⟩ =>
      ⟨through', frame₂, sends.trans sends'⟩) fun _ _ ⟨through', frame₂, sends'⟩ =>
      ⟨through', frame₂, sends.trans sends'⟩
  · rintro e net₁ ⟨stopped, frame₁, sends⟩
    rw [stopped, Bool.false_and, if_neg Bool.false_ne_true, List.append_nil]
    exact ⟨rfl, frame₁, sends⟩

theorem mapM {ι : Type} {f : ι → NetM α} {g : ι → List Shipment} :
    ∀ {l : List ι}, (∀ a ∈ l, Delivers base (g a) (f a)) → Delivers base (l.flatMap g) (l.mapM f) := by
  intro l
  induction l with
  | nil =>
    intro _
    rw [List.mapM_nil]
    exact .pure []
  | cons a l ih =>
    intro h
    have rest : Delivers base (l.flatMap g) (l.mapM f) := ih fun b hb => h b (by simp [hb])
    rw [List.mapM_cons, List.flatMap_cons]
    refine .bind (h a (by simp)) fun b => ?_
    rw [← List.append_nil (l.flatMap g)]
    exact .bind rest fun bs => .pure _

end Delivers

/-! ### Inputs and constants -/

/-- A net after a call of the transfer. -/
def called (net : Net) (x : Shipment) : Net :=
  { net with journal := { net.journal with transfers := net.journal.transfers.push x.entry } }

theorem leads_callTransfer (x : Shipment) (net : Net) : Leads (callTransfer x.value x.device) net
    (fun _ net' => x.arrives net.transfer = true ∧ net' = net.called x)
    fun _ net' => x.arrives net.transfer = false ∧ net' = net.called x := by
  simp only [callTransfer, leads_bind, leads_modify, leads_get, leads_ofExcept, Shipment.arrives]
  cases net.transfer x.value x.device <;> exact ⟨rfl, rfl⟩

theorem sends_one {x : Shipment} (calls : net'.journal.transfers = net.journal.transfers.push x.entry)
    (profile : net'.profile = if x.counted via then net.profile.recordTransfer else net.profile) :
    Sends via [x] net net' := by
  refine ⟨by simp [calls], ?_, fun on => ?_⟩
  · rw [profile]
    split
    · unfold Profile.recordTransfer Profile.record
      split <;> rfl
    · rfl
  · rw [profile]
    cases counts : x.counted via <;> simp [counts, Profile.recordTransfer, Profile.record, on]

/-- An array is moved, and counted before it is. -/
theorem delivers_place (i : Instruction) (v : Value) :
    Delivers base (dueConstant base.device i v) (place v) := by
  intro net frame
  unfold place dueConstant
  split
  next movable =>
    let x : Shipment := ⟨.constant i.index, net.device, v⟩
    let counted : Net := { net with profile := net.profile.recordTransfer }
    have one : Frame base (counted.called x) ∧ Sends base.transfer [x] net (counted.called x) :=
      ⟨frame.trans ⟨⟨_, _, _, rfl⟩, .refl _⟩, sends_one rfl rfl⟩
    rw [← frame.device, carried_one, ← frame.transfer, List.all_cons, List.all_nil, Bool.and_true]
    rw [← frame.transfer] at one
    simp only [leads_bind, recordTransfer, leads_modify, leads_get]
    refine (leads_callTransfer x counted).mono ?_ ?_ <;>
    · rintro _ _ ⟨arrives, rfl⟩
      exact ⟨arrives, one⟩
  next => exact Delivers.pure v net frame

/-- The table has a slot like this. -/
structure Lists (t : VariableTable) (info : SlotInfo) : Prop where
  has : t.Has info.index
  found : ∃ v, t.at? info.index = some v ∧ v.info = info

theorem Lists.congr {t t' : VariableTable} {info : SlotInfo} (h : Lists t info) (same : t.SameSlots t') :
    Lists t' info := by
  obtain ⟨has, v, found, eq⟩ := h
  have there := VariableTable.infoAt_sameSlots same info.index
  rw [found, Option.map_some, eq] at there
  exact ⟨(same.has _).mpr has, Option.map_eq_some_iff.mp there⟩

/-- An input's value is moved to where the input is placed, and counted after that. -/
theorem delivers_bindInput {info : SlotInfo} (lists : Lists base.table info) (v : Value) :
    Delivers base (if info.devicePlacement && base.device != Device.host then
      [⟨.input info.index, base.device, v⟩] else []) (bindInput info.index v) := by
  intro net frame
  obtain ⟨has, found, there, rfl⟩ := lists.congr frame.same
  rw [← frame.device]
  simp only [bindInput, leads_bind, leads_onTable, VariableTable.leads_lookup there, leads_get]
  split
  next placed =>
    let x : Shipment := ⟨.input found.info.index, net.device, v⟩
    rw [carried_one, ← frame.transfer, List.all_cons, List.all_nil, Bool.and_true]
    simp only [leads_bind, recordTransfer, leads_modify]
    refine (leads_callTransfer x net).mono ?_ ?_
    · rintro y _ ⟨arrives, rfl⟩
      have has' : (net.called x).table.Has found.info.index := has
      rw [leads_pure, leads_onTable, VariableTable.leads_putValue has']
      refine ⟨arrives, frame.trans ⟨⟨_, _, _, rfl⟩, VariableTable.sameSlots_setValue _⟩,
        sends_one rfl ?_⟩
      rw [if_pos (show x.counted net.transfer = true from arrives)]
      rfl
    · rintro e _ ⟨stays, rfl⟩
      refine ⟨stays, frame.trans ⟨⟨_, _, _, rfl⟩, .refl _⟩, sends_one rfl ?_⟩
      rw [if_neg (by rw [show x.counted net.transfer = false from stays]; exact Bool.false_ne_true)]
      rfl
  next =>
    rw [leads_bind, leads_pure, leads_onTable, VariableTable.leads_putValue has]
    exact ⟨rfl, frame.trans ⟨⟨_, _, _, rfl⟩, VariableTable.sameSlots_setValue _⟩,
      sends_nil rfl rfl rfl⟩

/-- Inputs are bound in slot order. -/
theorem delivers_bindEach (pending : List (Slot × Value)) : ∀ infos : List SlotInfo,
    (∀ info ∈ infos, Lists base.table info) → Delivers base (infos.flatMap fun info =>
        if info.devicePlacement && base.device != Device.host then
          dueInput base.device pending info.index
        else []) (bindEach pending (infos.map fun info => (info.name, info.index))) := by
  intro infos
  induction infos with
  | nil => exact fun _ => .pure []
  | cons info infos ih =>
    intro known
    have rest := ih fun info mem => known info (by simp [mem])
    have skip : Delivers base ((if info.devicePlacement && base.device != Device.host then [] else []) ++
        infos.flatMap fun info =>
          if info.devicePlacement && base.device != Device.host then
            dueInput base.device pending info.index
          else []) (do
        return info.name :: (← bindEach pending (infos.map fun info => (info.name, info.index)))) := by
      rw [ite_self, List.nil_append, ← List.append_nil (List.flatMap _ infos)]
      exact .bind rest fun _ => .pure _
    rw [List.flatMap_cons, List.map_cons]
    unfold bindEach dueInput
    cases found : pending.lookup info.index with
    | none => exact skip
    | some v =>
      cases v with
      | none => exact skip
      | _ => exact .bind (delivers_bindInput (known info (by simp)) _) fun _ => rest

/-- The constants of an instruction are moved, those of its keywords last. -/
theorem delivers_constants (i : Instruction) : Delivers base
    ((i.constants.1 ++ i.constants.2.map (·.2)).flatMap (dueConstant base.device i)) (do
      let args ← i.constants.1.mapM place
      let kwargs ← i.constants.2.mapM fun (k, v) => do return (k, ← place v)
      return (args, kwargs)) := by
  rw [List.flatMap_append, List.flatMap_map]
  refine .bind (.mapM fun v _ => delivers_place i v) fun args => ?_
  rw [← List.append_nil (i.constants.2.flatMap _)]
  refine .bind (.mapM fun p _ => ?_) fun kwargs => .pure _
  rw [← List.append_nil (dueConstant _ _ _)]
  exact .bind (delivers_place i p.2) fun x => .pure _

/-! ### Parameters -/

/-- A derivative is moved, but not counted. -/
theorem leads_moveDer {r : Slot} (device : String) (has : net.table.Has r) :
    Leads (do
        let der ← onTable (VariableTable.getDer r)
        if !der.isZero then
          let x ← callTransfer der device
          onTable (VariableTable.setDer r x)) net
      (fun _ net' => ((dueDer device net.table r).all (·.arrives net.transfer) &&
          readable net.table r) = true ∧
        Sends net.transfer (carried net.transfer (dueDer device net.table r)) net net')
      fun _ net' => ((dueDer device net.table r).all (·.arrives net.transfer) &&
          readable net.table r) = false ∧
        Sends net.transfer (carried net.transfer (dueDer device net.table r)) net net' := by
  rw [leads_bind, leads_onTable, VariableTable.leads_getDer has]
  unfold dueDer readable
  cases net.table.readDer r with
  | error e => exact ⟨rfl, .refl _ _⟩
  | ok d =>
    let folded : Net := { net with table := net.table.setDerAt r d }
    have has' : (folded.called ⟨.der r, device, d⟩).table.Has r :=
      ((VariableTable.sameSlots_setDerAt d).has r).mpr has
    dsimp only
    cases zero : d.isZero with
    | true => exact ⟨rfl, sends_nil rfl rfl rfl⟩
    | false =>
      rw [Bool.not_false, if_pos rfl, if_neg Bool.false_ne_true, carried_one, leads_bind]
      refine (leads_callTransfer ⟨.der r, device, d⟩ folded).mono ?_ ?_
      · rintro x _ ⟨arrives, rfl⟩
        rw [leads_onTable, VariableTable.leads_setDer has']
        refine ⟨?_, sends_one rfl rfl⟩
        rw [List.all_cons, List.all_nil, Bool.and_true]
        exact (Bool.and_true _).trans arrives
      · rintro e _ ⟨stays, rfl⟩
        refine ⟨?_, sends_one rfl rfl⟩
        rw [List.all_cons, List.all_nil, Bool.and_true]
        exact (Bool.and_true _).trans stays

/-- Nothing fails at one parameter. -/
def passes (via : Transfer) (device : String) (t : VariableTable) (r : Slot) : Bool :=
  (dueParam device t r).all (·.arrives via) && readable t r

/-- A flagged parameter is moved, unless a transfer fails or its derivative cannot be read. -/
theorem leads_moveParam {info : SlotInfo} (device : String) (lists : Lists net.table info)
    (param : info.kind = .param) (placed : info.devicePlacement = true) :
    Leads (moveParam device info.index) net
      (fun _ net' => passes net.transfer device net.table info.index = true ∧
        Sends net.transfer (carried net.transfer (dueParam device net.table info.index)) net net')
      fun _ net' => passes net.transfer device net.table info.index = false ∧
        Sends net.transfer (carried net.transfer (dueParam device net.table info.index)) net net' := by
  obtain ⟨has, v, found, rfl⟩ := lists
  have value : net.table.valueAt v.info.index = v.value := by simp [VariableTable.valueAt, found]
  unfold moveParam passes dueParam dueValue
  rw [leads_bind, leads_onTable, VariableTable.leads_lookup found, value, placed, param]
  dsimp only
  rw [Bool.true_and, decide_eq_true (rfl : SlotKind.param = .param), if_pos rfl]
  cases none : v.value.isNone with
  | true =>
    rw [Bool.not_true, if_neg Bool.false_ne_true, if_pos rfl, List.nil_append]
    exact leads_moveDer device has
  | false =>
    let x : Shipment := ⟨.value v.info.index, device, v.value⟩
    rw [Bool.not_false, if_pos rfl, if_neg Bool.false_ne_true, carried_append, List.all_append,
      carried_one, leads_bind]
    refine (leads_callTransfer x net).mono ?_ ?_
    · rintro y _ ⟨arrives, rfl⟩
      have has' : (net.called x).table.Has v.info.index := has
      rw [leads_bind, leads_onTable, VariableTable.leads_putValue has', leads_bind, recordTransfer,
        leads_modify]
      let put : Net := { net.called x with
        table := net.table.setValue v.info.index y, profile := net.profile.recordTransfer }
      have same : net.table.SameSlots put.table := VariableTable.sameSlots_setValue y
      have read : put.table.readDer v.info.index = net.table.readDer v.info.index :=
        VariableTable.readDer_congr same.addition (VariableTable.derAt_setValue has has y)
          (VariableTable.partsAt_setValue has has y)
      have first : Sends net.transfer [x] net put := by
        refine sends_one rfl ?_
        rw [if_pos (show x.counted net.transfer = true from arrives)]
      have there : put.table.Has v.info.index := (same.has _).mpr has
      have rest := leads_moveDer device there
      have due : dueDer device put.table v.info.index = dueDer device net.table v.info.index := by
        unfold dueDer
        rw [read]
      rw [due, readable, read] at rest
      have through : [x].all (·.arrives net.transfer) = true := by simpa using arrives
      rw [through, Bool.true_and, if_pos rfl]
      exact rest.mono (fun _ _ h => ⟨h.1, first.trans h.2⟩) fun _ _ h => ⟨h.1, first.trans h.2⟩
    · rintro e _ ⟨stays, rfl⟩
      have stopped : [x].all (·.arrives net.transfer) = false := by simpa using stays
      rw [stopped, Bool.false_and, Bool.false_and, if_neg Bool.false_ne_true, List.append_nil]
      refine ⟨rfl, sends_one rfl ?_⟩
      rw [if_neg (by rw [show x.counted net.transfer = false from stays]; exact Bool.false_ne_true)]
      rfl

/-- Any other slot is left alone. -/
theorem leads_moveParam_plain {info : SlotInfo} {device : String} (lists : Lists net.table info)
    (plain : (decide (info.kind = .param) && info.devicePlacement) = false) :
    Leads (moveParam device info.index) net (fun _ net' => net' = net) fun _ _ => False := by
  obtain ⟨has, v, found, rfl⟩ := lists
  unfold moveParam
  rw [leads_bind, leads_onTable, VariableTable.leads_lookup found, Bool.and_comm, plain]
  exact rfl

section
variable {t t' : VariableTable} {r : Slot} (same : t.SameSlots t') (eq : t'.at? r = t.at? r)
include same eq

theorem readable_congr : readable t' r = readable t r := by
  rw [readable, readable, readDer_congr_at same eq]

theorem dueParam_congr (device : String) : dueParam device t' r = dueParam device t r := by
  unfold dueParam dueValue dueDer
  rw [readDer_congr_at same eq, valueAt_congr_at eq]

theorem passes_congr (device : String) : passes via device t' r = passes via device t r := by
  rw [passes, passes, dueParam_congr same eq, readable_congr same eq]

end

/-- The flagged parameters among some slots. -/
def flaggedIn (infos : List SlotInfo) : List Slot :=
  (infos.filter fun info => info.kind = .param && info.devicePlacement).map (·.index)

/-- What is to be moved of the flagged parameters among some slots. -/
def dueParams (device : String) (t : VariableTable) (slots : List Slot) : List Shipment :=
  (visited t slots).flatMap (dueParam device t)

/-- Nothing fails at some flagged parameters. -/
def through (via : Transfer) (device : String) (t : VariableTable) (slots : List Slot) : Bool :=
  (dueParams device t slots).all (·.arrives via) && slots.all (readable t)

section
variable (device : String) (t : VariableTable) (r : Slot) (slots : List Slot)

theorem dueParams_cons : dueParams device t (r :: slots) =
    dueParam device t r ++ if readable t r then dueParams device t slots else [] := by
  unfold dueParams
  rw [visited, List.flatMap_cons]
  split <;> rfl

theorem through_cons : through via device t (r :: slots) =
    (passes via device t r && through via device t slots) := by
  unfold through passes
  rw [dueParams_cons, List.all_append, List.all_cons]
  cases readable t r <;> cases (dueParam device t r).all (·.arrives via) <;> simp

theorem carried_dueParams_cons : carried via (dueParams device t (r :: slots)) =
    carried via (dueParam device t r) ++
      if passes via device t r then carried via (dueParams device t slots) else [] := by
  unfold passes
  rw [dueParams_cons, carried_append]
  cases readable t r <;> cases (dueParam device t r).all (·.arrives via) <;> simp [carried]

end

/-- The flagged parameters are moved one after the other, with what they had when the move began. -/
theorem leads_moveParams (device : String) (numbered : Numbered base.table) :
    ∀ (infos : List SlotInfo) (net : Net), Frame base net → (infos.map (·.index)).Nodup →
      (∀ info ∈ infos, Lists base.table info ∧
        net.table.at? info.index = base.table.at? info.index) →
      Leads (infos.forM fun info => moveParam device info.index) net
        (fun _ net' => through base.transfer device base.table (flaggedIn infos) = true ∧
          Frame base net' ∧ Sends base.transfer
            (carried base.transfer (dueParams device base.table (flaggedIn infos))) net net')
        fun _ net' => through base.transfer device base.table (flaggedIn infos) = false ∧
          Frame base net' ∧ Sends base.transfer
            (carried base.transfer (dueParams device base.table (flaggedIn infos))) net net' := by
  intro infos
  induction infos with
  | nil => exact fun net frame _ _ => ⟨rfl, frame, .refl _ _⟩
  | cons info infos ih =>
    intro net frame nodup known
    obtain ⟨lists, untouched⟩ := known info (by simp)
    obtain ⟨new, nodup⟩ := List.nodup_cons.mp nodup
    have lists' := lists.congr frame.same
    have rest : ∀ net₁, Frame base net₁ → Alone info.index net.table net₁.table →
        ∀ other ∈ infos, Lists base.table other ∧
          net₁.table.at? other.index = base.table.at? other.index := by
      intro net₁ _ alone other mem
      obtain ⟨there, same⟩ := known other (by simp [mem])
      refine ⟨there, (alone.others _ ((frame.same.has _).mpr there.has) ?_).trans same⟩
      exact fun eq => new (List.mem_map.mpr ⟨other, mem, eq⟩)
    rw [leads_forM_cons]
    cases flagged : decide (info.kind = .param) && info.devicePlacement with
    | false =>
      have here : flaggedIn (info :: infos) = flaggedIn infos := by simp [flaggedIn, flagged]
      rw [here]
      refine (leads_moveParam_plain lists' flagged).mono ?_ fun _ _ h => h.elim
      rintro _ net₁ rfl
      exact ih net₁ frame nodup (rest net₁ frame (.refl _))
    | true =>
      obtain ⟨param, placed⟩ := (Bool.and_eq_true _ _).mp flagged
      have here : flaggedIn (info :: infos) = info.index :: flaggedIn infos := by
        simp [flaggedIn, flagged]
      have step := leads_moveParam device lists' (of_decide_eq_true param) placed
      rw [frame.transfer, passes_congr frame.same untouched, dueParam_congr frame.same untouched] at step
      rw [here, through_cons, carried_dueParams_cons]
      refine Leads.mono ((leads_carryParam (c := Net.transfer) (numbered.congr frame.same)
        lists'.has).and step) ?_ ?_
      · rintro _ net₁ ⟨⟨rewritten, alone, -⟩, through, sends⟩
        have frame₁ := frame.trans ⟨rewritten, alone.same⟩
        rw [through, Bool.true_and, if_pos rfl]
        exact (ih net₁ frame₁ nodup (rest net₁ frame₁ alone)).mono
          (fun _ _ h => ⟨h.1, h.2.1, sends.trans h.2.2⟩) fun _ _ h => ⟨h.1, h.2.1, sends.trans h.2.2⟩
      · rintro e net₁ ⟨⟨rewritten, alone, -⟩, stopped, sends⟩
        rw [stopped, Bool.false_and, if_neg Bool.false_ne_true, List.append_nil]
        exact ⟨rfl, frame.trans ⟨rewritten, alone.same⟩, sends⟩

end Net

end Backprop
