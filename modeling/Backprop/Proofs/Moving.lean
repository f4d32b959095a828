import Mathlib
import Backprop.Proofs.Nets
/-!
# Moves that fail

A move transfers the flagged parameters one after the other and writes each result at once, so one that
fails on the way leaves the parameters before that place moved.

* `Net.moveWith` is a move with any transfer, also one whose answers depend on the calls before.
* `Net.leads_carryParam` says what moving one slot leads to, whatever fails.
* `Net.leads_moveWith`: what a move leads to. `Net.Halted` says how far one came that failed, and with
  which transfers it has changed nothing (`Net.Halted.unchanged`).
-/

namespace Backprop

namespace Net

/-! ### Moves with any transfer -/

/-- A transfer that is told of the net, whose journal has all calls of it. -/
abbrev Carrier := Net → Transfer

/-- Calls such a transfer, as the journal records. -/
def carry (c : Carrier) (v : Value) (device : String) : NetM Value := do
  modify fun net =>
    { net with journal := { net.journal with transfers := net.journal.transfers.push (device, v) } }
  ofExcept (c (← get) v device)

/-- Moves a flagged parameter's value and derivative with it. -/
def carryParam (c : Carrier) (device : String) (slot : Slot) : NetM Unit := do
  let v ← onTable (VariableTable.lookup slot)
  if v.info.devicePlacement && v.info.kind = .param then
    if !v.value.isNone then
      let x ← carry c v.value device
      onTable (VariableTable.putValue slot x)
      recordTransfer
    let der ← onTable (VariableTable.getDer v.info.index)
    if !der.isZero then
      let x ← carry c der device
      onTable (VariableTable.setDer v.info.index x)

/-- Moves a net with it. -/
def moveWith (c : Carrier) (label : NodeRef → String) (device : Value) : NetM Unit := do
  if (← get).evaluating then throw .moveWhileEvaluating
  let device := Device.normalize label device
  (List.range (← get).table.size).forM fun k => carryParam c device k
  modify fun net => { net with device, placed := [], backwardReady := false }
  report ("Moved Net to `" ++ device ++ "`.")

/-- Nets are moved with the transfer that they have. -/
theorem move_eq : move = moveWith Net.transfer := rfl

/-! ### What a move keeps -/

/-- Nothing but the table and the records of a net changed. -/
def Rewritten (net net' : Net) : Prop :=
  ∃ table journal profile, net' = { net with table, journal, profile }

/-- Of the table, only one slot changed. -/
structure Alone (r : Slot) (t t' : VariableTable) : Prop where
  same : t.SameSlots t'
  others : ∀ q, t.Has q → q ≠ r → t'.at? q = t.at? q

/-- What became of a value: it was left if it is one to skip, and transferred otherwise. -/
def Sent (c : Carrier) (device : String) (net : Net) (skip : Bool) (v x : Value) : Prop :=
  if skip then x = v else ∃ now, net.Rewritten now ∧ c now v device = .ok x

/-- A slot with its value and derivative moved. Nothing is transferred where there is no value, or no
derivative. -/
structure Moved (c : Carrier) (device : String) (net net' : Net) (r : Slot) : Prop where
  value : Sent c device net (net.table.valueAt r).isNone (net.table.valueAt r) (net'.table.valueAt r)
  der : ∃ d x, net.table.readDer r = .ok d ∧ net'.table.readDer r = .ok x ∧
    Sent c device net d.isZero d x

/-- A slot at which a move stopped: its value can be moved already, its derivative is not. -/
structure Stuck (c : Carrier) (device : String) (net net' : Net) (r : Slot) : Prop where
  value : net'.table.valueAt r = net.table.valueAt r ∨
    Sent c device net (net.table.valueAt r).isNone (net.table.valueAt r) (net'.table.valueAt r)
  der : net'.table.readDer r = net.table.readDer r

/-- The slot of a flagged parameter. -/
def Flagged (t : VariableTable) (r : Slot) : Prop :=
  ∃ v, t.at? r = some v ∧ v.info.devicePlacement = true ∧ v.info.kind = .param

/-- Slots are numbered like their places. -/
def Numbered (t : VariableTable) : Prop := ∀ r v, t.Has r → t.at? r = some v → v.info.index = r

/-- A net in which the flagged parameters before a slot were moved, and nothing else. -/
structure Advanced (c : Carrier) (device : String) (net net' : Net) (k : Nat) : Prop where
  rewritten : net.Rewritten net'
  same : net.table.SameSlots net'.table
  moved : ∀ r, net.table.Has r → Flagged net.table r → r < k → Moved c device net net' r
  kept : ∀ r, net.table.Has r → ¬ Flagged net.table r ∨ k ≤ r → net'.table.at? r = net.table.at? r

/-- A net whose move failed at the flagged parameter in a slot: those before it were moved, and nothing
after it changed. -/
structure Halted (c : Carrier) (device : String) (net net' : Net) (k : Nat) : Prop where
  rewritten : net.Rewritten net'
  same : net.table.SameSlots net'.table
  bound : k < net.table.size
  flagged : Flagged net.table k
  moved : ∀ r, net.table.Has r → Flagged net.table r → r < k → Moved c device net net' r
  stuck : Stuck c device net net' k
  kept : ∀ r, net.table.Has r → ¬ Flagged net.table r ∨ k < r → net'.table.at? r = net.table.at? r

variable {net net' net'' : Net} {c : Carrier} {device : String} {r : Int} {k : Nat}

theorem Rewritten.refl (net : Net) : Rewritten net net := ⟨_, _, _, rfl⟩

theorem Rewritten.trans (h : Rewritten net net') (h' : Rewritten net' net'') : Rewritten net net'' := by
  obtain ⟨_, _, _, rfl⟩ := h
  obtain ⟨table, journal, profile, rfl⟩ := h'
  exact ⟨table, journal, profile, rfl⟩

theorem Alone.refl (t : VariableTable) : Alone r t t := ⟨.refl t, fun _ _ _ => rfl⟩

theorem Alone.trans {t t' t'' : VariableTable} (h : Alone r t t') (h' : Alone r t' t'') :
    Alone r t t'' :=
  ⟨h.same.trans h'.same, fun q hq ne =>
    (h'.others q ((h.same.has q).mpr hq) ne).trans (h.others q hq ne)⟩

theorem Alone.modify {t t' : VariableTable} (h : Alone r t t') (has : t.Has r) {f : Variable → Variable}
    (info : ∀ v, (f v).info = v.info) : Alone r t (t'.modify r f) := by
  have has' : ∀ q, t.Has q → t'.Has q := fun q hq => (h.same.has q).mpr hq
  refine ⟨h.same.trans (VariableTable.sameSlots_modify info), fun q hq ne => ?_⟩
  rw [VariableTable.at?_modify (has' r has) (has' q hq), if_neg ne]
  exact h.others q hq ne

theorem Sent.skipped {skip : Bool} {v : Value} (h : skip = true) : Sent c device net skip v v := by
  unfold Sent
  rw [if_pos h]

theorem Sent.mono {skip : Bool} {v x : Value} (h : Sent c device net' skip v x)
    (rewritten : Rewritten net net') : Sent c device net skip v x := by
  unfold Sent at h ⊢
  split
  next on => rwa [if_pos on] at h
  next off =>
    rw [if_neg off] at h
    obtain ⟨now, later, answer⟩ := h
    exact ⟨now, rewritten.trans later, answer⟩

theorem readDer_congr_at {t t' : VariableTable} (same : t.SameSlots t') (eq : t'.at? r = t.at? r) :
    t'.readDer r = t.readDer r :=
  VariableTable.readDer_congr same.addition (by simp [VariableTable.derAt, eq])
    (by simp [VariableTable.partsAt, eq])

theorem valueAt_congr_at {t t' : VariableTable} (eq : t'.at? r = t.at? r) :
    t'.valueAt r = t.valueAt r := by simp only [VariableTable.valueAt, eq]

/-! ### Moving one slot -/

theorem leads_carry (c : Carrier) (v : Value) (device : String) (net : Net) :
    Leads (carry c v device) net (fun x net' => Recorded net net' ∧ Sent c device net false v x)
      fun _ net' => Recorded net net' := by
  simp only [carry, leads_bind, leads_modify, leads_get, leads_ofExcept]
  split
  next x answer => exact ⟨⟨_, _, rfl⟩, _, ⟨_, _, _, rfl⟩, answer⟩
  next => exact ⟨_, _, rfl⟩

/-- The derivative of a slot is folded, and transferred if there is one. -/
theorem leads_carryDer (has : net.table.Has r) :
    Leads (do
        let der ← onTable (VariableTable.getDer r)
        if !der.isZero then
          let x ← carry c der device
          onTable (VariableTable.setDer r x)) net
      (fun _ net' => Rewritten net net' ∧ Alone r net.table net'.table ∧
        net'.table.valueAt r = net.table.valueAt r ∧
        ∃ d x, net.table.readDer r = .ok d ∧ net'.table.readDer r = .ok x ∧ Sent c device net d.isZero d x)
      fun _ net' => Rewritten net net' ∧ Alone r net.table net'.table ∧
        net'.table.valueAt r = net.table.valueAt r ∧ net'.table.readDer r = net.table.readDer r := by
  have start := Alone.refl (r := r) net.table
  rw [leads_bind, leads_onTable, VariableTable.leads_getDer has]
  cases read : net.table.readDer r with
  | error e => exact ⟨.refl net, start, rfl, rfl⟩
  | ok d =>
    have folded : Alone r net.table (net.table.setDerAt r d) := start.modify has fun _ => rfl
    have value : (net.table.setDerAt r d).valueAt r = net.table.valueAt r :=
      VariableTable.valueAt_setDerAt has has d
    have der : ∀ t x, t.Has r → (VariableTable.setDerAt t r x).readDer r = .ok x := fun t x has => by
      rw [VariableTable.readDer_of_partsAt (by rw [VariableTable.partsAt_setDerAt has has, if_pos rfl]),
        VariableTable.derAt_setDerAt has has, if_pos rfl]
    have has' : (net.table.setDerAt r d).Has r := (folded.same.has r).mpr has
    dsimp only
    split
    next some =>
      rw [leads_bind]
      refine (leads_carry c d device _).mono ?_ ?_
      · rintro x _ ⟨⟨journal, profile, rfl⟩, sent⟩
        rw [leads_onTable, VariableTable.leads_setDer has']
        refine ⟨⟨_, _, _, rfl⟩, folded.modify has fun _ => rfl, ?_, d, x, rfl, der _ x has', ?_⟩
        · exact (VariableTable.valueAt_setDerAt has' has' x).trans value
        · rw [show d.isZero = false by simpa using some]
          exact sent.mono ⟨_, _, _, rfl⟩
      · rintro _ _ ⟨journal, profile, rfl⟩
        exact ⟨⟨_, _, _, rfl⟩, folded, value, der _ d has⟩
    next none =>
      exact ⟨⟨_, _, _, rfl⟩, folded, value, d, d, rfl, der _ d has, .skipped (by simpa using none)⟩

/-- A flagged parameter is moved, unless something fails. -/
theorem leads_carryParam (numbered : Numbered net.table) (has : net.table.Has r) :
    Leads (carryParam c device r) net
      (fun _ net' => Rewritten net net' ∧ Alone r net.table net'.table ∧
        (Flagged net.table r → Moved c device net net' r) ∧
        (¬ Flagged net.table r → net'.table.at? r = net.table.at? r))
      fun _ net' => Rewritten net net' ∧ Alone r net.table net'.table ∧ Flagged net.table r ∧
        Stuck c device net net' r := by
  obtain ⟨v, found⟩ := has.at?
  have value : net.table.valueAt r = v.value := by simp [VariableTable.valueAt, found]
  unfold carryParam
  rw [leads_bind, leads_onTable, VariableTable.leads_lookup found, numbered r v has found]
  split
  next flag =>
    obtain ⟨placed, param⟩ : v.info.devicePlacement = true ∧ v.info.kind = .param := by simpa using flag
    have flagged : Flagged net.table r := ⟨v, found, placed, param⟩
    split
    next some =>
      rw [leads_bind]
      refine (leads_carry c v.value device net).mono ?_ ?_
      · rintro x _ ⟨⟨journal, profile, rfl⟩, sent⟩
        rw [leads_bind, leads_onTable, VariableTable.leads_putValue has, leads_bind, recordTransfer,
          leads_modify]
        have put : Alone r net.table (net.table.setValue r x) := (Alone.refl _).modify has fun _ => rfl
        have der : (net.table.setValue r x).readDer r = net.table.readDer r :=
          VariableTable.readDer_congr put.same.addition (VariableTable.derAt_setValue has has x)
            (VariableTable.partsAt_setValue has has x)
        have moved : Sent c device net (net.table.valueAt r).isNone (net.table.valueAt r)
            ((net.table.setValue r x).valueAt r) := by
          rw [VariableTable.valueAt_setValue has has, if_pos rfl, value,
            show v.value.isNone = false by simpa using some]
          exact sent
        refine (leads_carryDer ((put.same.has r).mpr has)).mono ?_ ?_
        · rintro _ w ⟨rewritten, alone, same, d, y, read, read', sent⟩
          have whole : Rewritten net w := .trans ⟨_, _, _, rfl⟩ rewritten
          refine ⟨whole, put.trans alone, fun _ => ⟨?_, d, y, ?_, read', ?_⟩, absurd flagged⟩
          · rw [same]
            exact moved
          · rw [← der]
            exact read
          · exact sent.mono ⟨_, _, _, rfl⟩
        · rintro _ w ⟨rewritten, alone, same, read⟩
          have whole : Rewritten net w := .trans ⟨_, _, _, rfl⟩ rewritten
          refine ⟨whole, put.trans alone, flagged, .inr ?_, ?_⟩
          · rw [same]
            exact moved
          · rw [read]
            exact der
      · rintro _ _ ⟨journal, profile, rfl⟩
        exact ⟨⟨_, _, _, rfl⟩, .refl _, flagged, .inl rfl, rfl⟩
    next none =>
      have none : (net.table.valueAt r).isNone = true := by
        rw [value]
        simpa using none
      refine (leads_carryDer has).mono ?_ ?_
      · rintro _ w ⟨rewritten, alone, same, der⟩
        refine ⟨rewritten, alone, fun _ => ⟨?_, der⟩, absurd flagged⟩
        rw [same]
        exact .skipped none
      · rintro _ w ⟨rewritten, alone, same, read⟩
        exact ⟨rewritten, alone, flagged, .inl same, read⟩
  next other =>
    have plain : ¬ Flagged net.table r := by
      rintro ⟨w, found', placed, param⟩
      cases found.symm.trans found'
      exact other (by simp [placed, param])
    exact ⟨.refl net, .refl _, fun flagged => absurd flagged plain, fun _ => rfl⟩

/-! ### Moving a net -/

/-- The part of a range before one of its numbers. -/
theorem eq_range_of_split {n k : Nat} {seen rest : List Nat} (split : List.range n = seen ++ k :: rest) :
    seen = List.range k ∧ k < n := by
  have bound : seen.length < n := by
    have length := congrArg List.length split
    simp only [List.length_range, List.length_append, List.length_cons] at length
    omega
  have here : k = seen.length := by
    have at' := congrArg (·[seen.length]?) split
    simpa [List.getElem?_range bound] using at'.symm
  have front := congrArg (List.take seen.length) split
  rw [List.take_range, List.take_left, Nat.min_eq_left bound.le] at front
  exact ⟨by rw [here, front], here ▸ bound⟩

theorem Moved.kept (h : Moved c device net net' r) (same : net'.table.SameSlots net''.table)
    (eq : net''.table.at? r = net'.table.at? r) : Moved c device net net'' r := by
  obtain ⟨value, d, x, read, read', sent⟩ := h
  refine ⟨?_, d, x, read, (readDer_congr_at same eq).trans read', sent⟩
  rw [valueAt_congr_at eq]
  exact value

section
variable (rewritten : Rewritten net net') (same : net.table.SameSlots net'.table)
  (eq : net'.table.at? r = net.table.at? r)
include rewritten same eq

theorem Moved.after (h : Moved c device net' net'' r) : Moved c device net net'' r := by
  obtain ⟨value, d, x, read, read', sent⟩ := h
  rw [readDer_congr_at same eq] at read
  rw [valueAt_congr_at eq] at value
  exact ⟨value.mono rewritten, d, x, read, read', sent.mono rewritten⟩

theorem Stuck.after (h : Stuck c device net' net'' r) : Stuck c device net net'' r := by
  obtain ⟨value, der⟩ := h
  rw [readDer_congr_at same eq] at der
  rw [valueAt_congr_at eq] at value
  exact ⟨value.imp_right fun sent => sent.mono rewritten, der⟩

end

theorem flagged_congr_at {t t' : VariableTable} (eq : t'.at? r = t.at? r) : Flagged t' r ↔ Flagged t r := by
  unfold Flagged
  rw [eq]

theorem Advanced.start (c : Carrier) (device : String) (net : Net) : Advanced c device net net 0 :=
  ⟨.refl net, .refl _, fun r has _ less => absurd has.1 (by omega), fun _ _ _ => rfl⟩

section
variable (h : Advanced c device net net' k) (alone : Alone k net'.table net''.table)
include h alone

/-- What was moved before stays so. -/
theorem Advanced.moved_before (hr : net.table.Has r) (flagged : Flagged net.table r) (less : r < k) :
    Moved c device net net'' r :=
  (h.moved r hr flagged less).kept alone.same
    (alone.others r ((h.same.has r).mpr hr) less.ne)

/-- Nothing else changes. -/
theorem Advanced.kept_beside (hr : net.table.Has r) (ne : r ≠ k) (beside : ¬ Flagged net.table r ∨ k ≤ r) :
    net''.table.at? r = net.table.at? r :=
  (alone.others r ((h.same.has r).mpr hr) ne).trans (h.kept r hr beside)

variable (has : net.table.Has k) (rewritten : Rewritten net' net'')
include has rewritten

/-- After one more slot, one more is moved if it is flagged. -/
theorem Advanced.next (moved : Flagged net'.table k → Moved c device net' net'' k)
    (kept : ¬ Flagged net'.table k → net''.table.at? k = net'.table.at? k) :
    Advanced c device net net'' (k + 1) := by
  have here := h.kept k has (.inr le_rfl)
  have flagged := flagged_congr_at here
  refine ⟨h.rewritten.trans rewritten, h.same.trans alone.same, fun r hr flag less => ?_,
    fun r hr beside => ?_⟩
  · by_cases eq : r = k
    · subst eq
      exact (moved (flagged.mpr flag)).after h.rewritten h.same here
    · exact h.moved_before alone hr flag (by omega)
  · by_cases eq : r = k
    · subst eq
      have plain : ¬ Flagged net.table k := beside.resolve_right (by omega)
      exact (kept (mt flagged.mp plain)).trans here
    · exact h.kept_beside alone hr eq (beside.imp_right fun less => by omega)

/-- If the next slot is not moved, the move stops there. -/
theorem Advanced.halted (flagged : Flagged net'.table k) (stuck : Stuck c device net' net'' k) :
    Halted c device net net'' k := by
  have here := h.kept k has (.inr le_rfl)
  refine ⟨h.rewritten.trans rewritten, h.same.trans alone.same, by have := has.2; omega,
    (flagged_congr_at here).mp flagged, fun r hr flag less => h.moved_before alone hr flag less,
    stuck.after h.rewritten h.same here, fun r hr beside => ?_⟩
  refine h.kept_beside alone hr ?_ (beside.imp_right fun less => by omega)
  rintro rfl
  rcases beside with plain | less
  · exact plain ((flagged_congr_at here).mp flagged)
  · omega

end

theorem Numbered.congr {t t' : VariableTable} (h : Numbered t) (same : t.SameSlots t') : Numbered t' := by
  intro r v has found
  have info := VariableTable.infoAt_sameSlots same r
  obtain ⟨w, found'⟩ := ((same.has r).mp has).at?
  rw [found, found', Option.map_some, Option.map_some, Option.some.injEq] at info
  rw [info]
  exact h r w ((same.has r).mp has) found'

/-- What a move leads to: all that is flagged is moved, or the move stops at one slot. -/
theorem leads_moveWith (numbered : Numbered net.table) (c : Carrier) (label : NodeRef → String)
    (device : Value) (idle : net.evaluating = false) :
    Leads (moveWith c label device) net
      (fun _ net' => ∃ last journal, Advanced c (Device.normalize label device) net last net.table.size ∧
        net' = { last with
          device := Device.normalize label device, placed := [], backwardReady := false, journal })
      fun _ net' => ∃ k, Halted c (Device.normalize label device) net net' k := by
  simp only [moveWith, leads_bind, leads_get, idle, Bool.false_eq_true, if_false]
  have rounds := Leads.forM (l := List.range net.table.size)
    (f := fun k : Nat => carryParam c (Device.normalize label device) k) (s := net)
    (fun seen t => Advanced c (Device.normalize label device) net t seen.length)
    (E := fun _ t => ∃ k, Halted c (Device.normalize label device) net t k)
    (Advanced.start c _ net) fun seen k rest t split advanced => ?_
  · refine rounds.mono (fun _ last advanced => ?_) fun _ _ h => h
    rw [List.length_range] at advanced
    exact ⟨last, _, advanced, rfl⟩
  · obtain ⟨rfl, bound⟩ := eq_range_of_split split
    rw [List.length_range] at advanced
    have has : net.table.Has k := ⟨by omega, by omega⟩
    refine (leads_carryParam (numbered.congr advanced.same) ((advanced.same.has k).mpr has)).mono ?_ ?_
    · rintro _ u ⟨rewritten, alone, moved, kept⟩
      rw [List.length_append, List.length_range, List.length_singleton]
      exact advanced.next alone has rewritten moved kept
    · rintro _ u ⟨rewritten, alone, flagged, stuck⟩
      exact ⟨k, advanced.halted alone has rewritten flagged stuck⟩

/-- The slots of a net are those of the schedule that it runs. -/
theorem Runs.numbered {s : Schedule} (wf : s.WellFormed) (runs : Runs s net) : Numbered net.table := by
  intro r v has found
  have low : 0 ≤ r := has.1
  have place : net.table.entries[r.toNat]? = some v := by
    simpa [VariableTable.at?, has.located] using found
  have info : s.slots[r.toNat]? = some v.info := by
    rw [← runs.infos, List.getElem?_map, Array.getElem?_toList, place, Option.map_some]
  rw [wf.slotIndex _ _ info]
  exact Int.toNat_of_nonneg low

theorem Reached.numbered {ws : Workspace} {terminals : List Value} {options : NetOptions}
    (built : ws.Built) (exist : ∀ n ∈ terminalNodes terminals, ws.Exists n)
    (reached : Reached ws terminals options net) : Numbered net.table := by
  obtain ⟨⟨id, order, marks, sched⟩, runs, -⟩ := reached.spec built exist
  exact runs.numbered sched.wellFormed

/-- A transfer that gives back no more than it got, as one that always fails or has nothing to do. -/
def Inert (c : Carrier) (device : String) (net : Net) : Prop :=
  ∀ now v x, net.Rewritten now → c now v device = .ok x → x = v

theorem Sent.eq_of_inert {skip : Bool} {v x : Value} (h : Sent c device net skip v x)
    (inert : Inert c device net) : x = v := by
  unfold Sent at h
  split at h
  next => exact h
  next =>
    obtain ⟨now, rewritten, answer⟩ := h
    exact inert now v x rewritten answer

/-- With such a transfer, a move that stops has changed no value and no derivative. -/
theorem Halted.unchanged (h : Halted c device net net' k) (inert : Inert c device net)
    (has : net.table.Has r) :
    net'.table.valueAt r = net.table.valueAt r ∧ net'.table.readDer r = net.table.readDer r := by
  by_cases beside : ¬ Flagged net.table r ∨ k < r
  · have eq := h.kept r has beside
    exact ⟨valueAt_congr_at eq, readDer_congr_at h.same eq⟩
  · obtain ⟨flagged, reached⟩ : Flagged net.table r ∧ ¬ (k : Int) < r := by
      rwa [not_or, not_not] at beside
    rcases (not_lt.mp reached).lt_or_eq with before | rfl
    · obtain ⟨value, d, x, read, read', sent⟩ := h.moved r has flagged before
      refine ⟨value.eq_of_inert inert, ?_⟩
      rw [read, read', sent.eq_of_inert inert]
    · exact ⟨h.stuck.value.elim id fun sent => sent.eq_of_inert inert, h.stuck.der⟩

/-- A move that fails leaves the device, the constants that were moved and the readiness for a backward
pass. Unless it is refused because the net is in a pass, it stops at one flagged parameter: those before
it are moved, and it may have a new value itself. So all is as before if the transfers that did not fail
gave back what they got. -/
theorem move_failed {label : NodeRef → String} {place : Value} {e : Error} (numbered : Numbered net.table)
    (run : moveWith c label place net = .error e net') :
    move = moveWith Net.transfer ∧
      (net'.device = net.device ∧ net'.placed = net.placed ∧ net'.backwardReady = net.backwardReady) ∧
      (net.evaluating = true ∧ net' = net ∨
        net.evaluating = false ∧ ∃ k, Halted c (Device.normalize label place) net net' k) ∧
      (Inert c (Device.normalize label place) net → ∀ r, net.table.Has r →
        net'.table.valueAt r = net.table.valueAt r ∧
          net'.table.readDer r = net.table.readDer r) := by
  refine ⟨move_eq, ?_⟩
  cases busy : net.evaluating with
  | true =>
    have refused : Leads (moveWith c label place) net (fun _ _ => False) fun _ net' => net' = net := by
      simp only [moveWith, leads_bind, leads_get, busy, if_true, leads_throw]
    rw [leads_of_error run] at refused
    subst refused
    exact ⟨⟨rfl, rfl, rfl⟩, .inl ⟨rfl, rfl⟩, fun _ _ _ => ⟨rfl, rfl⟩⟩
  | false =>
    obtain ⟨k, halted⟩ := (leads_of_error run).mp (leads_moveWith numbered c label place busy)
    obtain ⟨_, _, _, same⟩ := halted.rewritten
    refine ⟨?_, .inr ⟨rfl, k, halted⟩, fun inert r has => halted.unchanged inert has⟩
    rw [same]
    exact ⟨rfl, rfl, rfl⟩

end Net

/-! ### Two parameters, one of them without a double -/

namespace Sample

open Net

/-- A workspace with one more flagged parameter in its first graph. -/
def flagging (ws : Workspace) (name : String) (value : Value) : Workspace :=
  match (ws.graph 0).param value (some name) (.int 1) (.int 1) "gradient" true with
  | .ok (g, _) => ws.setGraph g
  | .error _ => ws

/-- A graph with two flagged parameters, a number and a dictionary. -/
def flagged : Workspace := flagging (flagging ({} : Workspace).addGraph.1 "p" (.int 1)) "q" (.dict [])

/-- Values are doubled when they are moved, which a dictionary cannot be. -/
def doubling : NetOptions := { options with transfer := some fun v _ => v.mul (.int 2) }

def both : List Value := [.node ⟨0, 0⟩, .node ⟨0, 1⟩]

theorem flagging_built {ws : Workspace} {name : String} {value : Value} (built : ws.Built) :
    (flagging ws name value).Built := by
  unfold flagging
  split
  next call => exact built.param call
  next => exact built

theorem flagged_built : flagged.Built := flagging_built (flagging_built Workspace.Built.empty.addGraph)

theorem both_exist : ∀ n ∈ terminalNodes both, flagged.Exists n := by
  intro n mem
  have two : n = ⟨0, 0⟩ ∨ n = ⟨0, 1⟩ := by
    simpa [terminalNodes, both, spread, nodesIn, Value.node?] using mem
  rcases two with rfl | rfl
  · exact ⟨_, rfl, by decide⟩
  · exact ⟨_, rfl, by decide⟩

end Sample

namespace Net

variable {net net' : Net} {device : String}

/-- The moves of the parameters, one after the other. -/
def moveParams (device : String) : NetM Unit := do
  (List.range (← get).table.size).forM fun k => moveParam device k

/-- A move fails like the moves of the parameters. -/
theorem move_error {label : NodeRef → String} {place : Value} {e : Error} (idle : net.evaluating = false)
    (normal : Device.normalize label place = device) (run : moveParams device net = .error e net') :
    move label place net = .error e net' := by
  have unfolded : Net.move label place = (do
      if (← get).evaluating then throw .moveWhileEvaluating
      moveParams device
      modify fun net => { net with device, placed := [], backwardReady := false }
      Net.report ("Moved Net to `" ++ device ++ "`.")) := by
    rw [← normal]
    rfl
  rw [unfolded]
  simp [bind, EStateM.bind, get, getThe, MonadStateOf.get, EStateM.get, idle, run]

theorem normalize_gpu (label : NodeRef → String) : Device.normalize label (.text "gpu") = "cuda" := by
  cbv

theorem flagged_moves (device : String) :
    Sample.flagged.builds Sample.both Sample.doubling (fun _ net =>
      !net.evaluating && isWhole 1 (net.table.valueAt 0) &&
        net.fails (moveParams device) fun _ net' => isWhole 2 (net'.table.valueAt 0)) = true := by
  cbv

/-- The move stops at the dictionary. -/
theorem move_failed_flagged : ∃ now net net' e,
    Reached Sample.flagged Sample.both Sample.doubling net ∧
      move (Workspace.label now) (.text "gpu") net = .error e net' ∧
      net'.backwardReady = net.backwardReady ∧ ∃ k, Halted Net.transfer "cuda" net net' k := by
  obtain ⟨now, net, reached, check⟩ := Reached.of_builds (flagged_moves "cuda")
  simp only [Bool.and_eq_true, Bool.not_eq_true'] at check
  obtain ⟨⟨idle, -⟩, fails⟩ := check
  obtain ⟨e, net', run, -⟩ := fails_iff.mp fails
  have run := move_error idle (normalize_gpu now.label) run
  have numbered := reached.numbered Sample.flagged_built Sample.both_exist
  have run' : moveWith Net.transfer now.label (.text "gpu") net = .error e net' := run
  obtain ⟨-, ⟨-, -, ready⟩, busy | ⟨-, k, halted⟩, -⟩ := move_failed numbered run'
  · cases idle.symm.trans busy.1
  · rw [normalize_gpu] at halted
    exact ⟨now, net, net', e, reached, run, ready, k, halted⟩

/-- By then the number was doubled, and it stays so. -/
theorem move_halfway : ∃ now net net' e,
    Reached Sample.flagged Sample.both Sample.doubling net ∧
      move (Workspace.label now) (.text "gpu") net = .error e net' ∧
      net.table.valueAt 0 = .int 1 ∧ net'.table.valueAt 0 = .int 2 := by
  obtain ⟨now, net, reached, check⟩ := Reached.of_builds (flagged_moves "cuda")
  simp only [Bool.and_eq_true, Bool.not_eq_true'] at check
  obtain ⟨⟨idle, one⟩, fails⟩ := check
  obtain ⟨e, net', run, two⟩ := fails_iff.mp fails
  have run := move_error idle (normalize_gpu now.label) run
  exact ⟨now, net, net', e, reached, run, eq_of_isWhole one, eq_of_isWhole two⟩

end Net

end Backprop
