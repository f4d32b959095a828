import Backprop.Proofs.Backward
import Backprop.Proofs.History
import Backprop.Proofs.Summation
/-!
# Contributions in any order

Contributions to a derivative may come in any order, and between calls that concern other slots. What
reading it gives is settled by their positions alone.

* `sortParts_perm`, `sortParts_ascending`: reading adds all that waits, in ascending order.
* `Beside`: two tables that differ by what waits for one slot. Calls that concern other slots keep it
  so, whether they fail or not; `Call.beside`.
* `afterCalls_eq`: calls leave what other slots hold as if there had been no contributions.
* `ordered_contributions`: what becomes of the contributions when the derivative is read, added to,
  overwritten, or prepared for the next evaluation.
-/

namespace Backprop

namespace Position

theorem lt_trans {a b c : Position} (h : a.lt b = true) (h' : b.lt c = true) : a.lt c = true := by
  simp only [Position.lt, Bool.or_eq_true, decide_eq_true_eq, Bool.and_eq_true, beq_iff_eq] at *
  omega

theorem lt_of_not_lt {a b : Position} (ne : a ≠ b) (h : ¬ a.lt b = true) : b.lt a = true := by
  obtain ⟨i, j⟩ := a
  obtain ⟨k, l⟩ := b
  have differ : ¬ (i = k ∧ j = l) := by simpa using ne
  simp only [Position.lt, Bool.or_eq_true, decide_eq_true_eq, Bool.and_eq_true, beq_iff_eq] at *
  omega

end Position

namespace VariableTable

/-! ### Sorting what waits -/

/-- Every contribution has a later position than those before it. -/
def Ascending (parts : List (Position × Value)) : Prop :=
  parts.Pairwise fun p q => p.1.lt q.1 = true

theorem insertPart_perm (p : Position × Value) (parts : List (Position × Value)) :
    (insertPart p parts).Perm (p :: parts) := by
  induction parts with
  | nil => rfl
  | cons q parts ih =>
    rw [insertPart]
    split
    · rfl
    · exact (ih.cons q).trans (.swap p q parts)

theorem foldl_insertPart_perm (parts sorted : List (Position × Value)) :
    (parts.foldl (fun sorted p => insertPart p sorted) sorted).Perm (parts ++ sorted) := by
  induction parts generalizing sorted with
  | nil => rfl
  | cons p parts ih =>
    refine (ih (insertPart p sorted)).trans ?_
    exact ((insertPart_perm p sorted).append_left parts).trans List.perm_middle

theorem sortParts_perm (parts : List (Position × Value)) : (sortParts parts).Perm parts := by
  simpa [sortParts] using foldl_insertPart_perm parts []

theorem insertPart_ascending {p : Position × Value} {parts : List (Position × Value)}
    (ascending : Ascending parts) (new : ∀ q ∈ parts, p.1 ≠ q.1) : Ascending (insertPart p parts) := by
  induction parts with
  | nil => exact List.pairwise_singleton _ _
  | cons q parts ih =>
    obtain ⟨first, rest⟩ := List.pairwise_cons.mp ascending
    rw [insertPart]
    split
    next before =>
      refine List.pairwise_cons.mpr ⟨fun x hx => ?_, ascending⟩
      rcases List.mem_cons.mp hx with rfl | hx
      · exact before
      · exact Position.lt_trans before (first x hx)
    next after =>
      refine List.pairwise_cons.mpr ⟨fun x hx => ?_, ih rest fun x hx => new x (by simp [hx])⟩
      rcases List.mem_cons.mp ((insertPart_perm p parts).mem_iff.mp hx) with rfl | hx
      · exact Position.lt_of_not_lt (new q (by simp)) after
      · exact first x hx

theorem sortParts_ascending {parts : List (Position × Value)} (distinct : (parts.map (·.1)).Nodup) :
    Ascending (sortParts parts) := by
  have insert : ∀ (parts sorted : List (Position × Value)), Ascending sorted →
      ((parts ++ sorted).map (·.1)).Nodup →
      Ascending (parts.foldl (fun sorted p => insertPart p sorted) sorted) := by
    intro parts
    induction parts with
    | nil => exact fun _ ascending _ => ascending
    | cons p parts ih =>
      intro sorted ascending distinct
      obtain ⟨new, others⟩ := List.nodup_cons.mp distinct
      refine ih _ (insertPart_ascending ascending fun q hq eq => new ?_) ?_
      · exact List.mem_map.mpr ⟨q, by simp [hq], eq.symm⟩
      · have moved := ((insertPart_perm p sorted).append_left parts).trans List.perm_middle
        exact (moved.map (·.1)).nodup_iff.mpr distinct
  exact insert parts [] .nil (by simpa using distinct)

/-- There is one way to put contributions in ascending order. -/
theorem sortParts_eq {parts ordered : List (Position × Value)} (perm : parts.Perm ordered)
    (ascending : Ascending ordered) : sortParts parts = ordered := by
  have apart : (ordered.map (·.1)).Nodup := by
    refine List.pairwise_map.mpr (ascending.imp fun {p q} before eq => ?_)
    have after := Position.lt_asymm before
    rw [eq] at before after
    exact Bool.false_ne_true (after.symm.trans before)
  have sorted := sortParts_ascending ((perm.map (·.1)).nodup_iff.mpr apart)
  refine List.Perm.eq_of_pairwise (fun p q _ _ before after => ?_) sorted ascending
    ((sortParts_perm parts).trans perm)
  exact absurd after (by simp [Position.lt_asymm before])

/-! ### Calls -/

/-- A call on a table that concerns the derivative of a slot. -/
inductive Call where
  | accumulate (slot : Slot) (der : Value) (position : Option Position)
  | getDer (slot : Slot)
  | setDer (slot : Slot) (der : Value)

namespace Call

def slot : Call → Slot
  | accumulate slot .. | getDer slot | setDer slot _ => slot

def run : Call → TableM Unit
  | accumulate slot der position => VariableTable.accumulate slot der position
  | getDer slot => do let _ ← VariableTable.getDer slot
  | setDer slot der => VariableTable.setDer slot der

/-- Whether a call on a table of `n` slots concerns another slot than `r`. -/
def elsewhere (n : Nat) (r : Slot) (c : Call) : Bool := locate n c.slot != locate n r

/-- What a call makes wait for slot `r` of a table of `n` slots. -/
def part? (n : Nat) (r : Slot) : Call → Option (Position × Value)
  | accumulate slot der (some p) => if locate n slot = locate n r then some (p, der) else none
  | _ => none

/-- Whether a call leaves what waits for slot `r` waiting: either it concerns another slot or it adds to
what waits. -/
def Waits (n : Nat) (r : Slot) : Call → Prop
  | accumulate _ _ (some _) => True
  | c => c.elsewhere n r = true

end Call

/-- The contributions to a slot that calls make wait, in the order of the calls. -/
def contributions (n : Nat) (r : Slot) (calls : List Call) : List (Position × Value) :=
  calls.filterMap (Call.part? n r)

/-- The table after calls. A call that fails leaves what it has done. -/
def afterCalls (t : VariableTable) (calls : List Call) : VariableTable :=
  calls.foldl (fun t c => remains c.run t) t

/-- A slot with a derivative for which nothing waits. -/
structure Holds (t : VariableTable) (r : Slot) (d : Value) : Prop where
  has : t.Has r
  der : t.derAt r = d
  parts : t.partsAt r = []

def addParts (t : VariableTable) (r : Slot) (parts : List (Position × Value)) : VariableTable :=
  t.modify r fun v => { v with parts := v.parts ++ parts }

/-- Tables that differ by what waits for one slot, which holds in the first what it held at the start. -/
structure Beside (start : VariableTable) (r : Slot) (parts : List (Position × Value))
    (t t' : VariableTable) : Prop where
  same : start.SameSlots t
  here : t.at? r = start.at? r
  rest : t' = t.addParts r parts

variable {t t' : VariableTable} {r q : Slot} {parts : List (Position × Value)} {d₀ : Value}
variable {calls : List Call}

theorem sameSlots_addParts (r : Slot) (parts : List (Position × Value)) :
    t.SameSlots (t.addParts r parts) := sameSlots_modify fun _ => rfl

theorem addParts_nil : t.addParts r [] = t := modify_eq_self fun v _ => by rw [List.append_nil]

theorem addParts_addPart (p : Position) (d : Value) :
    (t.addParts r parts).addPart r p d = t.addParts r (parts ++ [(p, d)]) := by
  rw [addParts, addPart, modify_modify, addParts]
  congr 1
  funext v
  simp

theorem at?_modify_elsewhere (ne : locate t.size q ≠ locate t.size r) (f : Variable → Variable) :
    (t.modify q f).at? r = t.at? r := by
  simp only [at?, size_modify]
  cases here : locate t.size r with
  | none => rfl
  | some k =>
    rw [Option.bind_some, Option.bind_some, modify]
    split
    next j there =>
      have apart : j ≠ k := fun eq => ne (by rw [there, here, eq])
      rw [Array.getElem?_modify, if_neg apart]
    next => rfl

theorem modify_comm (ne : locate t.size q ≠ locate t.size r) (f g : Variable → Variable) :
    (t.modify q f).modify r g = (t.modify r g).modify q f := by
  rw [modify.eq_1 (t.modify q f), modify.eq_1 (t.modify r g), size_modify, size_modify]
  cases there : locate t.size q with
  | none => cases here : locate t.size r <;> simp [modify, there, here]
  | some j =>
    cases here : locate t.size r with
    | none => simp [modify, there, here]
    | some k =>
      have apart : j ≠ k := fun eq => ne (by rw [there, here, eq])
      simp only [modify, there, here, VariableTable.mk.injEq, and_true]
      refine Array.ext (by simp) fun i hi hi' => ?_
      simp only [Array.getElem_modify]
      by_cases atJ : j = i <;> by_cases atK : k = i
      · exact absurd (atJ.trans atK.symm) apart
      all_goals simp [atJ, atK]

theorem modify_located (eq : locate t.size q = locate t.size r) (f : Variable → Variable) :
    t.modify q f = t.modify r f := by
  rw [modify, modify, eq]

section
variable {start : VariableTable} {E : Error → Error → Prop}

theorem Beside.located (h : start.Beside r parts t t') (ne : locate start.size q ≠ locate start.size r) :
    locate t.size q ≠ locate t.size r := by rwa [h.same.size]

theorem beside_lookup (ne : locate start.size q ≠ locate start.size r) :
    Agree Eq (start.Beside r parts) (lookup q) (lookup q) (start.Beside r parts)
      (start.Beside r parts) := by
  refine .bind_get fun t t' rel => ?_
  have same : t'.at? q = t.at? q := by
    rw [rel.rest, addParts, at?_modify_elsewhere (rel.located ne).symm]
  rw [same]
  cases t.at? q with
  | none => exact .throw rfl
  | some v => exact .pure v

theorem beside_update (ne : locate start.size q ≠ locate start.size r) {f : Variable → Variable}
    (info : ∀ v, (f v).info = v.info) :
    Agree Eq (start.Beside r parts) (update q f) (update q f) (start.Beside r parts)
      (start.Beside r parts) := by
  refine .bind (beside_lookup ne) fun _ => fun t t' rel => ⟨rfl, ?_⟩
  have apart := rel.located ne
  refine ⟨rel.same.trans (sameSlots_modify info), ?_, ?_⟩
  · exact (at?_modify_elsewhere apart f).trans rel.here
  · rw [rel.rest, addParts, addParts, modify_comm apart]

theorem beside_ofExcept {α : Type} (x : Except Error α) :
    Agree Eq (start.Beside r parts) (ofExcept x) (ofExcept x) (start.Beside r parts)
      (start.Beside r parts) := by
  cases x with
  | ok a => exact .pure a
  | error e => exact .throw rfl

/-- Additions are the same in both tables. -/
theorem beside_addition {α : Type} {f : (Value → Value → Except Error Value) → TableM α}
    (h : ∀ addition, Agree Eq (start.Beside r parts) (f addition) (f addition)
      (start.Beside r parts) (start.Beside r parts)) :
    Agree Eq (start.Beside r parts) (do f (← get).addition) (do f (← get).addition)
      (start.Beside r parts) (start.Beside r parts) := by
  refine .bind_get fun t t' rel => ?_
  have same : t'.addition = t.addition := by
    rw [rel.rest]
    exact (sameSlots_addParts r parts).addition
  rw [same]
  exact h t.addition

theorem beside_getDer (ne : locate start.size q ≠ locate start.size r) :
    Agree Eq (start.Beside r parts) (getDer q) (getDer q) (start.Beside r parts)
      (start.Beside r parts) := by
  refine .bind (beside_lookup ne) fun v => .ite (fun _ => .pure _) fun _ => ?_
  refine beside_addition (f := fun addition => do
    let total ← ofExcept (folded addition v)
    update q fun v => { v with der := total, parts := [] }
    return total) fun addition => ?_
  exact .bind (beside_ofExcept _) fun total =>
    .bind (beside_update ne fun _ => rfl) fun _ => .pure total

/-- A call that concerns another slot does the same in both tables. -/
theorem Call.beside {c : Call} (ne : locate start.size c.slot ≠ locate start.size r) :
    Agree Eq (start.Beside r parts) c.run c.run (start.Beside r parts) (start.Beside r parts) := by
  cases c with
  | accumulate q der position =>
    cases position with
    | some p => exact beside_update ne fun _ => rfl
    | none =>
      refine .bind (beside_getDer ne) fun total => ?_
      refine beside_addition (f := fun addition => do
        let total ← ofExcept (accumulated addition total der)
        update q fun v => { v with der := total }) fun addition => ?_
      exact .bind (beside_ofExcept _) fun total => beside_update ne fun _ => rfl
  | getDer q => exact .bind (beside_getDer ne) fun _ => .pure _
  | setDer q der => exact beside_update ne fun _ => rfl

end

/-! ### Runs of calls -/

theorem remains_update (f : Variable → Variable) : remains (update q f) t = t.modify q f := by
  cases there : t.at? q with
  | some v => simp [remains, update, lookup, there, bind, EStateM.bind, get, getThe, MonadStateOf.get,
      EStateM.get, pure, EStateM.pure, modifyGet, MonadStateOf.modifyGet, EStateM.modifyGet]
  | none =>
    have nothing : t.modify q f = t := modify_eq_self fun v found => by simp [there] at found
    simp [remains, update, lookup, there, bind, EStateM.bind, get, getThe, MonadStateOf.get,
      EStateM.get, throw, throwThe, MonadExceptOf.throw, EStateM.throw, nothing]

theorem Beside.remains_call {start : VariableTable} (h : start.Beside r parts t t') {c : Call}
    (ne : locate start.size c.slot ≠ locate start.size r) :
    start.Beside r parts (remains c.run t) (remains c.run t') := by
  have both := Call.beside ne t t' h
  unfold remains
  cases x : c.run t <;> cases y : c.run t' <;> rw [x, y] at both
  · exact both.2
  · exact both.elim
  · exact both.elim
  · exact both.2

/-- A contribution waits with the others. -/
theorem Beside.remains_contribution {start : VariableTable} (h : start.Beside r parts t t') {q : Slot}
    (eq : locate start.size q = locate start.size r) (p : Position) (der : Value) :
    start.Beside r (parts ++ [(p, der)]) t (remains (Call.accumulate q der (some p)).run t') := by
  have size : t'.size = start.size := by
    rw [h.rest, (sameSlots_addParts r parts).size, h.same.size]
  refine ⟨h.same, h.here, ?_⟩
  rw [← addParts_addPart, ← h.rest]
  exact (remains_update _).trans (modify_located (by rwa [size]) _)

/-- Calls that leave what waits for a slot waiting do the same elsewhere as without the contributions to
it, and these wait in the order of the calls. -/
theorem Beside.after {start : VariableTable} (h : start.Beside r parts t t')
    (waits : ∀ c ∈ calls, c.Waits start.size r) :
    start.Beside r (parts ++ contributions start.size r calls)
      (t.afterCalls (calls.filter (Call.elsewhere start.size r))) (t'.afterCalls calls) := by
  -- Along the calls. A contribution is not made to `t`, and any other call is made to both tables.
  induction calls generalizing t t' parts with
  | nil => simpa [contributions, afterCalls] using h
  | cons c calls ih =>
    have later := fun c hc => waits c (List.mem_cons_of_mem _ hc)
    by_cases other : c.elsewhere start.size r = true
    · have ne : locate start.size c.slot ≠ locate start.size r := by
        simpa [Call.elsewhere] using other
      have nothing : c.part? start.size r = none := by
        cases c with
        | accumulate q der position =>
          cases position with
          | some p => exact if_neg ne
          | none => rfl
        | getDer q => rfl
        | setDer q der => rfl
      rw [List.filter_cons_of_pos other, contributions, List.filterMap_cons_none nothing]
      exact ih (h.remains_call ne) later
    · match c, waits c (by simp) with
      | .accumulate q der (some p), _ =>
        have eq : locate start.size q = locate start.size r := by
          simpa [Call.elsewhere, Call.slot] using other
        have part : (Call.accumulate q der (some p)).part? start.size r = some (p, der) := if_pos eq
        rw [List.filter_cons_of_neg other, contributions, List.filterMap_cons_some part]
        simpa [contributions, afterCalls] using ih (h.remains_contribution eq p der) later
      | .accumulate q der none, here => exact absurd here other
      | .getDer q, here => exact absurd here other
      | .setDer q der, here => exact absurd here other

/-! ### What becomes of what waits -/

theorem getDer_of_readDer {d : Value} (h : t.Has r) (read : t.readDer r = .ok d) :
    getDer r t = .ok d (t.setDerAt r d) := by
  have run := (leads_getDer h).mp (leads_self (getDer r) t)
  rwa [read] at run

theorem getDer_of_error {e : Error} (h : t.Has r) (read : t.readDer r = .error e) :
    getDer r t = .error e t := by
  have run := (leads_getDer h).mp (leads_self (getDer r) t)
  rwa [read] at run

theorem outcome_getDer (h : t.Has r) : outcome (getDer r) t = t.readDer r := by
  apply outcome_of_leads
  rw [leads_getDer h]
  cases t.readDer r <;> rfl

theorem setDer_eq (h : t.Has r) (d : Value) : setDer r d t = .ok ⟨⟩ (t.setDerAt r d) :=
  (leads_setDer h d).mp (leads_self _ t)

theorem Holds.setDerAt (h : t.Has r) (d : Value) : (t.setDerAt r d).Holds r d where
  has := ((sameSlots_setDerAt d).has r).mpr h
  der := by rw [derAt_setDerAt h h, if_pos rfl]
  parts := by rw [partsAt_setDerAt h h, if_pos rfl]

theorem Holds.readDer {d : Value} (h : t.Holds r d) : t.readDer r = .ok d := by
  rw [readDer_of_partsAt h.parts, h.der]

theorem setDerAt_setDerAt (d d' : Value) : (t.setDerAt r d).setDerAt r d' = t.setDerAt r d' := by
  rw [VariableTable.setDerAt, VariableTable.setDerAt, modify_modify, VariableTable.setDerAt]
  rfl

/-- Reading a derivative twice is reading it once. -/
theorem getDer_getDer (h : t.Has r) : (do let _ ← getDer r; getDer r) t = getDer r t := by
  cases read : t.readDer r with
  | error e => simp only [bind, EStateM.bind, getDer_of_error h read]
  | ok d =>
    have held := Holds.setDerAt h d
    have once := getDer_of_readDer h read
    have twice := getDer_of_readDer held.has held.readDer
    simp only [bind, EStateM.bind, once, twice, setDerAt_setDerAt]

/-- So reading it before something is added to it makes no difference. -/
theorem getDer_accumulate (h : t.Has r) (d : Value) :
    (do let _ ← getDer r; accumulate r d none) t = accumulate r d none t := by
  have twice := getDer_getDer h
  simp only [accumulate, bind, EStateM.bind] at twice ⊢
  cases once : getDer r t with
  | error e u => rfl
  | ok x u =>
    rw [once] at twice
    dsimp only at twice ⊢
    rw [twice]

theorem outcome_accumulate (h : t.Has r) (d : Value) :
    outcome (do accumulate r d none; getDer r) t =
      (t.readDer r).bind fun total => accumulated t.addition total d := by
  apply outcome_of_leads
  rw [leads_bind, leads_accumulate h]
  cases t.readDer r with
  | error e => rfl
  | ok x =>
    dsimp only [Except.bind]
    cases sum : accumulated t.addition x d with
    | error e => rfl
    | ok y =>
      have held := Holds.setDerAt h y
      dsimp only
      rw [leads_getDer held.has, held.readDer]

/-! ### Preparing for an evaluation -/

/-- Whether the derivatives that are kept can be read. -/
def KeptReadable (t : VariableTable) (keep : Bool) : Prop :=
  keep = true → ∀ s, t.Has s → t.persistentAt s = true → ∃ d, outcome (getDer s) t = .ok d

theorem KeptReadable.startDer {keep : Bool} (h : t.KeptReadable keep) {s : Slot} (has : t.Has s) :
    ∃ d, t.startDer keep s = .ok d := by
  rw [VariableTable.startDer]
  split
  next both =>
    obtain ⟨persistent, kept⟩ := by simpa using both
    rw [← outcome_getDer has]
    exact h kept s has persistent
  next => exact ⟨_, rfl⟩

theorem reset_of_startDer {keep : Bool} {t : VariableTable}
    (starts : ∀ s, t.Has s → ∃ d, t.startDer keep s = .ok d) :
    ∃ u, reset keep t = .ok ⟨⟩ u ∧ t.SameSlots u ∧ ∀ s, t.Has s → t.Fresh u keep s := by
  have run := (leads_self (reset keep) t).and (leads_reset keep)
  unfold Leads at run
  cases ran : reset keep t with
  | ok a u =>
    rw [ran] at run
    exact ⟨u, rfl, run.2⟩
  | error e u =>
    rw [ran] at run
    obtain ⟨s, has, failed⟩ := run.2
    obtain ⟨d, start⟩ := starts s has
    cases start.symm.trans failed

/-- What a reset makes of a table is settled by the values and by what the derivatives start with. -/
theorem reset_eq_of_startDer {keep : Bool} {u : VariableTable} (same : t.SameSlots t')
    (values : ∀ s, t.Has s → t'.valueAt s = t.valueAt s)
    (starts : ∀ s, t.Has s → t'.startDer keep s = t.startDer keep s)
    (run : reset keep t' = .ok ⟨⟩ u) : reset keep t = .ok ⟨⟩ u := by
  obtain ⟨same', fresh'⟩ := (leads_of_ok run).mp (leads_reset (t := t') keep)
  have has' := fun s hs => (same.has s).mpr hs
  have defined : ∀ s, t.Has s → ∃ d, t.startDer keep s = .ok d := fun s hs =>
    ⟨_, (starts s hs).symm.trans (fresh' s (has' s hs)).der⟩
  obtain ⟨w, run', again, fresh⟩ := reset_of_startDer defined
  have persistent := persistentAt_sameSlots same
  have infos : u.entries.map (·.info) = w.entries.map (·.info) := by
    rw [same'.infos, same.infos, again.infos]
  have addition : u.addition = w.addition := by
    rw [same'.addition, same.addition, again.addition]
  have eq : u = w := by
    refine eq_of_slots ⟨infos, addition⟩ (fun s hs => ?_) (fun s hs => ?_) fun s hs => ?_ <;>
      have has := (again.has s).mp hs
    · rw [(fresh' s (has' s has)).value, (fresh s has).value, persistent, values s has]
    · have both := (starts s has).symm.trans (fresh' s (has' s has)).der
      exact Except.ok.inj (both.symm.trans (fresh s has).der)
    · rw [(fresh' s (has' s has)).parts, (fresh s has).parts]
  rw [run', eq]

/-! ### Contributions with positions -/

namespace Beside

variable {start : VariableTable}

theorem at?_eq (h : start.Beside r parts t t') (has : start.Has r) {s : Slot} (hs : start.Has s) :
    t'.at? s = if s = r then (t.at? r).map (fun v => { v with parts := v.parts ++ parts })
      else t.at? s := by
  rw [h.rest, addParts, at?_modify ((h.same.has r).mpr has) ((h.same.has s).mpr hs)]

theorem holds (h : start.Beside r parts t t') (held : start.Holds r d₀) : t.Holds r d₀ where
  has := (h.same.has r).mpr held.has
  der := by rw [derAt, h.here, ← derAt, held.der]
  parts := by rw [partsAt, h.here, ← partsAt, held.parts]

theorem sameSlots (h : start.Beside r parts t t') : t.SameSlots t' :=
  h.rest ▸ sameSlots_addParts r parts

theorem readDer (h : start.Beside r parts t t') (held : start.Holds r d₀) :
    t'.readDer r = (inOrder parts).foldlM (accumulated start.addition) d₀ := by
  obtain ⟨v, found⟩ := (h.holds held).has.at?
  have here := h.at?_eq held.has held.has
  rw [if_pos rfl, found, Option.map_some] at here
  have der : v.der = d₀ := by simpa [derAt, found] using (h.holds held).der
  have none : v.parts = [] := by simpa [partsAt, found] using (h.holds held).parts
  have addition : t'.addition = start.addition := by rw [h.sameSlots.addition, h.same.addition]
  rw [readDer_eq, addition, derAt, partsAt, here]
  simp [der, none]

/-- Overwriting a derivative drops what waits for it. -/
theorem setDer (h : start.Beside r parts t t') (has : start.Has r) (d : Value) :
    VariableTable.setDer r d t' = VariableTable.setDer r d t := by
  have there := (h.same.has r).mpr has
  rw [setDer_eq there, setDer_eq ((h.sameSlots.has r).mpr there), h.rest, addParts,
    VariableTable.setDerAt, VariableTable.setDerAt, modify_modify]
  rfl

/-- So does a reset that does not keep it. -/
theorem reset (h : start.Beside r parts t t') (has : start.Has r) {keep : Bool}
    (dropped : (t'.persistentAt r && keep) = false) {u : VariableTable}
    (run : VariableTable.reset keep t' = .ok ⟨⟩ u) : VariableTable.reset keep t = .ok ⟨⟩ u := by
  have there := (h.same.has r).mpr has
  have elsewhere : ∀ {s}, t.Has s → s ≠ r → t'.at? s = t.at? s := fun {s} hs ne => by
    rw [h.at?_eq has ((h.same.has s).mp hs), if_neg ne]
  have persistent := persistentAt_sameSlots h.sameSlots
  refine reset_eq_of_startDer h.sameSlots (fun s hs => ?_) (fun s hs => ?_) run
  · by_cases eq : s = r
    · obtain ⟨v, found⟩ := there.at?
      rw [eq, valueAt, valueAt, h.at?_eq has has, if_pos rfl, found]
      rfl
    · rw [valueAt, valueAt, elsewhere hs eq]
  · by_cases eq : s = r
    · rw [eq, startDer, startDer, ← persistent, dropped]
      rfl
    · have at' := elsewhere hs eq
      have read : t'.readDer s = t.readDer s := readDer_congr h.sameSlots.addition
        (by rw [derAt, derAt, at']) (by rw [partsAt, partsAt, at'])
      rw [startDer, startDer, persistent, read]

end Beside

/-- What contributions to a slot come to, `idle` being the table as it is without them and `d₀` the
derivative that they are added to. -/
structure Collected (t idle : VariableTable) (r : Slot) (addition : Value → Value → Except Error Value)
    (d₀ : Value) (ordered : List Value) : Prop where
  /-- The derivative is the sum in the order given. -/
  read : outcome (getDer r) t = ordered.foldlM (accumulated addition) d₀
  /-- Reading it again gives the same and changes nothing. -/
  again : (do let _ ← getDer r; getDer r) t = getDer r t
  /-- A contribution without a position is added after all of them, -/
  last : ∀ d, outcome (do accumulate r d none; getDer r) t =
    (ordered ++ [d]).foldlM (accumulated addition) d₀
  /-- whether the derivative has been read or not. -/
  lastRead : ∀ d, (do let _ ← getDer r; accumulate r d none) t = accumulate r d none t
  /-- Overwriting the derivative leaves the table that it leaves without the contributions, -/
  overwritten : ∀ d, ∃ u, setDer r d t = .ok ⟨⟩ u ∧ setDer r d idle = .ok ⟨⟩ u ∧ u.Holds r d
  /-- so does giving it up, -/
  released : ∃ u, releaseDer r t = .ok ⟨⟩ u ∧ releaseDer r idle = .ok ⟨⟩ u ∧ u.Holds r (.int 0)
  /-- and so does a reset that does not keep it. -/
  dropped : ∀ keep, (t.persistentAt r && keep) = false → t.KeptReadable keep →
    ∃ u, reset keep t = .ok ⟨⟩ u ∧ reset keep idle = .ok ⟨⟩ u ∧ u.Holds r (.int 0)
  /-- A reset that keeps it leaves the sum. -/
  kept : t.persistentAt r = true → t.KeptReadable true →
    ∃ u d, reset true t = .ok ⟨⟩ u ∧ ordered.foldlM (accumulated addition) d₀ = .ok d ∧ u.Holds r d

theorem Beside.collected {start : VariableTable} (h : start.Beside r parts t t')
    (held : start.Holds r d₀) : t'.Collected t r start.addition d₀ (inOrder parts) := by
  have here := (h.same.has r).mpr held.has
  have there := (h.sameSlots.has r).mpr here
  have addition : t'.addition = start.addition := by rw [h.sameSlots.addition, h.same.addition]
  have overwritten : ∀ d, ∃ u, VariableTable.setDer r d t' = .ok ⟨⟩ u ∧
      VariableTable.setDer r d t = .ok ⟨⟩ u ∧ u.Holds r d := fun d =>
    ⟨t'.setDerAt r d, setDer_eq there d, h.setDer held.has d ▸ setDer_eq there d, .setDerAt there d⟩
  have resets : ∀ keep, t'.KeptReadable keep → ∃ u d, VariableTable.reset keep t' = .ok ⟨⟩ u ∧
      t'.startDer keep r = .ok d ∧ u.Holds r d := fun keep readable => by
    obtain ⟨u, run, same, fresh⟩ := reset_of_startDer fun s hs => readable.startDer hs
    have at' := fresh r there
    exact ⟨u, _, run, at'.der, (same.has r).mpr there, rfl, at'.parts⟩
  refine ⟨?_, getDer_getDer there, fun d => ?_, getDer_accumulate there, overwritten, overwritten _,
    fun keep dropped readable => ?_, fun persistent readable => ?_⟩
  · rw [outcome_getDer there, h.readDer held]
  · rw [outcome_accumulate there, h.readDer held, addition, List.foldlM_append]
    simp only [List.foldlM_cons, List.foldlM_nil, bind_pure]
    rfl
  · obtain ⟨u, d, run, first, holds⟩ := resets keep readable
    rw [startDer, dropped] at first
    cases first
    exact ⟨u, run, h.reset held.has dropped run, holds⟩
  · obtain ⟨u, d, run, first, holds⟩ := resets true readable
    rw [startDer, persistent, Bool.and_self, if_pos rfl, h.readDer held] at first
    exact ⟨u, d, run, first, holds⟩

/-- Calls that make contributions with different positions wait for a slot, and otherwise concern other
slots, lead to the sum of the contributions in ascending order. It is the same for every order of the
calls and for any addition. -/
theorem ordered_contributions (held : t.Holds r d₀)
    (distinct : ((contributions t.size r calls).map (·.1)).Nodup) :
    ∃ ordered, ordered.Perm (contributions t.size r calls) ∧ Ascending ordered ∧
      ∀ calls', (∀ c ∈ calls', c.Waits t.size r) → (contributions t.size r calls').Perm ordered →
        (t.afterCalls calls').Collected
          (t.afterCalls (calls'.filter (Call.elsewhere t.size r))) r t.addition d₀
          (ordered.map (·.2)) := by
  refine ⟨sortParts (contributions t.size r calls), sortParts_perm _, sortParts_ascending distinct,
    fun calls' waits' perm => ?_⟩
  have beside : t.Beside r [] t t := ⟨.refl t, rfl, addParts_nil.symm⟩
  have collected := (beside.after waits').collected held
  rwa [inOrder, List.nil_append, sortParts_eq perm (sortParts_ascending distinct)] at collected

/-- A table of two slots whose addition counts what it has twice. -/
def lopsided : VariableTable where
  entries := #[{ info := { index := 0, name := "w", handle := 0, kind := .param }, der := .int 1 },
    { info := { index := 1, name := "x", handle := 1, kind := .input } }]
  addition
    | .int a, .int b => .ok (.int (2 * a + b))
    | _, _ => .error .outOfRange

/-- Two contributions that come in the wrong order, with a call for the other slot between them. -/
def lopsidedCalls : List Call :=
  [.accumulate 0 (.int 5) (some ⟨3, 0⟩), .accumulate 1 (.int 9) none,
    .accumulate 0 (.int 7) (some ⟨1, 0⟩)]

theorem lopsided_holds : lopsided.Holds 0 (.int 1) := ⟨⟨by decide, by decide⟩, rfl, rfl⟩

theorem ordered_contributions_lopsided :
    lopsided.Holds 0 (.int 1) ∧ ((contributions lopsided.size 0 lopsidedCalls).map (·.1)).Nodup ∧
    ∃ ordered, ordered.Perm (contributions lopsided.size 0 lopsidedCalls) ∧ Ascending ordered ∧
      ∀ calls', (∀ c ∈ calls', c.Waits lopsided.size 0) →
        (contributions lopsided.size 0 calls').Perm ordered →
        (lopsided.afterCalls calls').Collected
          (lopsided.afterCalls (calls'.filter (Call.elsewhere lopsided.size 0))) 0 lopsided.addition
          (.int 1) (ordered.map (·.2)) :=
  ⟨lopsided_holds, by decide, ordered_contributions lopsided_holds (by decide)⟩

example : outcome (getDer 0) (lopsided.afterCalls lopsidedCalls) = .ok (.int (2 * (2 * 1 + 7) + 5)) :=
  rfl

end VariableTable

end Backprop
