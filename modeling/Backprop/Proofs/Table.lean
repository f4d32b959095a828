import Backprop.Proofs.Outcome
/-!
# The variable table, slot by slot

Each operation of the table changes one slot and leaves the description of every slot alone.

* `valueAt`, `derAt`, `partsAt` are what a slot holds; `readDer` is the derivative that reading it
  would give.
* For each operation one lemma says what it leads to, in terms of `setValue`, `setDer`, `addPart`.
* `leads_reset` says what a slot holds after the table was prepared for an evaluation.
-/

namespace Backprop

theorem locate_nat {n k : Nat} (h : k < n) : locate n (k : Int) = some k := by
  simp [locate, h]

theorem toNat_eq_iff {a b : Int} (ha : 0 ≤ a) (hb : 0 ≤ b) : a.toNat = b.toNat ↔ b = a := by omega

namespace VariableTable

/-- Whether a slot is one of the table's. -/
def Has (t : VariableTable) (s : Int) : Prop := 0 ≤ s ∧ s < t.size

def valueAt (t : VariableTable) (s : Slot) : Value := ((t.at? s).map (·.value)).getD .none

def derAt (t : VariableTable) (s : Slot) : Value := ((t.at? s).map (·.der)).getD (.int 0)

def partsAt (t : VariableTable) (s : Slot) : List (Position × Value) :=
  ((t.at? s).map (·.parts)).getD []

def persistentAt (t : VariableTable) (s : Slot) : Bool :=
  ((t.at? s).map (·.info.persistent)).getD false

/-- The derivative of a slot with what waits for it. -/
def readDer (t : VariableTable) (s : Slot) : Except Error Value :=
  (sortParts (t.partsAt s)).foldlM (fun total p => accumulated t.addition total p.2) (t.derAt s)

def setValue (t : VariableTable) (s : Slot) (x : Value) : VariableTable :=
  t.modify s fun v => { v with value := x }

def setDerAt (t : VariableTable) (s : Slot) (d : Value) : VariableTable :=
  t.modify s fun v => { v with der := d, parts := [] }

def addPart (t : VariableTable) (s : Slot) (p : Position) (d : Value) : VariableTable :=
  t.modify s fun v => { v with parts := v.parts ++ [(p, d)] }

/-- Two tables of the same slots with the same addition. -/
structure SameSlots (t t' : VariableTable) : Prop where
  infos : t'.entries.map (·.info) = t.entries.map (·.info)
  addition : t'.addition = t.addition

namespace SameSlots

theorem refl (t : VariableTable) : t.SameSlots t := ⟨rfl, rfl⟩

theorem trans {t t' t'' : VariableTable} (h : t.SameSlots t') (h' : t'.SameSlots t'') :
    t.SameSlots t'' := ⟨h'.infos.trans h.infos, h'.addition.trans h.addition⟩

theorem size {t t' : VariableTable} (h : t.SameSlots t') : t'.size = t.size := by
  simpa [VariableTable.size] using congrArg Array.size h.infos

theorem has {t t' : VariableTable} (h : t.SameSlots t') (s : Slot) : t'.Has s ↔ t.Has s := by
  simp only [Has, h.size]

end SameSlots

variable {t : VariableTable} {s r : Slot}

theorem Has.at? (h : t.Has s) : ∃ v, t.at? s = some v := by
  obtain ⟨low, high⟩ := h
  have bound : s.toNat < t.entries.size := by simp only [size] at high; omega
  refine ⟨t.entries[s.toNat], ?_⟩
  simp [VariableTable.at?, locate, low, size, bound]

theorem Has.located (h : t.Has s) : locate t.size s = some s.toNat := by
  obtain ⟨low, high⟩ := h
  have bound : s.toNat < t.size := by omega
  simp [locate, low, bound]

theorem infoAt_sameSlots {t' : VariableTable} (h : t.SameSlots t') (s : Slot) :
    (t'.at? s).map (·.info) = (t.at? s).map (·.info) := by
  simp only [at?, h.size]
  cases locate t.size s with
  | none => rfl
  | some k =>
    have look := congrArg (fun a : Array SlotInfo => a[k]?) h.infos
    simpa only [Array.getElem?_map, Option.bind_some] using look

theorem persistentAt_sameSlots {t' : VariableTable} (h : t.SameSlots t') (s : Slot) :
    t'.persistentAt s = t.persistentAt s := by
  have info := congrArg (fun o : Option SlotInfo => (o.map (·.persistent)).getD false)
    (infoAt_sameSlots h s)
  simpa [persistentAt, Option.map_map, Function.comp_def] using info

/-! ### Changing one slot -/

theorem size_modify (f : Variable → Variable) : (t.modify s f).size = t.size := by
  unfold modify
  split <;> simp [size]

theorem sameSlots_modify {f : Variable → Variable} (h : ∀ v, (f v).info = v.info) :
    t.SameSlots (t.modify s f) := by
  unfold modify
  split
  next k _ =>
    refine ⟨Array.ext (by simp) fun j hj hj' => ?_, rfl⟩
    simp only [Array.getElem_map, Array.getElem_modify]
    split
    · exact h _
    · rfl
  next => exact .refl t

theorem at?_modify (hs : t.Has s) (hr : t.Has r) (f : Variable → Variable) :
    (t.modify s f).at? r = if r = s then (t.at? s).map f else t.at? r := by
  have same : s.toNat = r.toNat ↔ r = s := toNat_eq_iff hs.1 hr.1
  have entries : (t.modify s f).entries = t.entries.modify s.toNat f := by
    simp only [modify, hs.located]
  simp only [at?, size_modify, hr.located, hs.located, entries, Option.bind_some,
    Array.getElem?_modify, same]
  split
  next eq => simp [eq]
  next => rfl

/-- A change that leaves what a slot holds as it was changes nothing. -/
theorem modify_eq_self {f : Variable → Variable} (h : ∀ v, t.at? s = some v → f v = v) :
    t.modify s f = t := by
  unfold modify
  split
  next k found =>
    have entries : t.entries.modify k f = t.entries := by
      refine Array.ext (by simp) fun j hj hj' => ?_
      rw [Array.getElem_modify]
      split
      next eq =>
        subst eq
        exact h _ (by simp [at?, found, hj'])
      next => rfl
    rw [entries]
  next => rfl

theorem modify_modify (f g : Variable → Variable) :
    (t.modify s f).modify s g = t.modify s (g ∘ f) := by
  cases found : locate t.size s with
  | none => simp [modify, found]
  | some k =>
    have found' : locate (t.modify s f).size s = some k := by rw [size_modify, found]
    have entries : (t.modify s f).entries = t.entries.modify k f := by simp only [modify, found]
    have addition : (t.modify s f).addition = t.addition := by simp only [modify, found]
    rw [modify.eq_1 (t.modify s f), modify.eq_1 t s (g ∘ f)]
    simp only [found, found', entries, addition, VariableTable.mk.injEq, and_true]
    refine Array.ext (by simp) fun j hj hj' => ?_
    simp only [Array.getElem_modify]
    split <;> rfl

theorem sameSlots_setValue (x : Value) : t.SameSlots (t.setValue s x) := sameSlots_modify fun _ => rfl

theorem sameSlots_setDerAt (d : Value) : t.SameSlots (t.setDerAt s d) := sameSlots_modify fun _ => rfl

theorem sameSlots_addPart (p : Position) (d : Value) : t.SameSlots (t.addPart s p d) :=
  sameSlots_modify fun _ => rfl

theorem valueAt_setValue (hs : t.Has s) (hr : t.Has r) (x : Value) :
    (t.setValue s x).valueAt r = if r = s then x else t.valueAt r := by
  obtain ⟨v, hv⟩ := hs.at?
  simp only [valueAt, setValue, at?_modify hs hr]
  split <;> simp [hv]

theorem derAt_setValue (hs : t.Has s) (hr : t.Has r) (x : Value) :
    (t.setValue s x).derAt r = t.derAt r := by
  obtain ⟨v, hv⟩ := hs.at?
  simp only [derAt, setValue, at?_modify hs hr]
  split
  next eq => simp [eq, hv]
  next => rfl

theorem partsAt_setValue (hs : t.Has s) (hr : t.Has r) (x : Value) :
    (t.setValue s x).partsAt r = t.partsAt r := by
  obtain ⟨v, hv⟩ := hs.at?
  simp only [partsAt, setValue, at?_modify hs hr]
  split
  next eq => simp [eq, hv]
  next => rfl

theorem valueAt_setDerAt (hs : t.Has s) (hr : t.Has r) (d : Value) :
    (t.setDerAt s d).valueAt r = t.valueAt r := by
  obtain ⟨v, hv⟩ := hs.at?
  simp only [valueAt, setDerAt, at?_modify hs hr]
  split
  next eq => simp [eq, hv]
  next => rfl

theorem derAt_setDerAt (hs : t.Has s) (hr : t.Has r) (d : Value) :
    (t.setDerAt s d).derAt r = if r = s then d else t.derAt r := by
  obtain ⟨v, hv⟩ := hs.at?
  simp only [derAt, setDerAt, at?_modify hs hr]
  split <;> simp [hv]

theorem partsAt_setDerAt (hs : t.Has s) (hr : t.Has r) (d : Value) :
    (t.setDerAt s d).partsAt r = if r = s then [] else t.partsAt r := by
  obtain ⟨v, hv⟩ := hs.at?
  simp only [partsAt, setDerAt, at?_modify hs hr]
  split <;> simp [hv]

theorem valueAt_addPart (hs : t.Has s) (hr : t.Has r) (p : Position) (d : Value) :
    (t.addPart s p d).valueAt r = t.valueAt r := by
  obtain ⟨v, hv⟩ := hs.at?
  simp only [valueAt, addPart, at?_modify hs hr]
  split
  next eq => simp [eq, hv]
  next => rfl

theorem derAt_addPart (hs : t.Has s) (hr : t.Has r) (p : Position) (d : Value) :
    (t.addPart s p d).derAt r = t.derAt r := by
  obtain ⟨v, hv⟩ := hs.at?
  simp only [derAt, addPart, at?_modify hs hr]
  split
  next eq => simp [eq, hv]
  next => rfl

theorem partsAt_addPart (hs : t.Has s) (hr : t.Has r) (p : Position) (d : Value) :
    (t.addPart s p d).partsAt r = if r = s then t.partsAt r ++ [(p, d)] else t.partsAt r := by
  obtain ⟨v, hv⟩ := hs.at?
  simp only [partsAt, addPart, at?_modify hs hr]
  split
  next eq => simp [eq, hv]
  next => rfl

/-- A table with the same slots that holds other values and derivatives. -/
structure Becomes (t t' : VariableTable) (val der : Slot → Value)
    (parts : Slot → List (Position × Value)) : Prop where
  same : t.SameSlots t'
  values : ∀ r, t.Has r → t'.valueAt r = val r
  ders : ∀ r, t.Has r → t'.derAt r = der r
  parts : ∀ r, t.Has r → t'.partsAt r = parts r

namespace Becomes

variable {t' t'' : VariableTable} {val val' der der' : Slot → Value}
variable {parts parts' : Slot → List (Position × Value)}

theorem refl (t : VariableTable) : t.Becomes t t.valueAt t.derAt t.partsAt :=
  ⟨.refl t, fun _ _ => rfl, fun _ _ => rfl, fun _ _ => rfl⟩

theorem trans (h : t.Becomes t' val der parts) (h' : t'.Becomes t'' val' der' parts') :
    t.Becomes t'' val' der' parts' := by
  have has := fun r hr => (h.same.has r).mpr hr
  exact ⟨h.same.trans h'.same, fun r hr => h'.values r (has r hr), fun r hr => h'.ders r (has r hr),
    fun r hr => h'.parts r (has r hr)⟩

theorem congr (h : t.Becomes t' val der parts) (values : ∀ r, t.Has r → val r = val' r)
    (ders : ∀ r, t.Has r → der r = der' r) (eq : ∀ r, t.Has r → parts r = parts' r) :
    t.Becomes t' val' der' parts' :=
  ⟨h.same, fun r hr => (h.values r hr).trans (values r hr),
    fun r hr => (h.ders r hr).trans (ders r hr), fun r hr => (h.parts r hr).trans (eq r hr)⟩

theorem setValue (h : t.Has s) (x : Value) : t.Becomes (t.setValue s x)
    (fun r => if r = s then x else t.valueAt r) t.derAt t.partsAt :=
  ⟨sameSlots_setValue x, fun _ hr => valueAt_setValue h hr x, fun _ hr => derAt_setValue h hr x,
    fun _ hr => partsAt_setValue h hr x⟩

theorem setDerAt (h : t.Has s) (d : Value) : t.Becomes (t.setDerAt s d) t.valueAt
    (fun r => if r = s then d else t.derAt r) (fun r => if r = s then [] else t.partsAt r) :=
  ⟨sameSlots_setDerAt d, fun _ hr => valueAt_setDerAt h hr d, fun _ hr => derAt_setDerAt h hr d,
    fun _ hr => partsAt_setDerAt h hr d⟩

theorem addPart (h : t.Has s) (p : Position) (d : Value) : t.Becomes (t.addPart s p d) t.valueAt
    t.derAt (fun r => if r = s then t.partsAt r ++ [(p, d)] else t.partsAt r) :=
  ⟨sameSlots_addPart p d, fun _ hr => valueAt_addPart h hr p d, fun _ hr => derAt_addPart h hr p d,
    fun _ hr => partsAt_addPart h hr p d⟩

end Becomes

theorem readDer_congr {t' : VariableTable} (addition : t'.addition = t.addition)
    (der : t'.derAt s = t.derAt s) (parts : t'.partsAt s = t.partsAt s) :
    t'.readDer s = t.readDer s := by simp only [readDer, addition, der, parts]

/-- Reading a derivative where nothing waits gives what is there. -/
theorem readDer_of_partsAt (h : t.partsAt s = []) : t.readDer s = .ok (t.derAt s) := by
  simp [readDer, h, sortParts, pure, Except.pure]

/-! ### What the operations lead to -/

variable {ok : PUnit → VariableTable → Prop} {okValue : Value → VariableTable → Prop}
variable {err : Error → VariableTable → Prop}

theorem leads_lookup {okVar : Variable → VariableTable → Prop} {v : Variable}
    (h : t.at? s = some v) : Leads (lookup s) t okVar err ↔ okVar v t := by
  simp [lookup, h]

theorem leads_update (h : t.Has s) (f : Variable → Variable) :
    Leads (update s f) t ok err ↔ ok ⟨⟩ (t.modify s f) := by
  obtain ⟨v, hv⟩ := h.at?
  simp [update, leads_lookup hv]

theorem leads_putValue (h : t.Has s) (x : Value) :
    Leads (putValue s x) t ok err ↔ ok ⟨⟩ (t.setValue s x) := leads_update h _

theorem leads_getValue (h : t.Has s) : Leads (getValue s) t okValue err ↔ okValue (t.valueAt s) t := by
  obtain ⟨v, hv⟩ := h.at?
  simp [getValue, leads_lookup hv, valueAt, hv]

theorem leads_setDer (h : t.Has s) (d : Value) :
    Leads (setDer s d) t ok err ↔ ok ⟨⟩ (t.setDerAt s d) := leads_update h _

theorem leads_accumulate_at (h : t.Has s) (d : Value) (p : Position) :
    Leads (accumulate s d (some p)) t ok err ↔ ok ⟨⟩ (t.addPart s p d) := leads_update h _

theorem leads_getDer (h : t.Has s) : Leads (getDer s) t okValue err ↔
    match t.readDer s with
    | .ok d => okValue d (t.setDerAt s d)
    | .error e => err e t := by
  obtain ⟨v, hv⟩ := h.at?
  have read : t.readDer s = folded t.addition v := by
    simp [readDer, folded, partsAt, derAt, hv]
  simp only [getDer, leads_bind, leads_lookup hv]
  cases parts : v.parts with
  | nil =>
    have der : t.readDer s = .ok v.der := by
      rw [readDer_of_partsAt (by simp [partsAt, hv, parts])]
      simp [derAt, hv]
    have same : t.setDerAt s v.der = t := modify_eq_self fun w hw => by
      rw [hv] at hw
      cases hw
      simp [← parts]
    simp [der, same]
  | cons p rest =>
    rw [read]
    simp only [List.isEmpty_cons, Bool.false_eq_true, if_false, leads_bind, leads_get]
    cases folded t.addition v with
    | error e => simp [ofExcept]
    | ok d => simp [ofExcept, leads_update h, setDerAt]

theorem leads_accumulate (h : t.Has s) (d : Value) :
    Leads (accumulate s d none) t ok err ↔
      match t.readDer s with
      | .error e => err e t
      | .ok x =>
        match accumulated t.addition x d with
        | .error e => err e (t.setDerAt s x)
        | .ok y => ok ⟨⟩ (t.setDerAt s y) := by
  simp only [accumulate, leads_bind, leads_getDer h]
  cases t.readDer s with
  | error e => rfl
  | ok x =>
    have add : (t.setDerAt s x).addition = t.addition := (sameSlots_setDerAt x).addition
    simp only [leads_get, add]
    cases accumulated t.addition x d with
    | error e => simp [ofExcept]
    | ok y =>
      have has : (t.setDerAt s x).Has s := ((sameSlots_setDerAt x).has s).mpr h
      simp only [ofExcept, leads_pure, leads_update has]
      rw [setDerAt, modify_modify]
      rfl

/-! ### Preparing for an evaluation -/

/-- The derivative that a slot starts an evaluation with. -/
def startDer (t : VariableTable) (keep : Bool) (s : Slot) : Except Error Value :=
  if t.persistentAt s && keep then t.readDer s else .ok (.int 0)

/-- What a slot of a prepared table holds. -/
structure Fresh (t t' : VariableTable) (keep : Bool) (s : Slot) : Prop where
  value : t'.valueAt s = if t.persistentAt s then t.valueAt s else .none
  der : t.startDer keep s = .ok (t'.derAt s)
  parts : t'.partsAt s = []

theorem leads_resetSlot (keep : Bool) (h : t.Has s) :
    Leads (resetSlot keep s) t
      (fun _ t' => t.SameSlots t' ∧ t.Fresh t' keep s ∧
        ∀ r, t.Has r → r ≠ s → t'.at? r = t.at? r)
      (fun e _ => t.startDer keep s = .error e) := by
  obtain ⟨v, hv⟩ := h.at?
  have persistent : t.persistentAt s = v.info.persistent := by simp [persistentAt, hv]
  have cleared : ∀ d, t.startDer keep s = .ok d → t.SameSlots (t.setDerAt s d) ∧
      (t.persistentAt s = true → t.Fresh (t.setDerAt s d) keep s) ∧
      ∀ r, t.Has r → r ≠ s → (t.setDerAt s d).at? r = t.at? r := by
    intro d start
    refine ⟨sameSlots_setDerAt d, fun stays => ⟨?_, ?_, ?_⟩, fun r hr ne => ?_⟩
    · rw [valueAt_setDerAt h h, stays, if_pos rfl]
    · rw [derAt_setDerAt h h, if_pos rfl, start]
    · rw [partsAt_setDerAt h h, if_pos rfl]
    · rw [setDerAt, at?_modify h hr, if_neg ne]
  simp only [resetSlot, leads_bind, leads_lookup hv]
  cases stays : v.info.persistent with
  | false =>
    have emptied : t.SameSlots (t.setValue s .none) := sameSlots_setValue .none
    have has : (t.setValue s .none).Has s := (emptied.has s).mpr h
    simp only [Bool.not_false, if_true, leads_bind, release, leads_putValue h, releaseDer,
      leads_setDer has]
    refine ⟨emptied.trans (sameSlots_setDerAt _), ⟨?_, ?_, ?_⟩, fun r hr ne => ?_⟩
    · rw [valueAt_setDerAt has has, valueAt_setValue h h, if_pos rfl, persistent, stays]
      rfl
    · rw [derAt_setDerAt has has, if_pos rfl, startDer, persistent, stays]
      rfl
    · rw [partsAt_setDerAt has has, if_pos rfl]
    · have hr' := (emptied.has r).mpr hr
      rw [setDerAt, at?_modify has hr', if_neg ne, setValue, at?_modify h hr, if_neg ne]
  | true =>
    cases keep with
    | false =>
      have start : t.startDer false s = .ok (.int 0) := by simp [startDer]
      obtain ⟨same, fresh, others⟩ := cleared _ start
      simpa [releaseDer, leads_setDer h] using ⟨same, fresh (persistent.trans stays), others⟩
    | true =>
      have start : t.startDer true s = t.readDer s := by simp [startDer, persistent, stays]
      simp only [Bool.not_true, Bool.false_eq_true, if_false, if_true, leads_bind,
        leads_getDer h, start]
      cases read : t.readDer s with
      | error e => rfl
      | ok d =>
        obtain ⟨same, fresh, others⟩ := cleared d (start.trans read)
        exact ⟨same, fresh (persistent.trans stays), others⟩

theorem Fresh.congr {t₀ t' : VariableTable} {keep : Bool} (h : t.Fresh t' keep s)
    (same : t₀.SameSlots t) (eq : t.at? s = t₀.at? s) : t₀.Fresh t' keep s := by
  have persistent := persistentAt_sameSlots same s
  have value : t.valueAt s = t₀.valueAt s := by simp [valueAt, eq]
  have read : t.readDer s = t₀.readDer s := by
    simp [readDer, partsAt, derAt, eq, same.addition]
  exact ⟨by rw [h.value, persistent, value], by rw [← h.der, startDer, startDer, persistent, read],
    h.parts⟩

/-- Preparing the table empties every slot but the persistent ones, and leaves nothing waiting. -/
theorem leads_reset (keep : Bool) :
    Leads (reset keep) t
      (fun _ t' => t.SameSlots t' ∧ ∀ s, t.Has s → t.Fresh t' keep s)
      (fun e _ => ∃ s, t.Has s ∧ t.startDer keep s = .error e) := by
  simp only [reset, leads_bind, leads_get]
  have rounds : Leads ((List.range t.size).forM fun k => resetSlot keep k) t
      (fun _ t' => t.SameSlots t' ∧ (∀ k ∈ List.range t.size, t.Fresh t' keep k) ∧
        ∀ r, t.Has r → (∀ k ∈ List.range t.size, r ≠ k) → t'.at? r = t.at? r)
      (fun e _ => ∃ s, t.Has s ∧ t.startDer keep s = .error e) := by
    let inv (seen : List Nat) (t' : VariableTable) : Prop :=
      t.SameSlots t' ∧ (∀ k ∈ seen, t.Fresh t' keep k) ∧
        ∀ r, t.Has r → (∀ k ∈ seen, r ≠ k) → t'.at? r = t.at? r
    refine Leads.forM inv ⟨.refl t, by simp, fun _ _ _ => rfl⟩ ?_
    rintro seen k rest t' split ⟨same, fresh, untouched⟩
    have member : k ∈ List.range t.size := by simp [split]
    have has : t.Has (k : Int) := by
      have := List.mem_range.mp member
      exact ⟨by omega, by omega⟩
    have new : ∀ j ∈ seen, (k : Int) ≠ j := by
      intro j hj eq
      have nodup := List.nodup_range (n := t.size)
      rw [split] at nodup
      have apart := (List.nodup_append.mp nodup).2.2 j hj k (by simp)
      omega
    have at' : t'.at? k = t.at? k := untouched k has new
    apply (leads_resetSlot keep ((same.has k).mpr has)).mono
    · rintro _ t'' ⟨same', fresh', others⟩
      refine ⟨same.trans same', ?_, ?_⟩
      · intro j hj
        rcases List.mem_append.mp hj with hj | hj
        · have hasj : t.Has (j : Int) := by
            have : j ∈ List.range t.size := by rw [split]; simp [hj]
            have := List.mem_range.mp this
            exact ⟨by omega, by omega⟩
          have eq := others j ((same.has j).mpr hasj) (fun eq => new j hj eq.symm)
          obtain ⟨value, der, parts⟩ := fresh j hj
          exact ⟨by simpa [valueAt, eq] using value, by simpa [derAt, eq] using der,
            by simpa [partsAt, eq] using parts⟩
        · rw [List.mem_singleton.mp hj]
          exact fresh'.congr same at'
      · intro r hr distinct
        rw [others r ((same.has r).mpr hr) (distinct k (by simp))]
        exact untouched r hr fun j hj => distinct j (by simp [hj])
    · intro e t'' failed
      refine ⟨k, has, ?_⟩
      have persistent := persistentAt_sameSlots same k
      have read : t'.readDer k = t.readDer k := by
        simp [readDer, partsAt, derAt, at', same.addition]
      simpa [startDer, persistent, read] using failed
  apply rounds.mono _ (fun _ _ h => h)
  rintro _ t' ⟨same, fresh, _⟩
  refine ⟨same, fun s hs => ?_⟩
  have bound : s.toNat ∈ List.range t.size := by
    have := hs.2
    exact List.mem_range.mpr (by have := hs.1; omega)
  have cast : ((s.toNat : Nat) : Int) = s := Int.toNat_of_nonneg hs.1
  exact cast ▸ fresh s.toNat bound

end VariableTable

end Backprop
