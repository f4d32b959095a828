import Backprop.Proofs.Table
/-!
# The order of a sum

Contributions that wait are added in the order of their positions when the derivative is read, so the
order of the whole sum depends on when that is.

* `Use` are the calls on a table that fill and read derivatives, and `summation` is the order in which
  they have the contributions to a slot added; `leads_uses`.
* `summation_considerate`: reading what receives nothing more makes no difference to it.
* `Settled` relates the tables of two runs, one of which has read such derivatives.
-/

namespace Backprop

namespace VariableTable

/-- A call on a table that fills or reads a slot. -/
inductive Use where
  | accumulate (slot : Slot) (der : Value) (position : Option Position)
  | readDer (slot : Slot)
  | readValue (slot : Slot)

namespace Use

def slot : Use → Slot
  | accumulate slot .. | readDer slot | readValue slot => slot

def run : Use → TableM Unit
  | accumulate slot der position => VariableTable.accumulate slot der position
  | readDer slot => do let _ ← getDer slot
  | readValue slot => do let _ ← getValue slot

def isRead : Use → Bool
  | accumulate .. => false
  | readDer _ | readValue _ => true

/-- Whether something is added to a slot. -/
def addsTo (r : Slot) : Use → Bool
  | accumulate slot .. => slot == r
  | readDer _ | readValue _ => false

/-- Whether what is added waits for the next read. -/
def waits : Use → Bool
  | accumulate _ _ position => position.isSome
  | readDer _ | readValue _ => true

/-- What waits for a slot after a call. -/
def part? (r : Slot) : Use → Option (Position × Value)
  | accumulate slot der (some p) => if slot = r then some (p, der) else none
  | _ => none

end Use

/-- Contributions in the order in which reading adds them. -/
def inOrder (waiting : List (Position × Value)) : List Value := (sortParts waiting).map (·.2)

/-- The order in which the contributions to a slot are added, those that wait already included. A read
or a contribution without a position ends a block: what waits is added in ascending order, and what
comes later is added to that. -/
def summation (r : Slot) : List Use → List (Position × Value) → List Value
  | [], waiting => inOrder waiting
  | .accumulate q der (some p) :: uses, waiting =>
    summation r uses (if q = r then waiting ++ [(p, der)] else waiting)
  | .accumulate q der none :: uses, waiting =>
    if q = r then inOrder waiting ++ der :: summation r uses [] else summation r uses waiting
  | .readDer q :: uses, waiting =>
    if q = r then inOrder waiting ++ summation r uses [] else summation r uses waiting
  | .readValue _ :: uses, waiting => summation r uses waiting

/-- The derivative that a slot has after calls, as a sum. -/
def sumAfter (t : VariableTable) (uses : List Use) (r : Slot) : Except Error Value :=
  (summation r uses (t.partsAt r)).foldlM (accumulated t.addition) (t.derAt r)

/-- Whether derivatives are read only when nothing is added to them any more. -/
def Considerate : List Use → Prop
  | [] => True
  | .readDer q :: uses => (∀ u ∈ uses, u.addsTo q = false) ∧ Considerate uses
  | _ :: uses => Considerate uses

variable {t t' t'' : VariableTable} {r q : Slot} {uses : List Use}

theorem readDer_eq (t : VariableTable) (r : Slot) :
    t.readDer r = (inOrder (t.partsAt r)).foldlM (accumulated t.addition) (t.derAt r) :=
  (List.foldlM_map ..).symm

/-- What is added after a read is added to what was read. -/
theorem foldlM_inOrder_append (t : VariableTable) (r : Slot) (l : List Value) :
    (inOrder (t.partsAt r) ++ l).foldlM (accumulated t.addition) (t.derAt r) =
      (t.readDer r).bind fun total => l.foldlM (accumulated t.addition) total := by
  rw [List.foldlM_append, ← readDer_eq]
  rfl

/-- The sum of a slot that a call leaves alone. -/
theorem sumAfter_of_untouched (same : t.SameSlots t') (der : t'.derAt r = t.derAt r)
    (parts : t'.partsAt r = t.partsAt r) {u : Use}
    (skip : ∀ waiting, summation r (u :: uses) waiting = summation r uses waiting) :
    t'.sumAfter uses r = t.sumAfter (u :: uses) r := by
  simp only [sumAfter, same.addition, der, parts, skip]

/-- A call carries out the first part of the sum. -/
theorem leads_use (u : Use) (hu : t.Has u.slot) (hr : t.Has r) :
    Leads u.run t
      (fun _ t' => t.SameSlots t' ∧ ∀ uses, t'.sumAfter uses r = t.sumAfter (u :: uses) r)
      fun _ _ => True := by
  cases u with
  | accumulate q der position =>
    have here : t.Has q := hu
    cases position with
    | some p =>
      rw [Use.run, leads_accumulate_at here]
      have add := Becomes.addPart here p der
      refine ⟨add.same, fun uses => ?_⟩
      simp only [sumAfter, summation, add.same.addition, add.ders r hr, add.parts r hr, @eq_comm _ q r]
    | none =>
      rw [Use.run, leads_accumulate here]
      cases read : t.readDer q with
      | error e => trivial
      | ok x =>
        dsimp only
        cases sum : accumulated t.addition x der with
        | error e => trivial
        | ok y =>
          have set := Becomes.setDerAt here y
          refine ⟨set.same, fun uses => ?_⟩
          by_cases eq : q = r
          · subst eq
            simp only [sumAfter, summation, if_true, foldlM_inOrder_append, read,
              set.same.addition, set.ders q here, set.parts q here]
            simp only [bind, Except.bind, List.foldlM_cons, sum]
          · refine sumAfter_of_untouched set.same ?_ ?_ fun _ => by rw [summation, if_neg eq]
            · rw [set.ders r hr, if_neg (Ne.symm eq)]
            · rw [set.parts r hr, if_neg (Ne.symm eq)]
  | readDer q =>
    have here : t.Has q := hu
    rw [Use.run, leads_bind, leads_getDer here]
    cases read : t.readDer q with
    | error e => trivial
    | ok x =>
      have set := Becomes.setDerAt here x
      refine ⟨set.same, fun uses => ?_⟩
      by_cases eq : q = r
      · subst eq
        simp only [sumAfter, summation, if_true, foldlM_inOrder_append, read,
          set.same.addition, set.ders q here, set.parts q here]
        rfl
      · refine sumAfter_of_untouched set.same ?_ ?_ fun _ => by rw [summation, if_neg eq]
        · rw [set.ders r hr, if_neg (Ne.symm eq)]
        · rw [set.parts r hr, if_neg (Ne.symm eq)]
  | readValue q =>
    have here : t.Has q := hu
    rw [Use.run, leads_bind, leads_getValue here]
    exact ⟨.refl t, fun _ => sumAfter_of_untouched (.refl t) rfl rfl fun _ => rfl⟩

/-- Calls add the contributions to a slot in the order of its summation. -/
theorem leads_uses (hr : t.Has r) (has : ∀ u ∈ uses, t.Has u.slot) :
    Leads (uses.forM Use.run) t
      (fun _ t' => t.SameSlots t' ∧ t'.readDer r = t.sumAfter uses r) fun _ _ => True := by
  induction uses generalizing t with
  | nil => exact ⟨.refl t, readDer_eq t r⟩
  | cons u uses ih =>
    rw [leads_forM_cons]
    refine (leads_use u (has u (by simp)) hr).mono (fun _ t' ⟨same, sum⟩ => ?_) fun _ _ h => h
    refine (ih ((same.has r).mpr hr) fun v hv => (same.has _).mpr (has v (by simp [hv]))).mono
      (fun _ t'' ⟨same', read⟩ => ?_) fun _ _ h => h
    exact ⟨same.trans same', read.trans (sum uses)⟩

/-- Where nothing is added, what waits is all there is to add. -/
theorem summation_of_nothing (none : ∀ u ∈ uses, u.addsTo r = false)
    (waiting : List (Position × Value)) : summation r uses waiting = inOrder waiting := by
  induction uses generalizing waiting with
  | nil => rfl
  | cons u uses ih =>
    have rest := ih fun v hv => none v (by simp [hv])
    have here := none u (by simp)
    match u with
    | .accumulate q der (some p) | .accumulate q der .none =>
      have ne : q ≠ r := by simpa [Use.addsTo] using here
      rw [summation, if_neg ne, rest]
    | .readDer q =>
      rw [summation, rest, rest]
      split
      · exact List.append_nil _
      · rfl
    | .readValue q => exact rest waiting

/-- Reading what receives nothing more makes no difference to the order of a sum. -/
theorem summation_considerate (considerate : Considerate uses) (waiting : List (Position × Value)) :
    summation r uses waiting = summation r (uses.filter fun u => !u.isRead) waiting := by
  induction uses generalizing waiting with
  | nil => rfl
  | cons u uses ih =>
    match u with
    | .accumulate q der (some p) | .accumulate q der none =>
      have rest := ih considerate
      rw [List.filter_cons_of_pos rfl]
      simp only [summation, rest]
    | .readDer q =>
      obtain ⟨last, rest⟩ := considerate
      rw [List.filter_cons_of_neg (by simp [Use.isRead]), ← ih rest, summation]
      by_cases eq : q = r
      · subst eq
        rw [if_pos rfl, summation_of_nothing last, summation_of_nothing last]
        exact List.append_nil _
      · rw [if_neg eq]
    | .readValue q =>
      rw [List.filter_cons_of_neg (by simp [Use.isRead]), summation, ih considerate]

/-- If everything waits to be read, all is added in ascending order. -/
theorem summation_of_waits (waits : ∀ u ∈ uses, u.waits = true) (plain : ∀ u ∈ uses, u.isRead = false)
    (waiting : List (Position × Value)) :
    summation r uses waiting = inOrder (waiting ++ uses.filterMap (Use.part? r)) := by
  induction uses generalizing waiting with
  | nil => rw [List.filterMap_nil, List.append_nil, summation]
  | cons u uses ih =>
    have rest := ih (fun v hv => waits v (by simp [hv])) fun v hv => plain v (by simp [hv])
    match u, waits u (by simp), plain u (by simp) with
    | .accumulate q der (some p), _, _ =>
      rw [summation, rest]
      by_cases eq : q = r
      · simp [Use.part?, eq]
      · simp [Use.part?, eq]

/-- So all is added in ascending order, too, if what receives nothing more is read. -/
theorem summation_ascending (considerate : Considerate uses) (waits : ∀ u ∈ uses, u.waits = true)
    (waiting : List (Position × Value)) :
    summation r uses waiting = inOrder (waiting ++ uses.filterMap (Use.part? r)) := by
  have parts : (uses.filter fun u => !u.isRead).filterMap (Use.part? r) =
      uses.filterMap (Use.part? r) := by
    rw [List.filterMap_filter]
    congr 1
    funext u
    cases u <;> rfl
  rw [summation_considerate considerate, summation_of_waits _ _ waiting, parts]
  · exact fun u hu => waits u (List.mem_filter.mp hu).1
  · intro u hu
    simpa using (List.mem_filter.mp hu).2

/-- A read between two contributions puts the later one last, although its position is first. -/
example (late early : Value) :
    summation 0 [.accumulate 0 late (some ⟨3, 0⟩), .readDer 0, .accumulate 0 early (some ⟨1, 0⟩)] [] =
      [late, early] := rfl

/-! ### Tables of two runs -/

/-- What reading some derivatives makes of a table: what waited for them is added up. -/
structure Settled (read : Slot → Prop) (t t' : VariableTable) : Prop where
  same : t.SameSlots t'
  values : ∀ r, t.Has r → t'.valueAt r = t.valueAt r
  ders : ∀ r, t.Has r → (t'.derAt r = t.derAt r ∧ t'.partsAt r = t.partsAt r) ∨
    (read r ∧ t.readDer r = .ok (t'.derAt r) ∧ t'.partsAt r = [])

namespace Settled

variable {read : Slot → Prop}

theorem refl (t : VariableTable) : t.Settled read t :=
  ⟨.refl t, fun _ _ => rfl, fun _ _ => .inl ⟨rfl, rfl⟩⟩

theorem readDer (h : t.Settled read t') (hr : t.Has r) : t'.readDer r = t.readDer r := by
  rcases h.ders r hr with ⟨der, parts⟩ | ⟨-, total, parts⟩
  · exact readDer_congr h.same.addition der parts
  · rw [total, readDer_of_partsAt parts]

theorem trans (h : t.Settled read t') (h' : t'.Settled read t'') : t.Settled read t'' := by
  refine ⟨h.same.trans h'.same, fun r hr => ?_, fun r hr => ?_⟩
  · rw [h'.values r ((h.same.has r).mpr hr), h.values r hr]
  · rcases h'.ders r ((h.same.has r).mpr hr) with ⟨der, parts⟩ | ⟨done, total, parts⟩
    · rw [der, parts]
      exact h.ders r hr
    · exact .inr ⟨done, by rw [← total, h.readDer hr], parts⟩

theorem mono {read' : Slot → Prop} (h : t.Settled read t') (sub : ∀ r, read r → read' r) :
    t.Settled read' t' :=
  ⟨h.same, h.values, fun r hr => (h.ders r hr).imp_right fun ⟨done, rest⟩ => ⟨sub r done, rest⟩⟩

/-- A change that treats every slot alike in both tables, or leaves it as it is in both. -/
theorem becomes {u u' : VariableTable} {val val' der der' : Slot → Value}
    {parts parts' : Slot → List (Position × Value)} (h : t.Settled read t')
    (change : t.Becomes u val der parts) (change' : t'.Becomes u' val' der' parts')
    (values : ∀ r, t.Has r → val' r = val r)
    (ders : ∀ r, t.Has r → (der' r = der r ∧ parts' r = parts r) ∨
      (der r = t.derAt r ∧ parts r = t.partsAt r) ∧
        der' r = t'.derAt r ∧ parts' r = t'.partsAt r) : u.Settled read u' := by
  have addition : u'.addition = u.addition := by
    rw [change'.same.addition, h.same.addition, change.same.addition]
  have infos : u'.entries.map (·.info) = u.entries.map (·.info) := by
    rw [change'.same.infos, h.same.infos, change.same.infos]
  refine ⟨⟨infos, addition⟩, fun r hr => ?_, fun r hr => ?_⟩
  · have there := (change.same.has r).mp hr
    rw [change'.values r ((h.same.has r).mpr there), change.values r there, values r there]
  · have there := (change.same.has r).mp hr
    have there' := (h.same.has r).mpr there
    rw [change'.ders r there', change'.parts r there', change.ders r there, change.parts r there]
    rcases ders r there with ⟨der, parts⟩ | ⟨⟨der, parts⟩, der', parts'⟩
    · exact .inl ⟨der, parts⟩
    · have kept : u.readDer r = t.readDer r := readDer_congr change.same.addition
        ((change.ders r there).trans der) ((change.parts r there).trans parts)
      rw [der, parts, der', parts', kept]
      exact h.ders r there

/-- Reading one derivative. -/
theorem getDer {d : Value} (hq : t.Has q) (done : read q) (total : t.readDer q = .ok d) :
    t.Settled read (t.setDerAt q d) := by
  have set := Becomes.setDerAt hq d
  refine ⟨set.same, set.values, fun r hr => ?_⟩
  by_cases eq : r = q
  · subst eq
    exact .inr ⟨done, by rw [set.ders r hr, if_pos rfl, total], by rw [set.parts r hr, if_pos rfl]⟩
  · exact .inl ⟨by rw [set.ders r hr, if_neg eq], by rw [set.parts r hr, if_neg eq]⟩

end Settled

end VariableTable

end Backprop
