import Backprop.Proofs.Arena
import Backprop.Proofs.Valuation
/-!
# Derivatives without a table

The derivative of a slot is a sum: what it starts with, and what the instructions that take the slot
send back to it, in the order of the forward list.

* `Net.IsAdjoint` states this as a system of equations, one for each slot.
* `Net.adjointAfter` solves them from the last instruction on; `isAdjoint_adjointAfter` and
  `adjointAfter_of_isAdjoint` say that it is the only solution.
-/

namespace Backprop

/-- What reading the derivative of a slot gives. -/
abbrev Cotangent := Slot → Except Error Value

namespace Instruction

/-- Whether the derivatives of an instruction are accumulated in a slot. -/
def sendsTo (i : Instruction) (r : Slot) : Bool :=
  i.requiresGradient && i.gradientPositions.any (·.2 == r)

/-- The derivatives that a slot gets through some argument positions, given those of all arguments;
nothing is no derivative. -/
def entries (index : Nat) (positions : List (Nat × Slot)) (ders : List Value) (r : Slot) :
    List (Position × Value) :=
  positions.filterMap fun (position, slot) =>
    if slot = r then
      ((ders[position]?).filter fun d => !d.isNone).map fun d => (⟨index, position⟩, d)
    else none

/-- The derivatives that a slot gets from those of the arguments. -/
def entriesFor (i : Instruction) (ders : List Value) (r : Slot) : List (Position × Value) :=
  entries i.index i.gradientPositions ders r

end Instruction

namespace Net

/-- A total with a list of contributions added to it one after the other. -/
def totalOf (net : Net) (total : Value) (ders : List Value) : Except Error Value :=
  ders.foldlM (VariableTable.accumulated net.table.addition) total

/-- The derivative of a result, given those of its outputs. -/
def joined : List Value → Value
  | [d] => d
  | ds => .tuple ds

/-- The derivatives of an instruction's arguments, given those of its outputs. -/
def dersOf (net : Net) (val : Valuation) (i : Instruction) (douts : List Value) :
    Except Error (List Value) := do
  let (args, kwargs) ← net.argumentsOf val i
  let kernel ←
    match i.operation.backward with
    | some kernel => pure kernel
    | none => throw .badCall
  return derivativesOf (← kernel (args ++ [joined douts]) kwargs)

/-- The derivatives of an instruction's arguments; none if nothing has reached its outputs. -/
def reaction (net : Net) (val : Valuation) (adj : Cotangent) (i : Instruction) :
    Except Error (List Value) := do
  let douts ← i.outputs.mapM adj
  if douts.any fun d => !d.isZero then net.dersOf val i douts else return []

/-- What an instruction sends to a slot. -/
def sent (net : Net) (val : Valuation) (adj : Cotangent) (i : Instruction) (r : Slot) :
    Except Error (List (Position × Value)) :=
  if i.sendsTo r then do return i.entriesFor (← net.reaction val adj i) r else .ok []

/-- What instructions send to a slot, in their order. -/
def sentByAll (net : Net) (val : Valuation) (adj : Cotangent) (r : Slot) :
    List Instruction → Except Error (List (Position × Value))
  | [] => .ok []
  | i :: l => do return (← net.sent val adj i r) ++ (← sentByAll net val adj r l)

/-- The derivative of every slot is what it starts with, and what all instructions send to it when
the derivatives of their outputs are these. -/
def IsAdjoint (net : Net) (start : Cotangent) (val : Valuation) (adj : Cotangent) : Prop :=
  ∀ r, net.schedule.HasSlot r → adj r = do
    let parts ← net.sentByAll val adj r net.schedule.forward
    net.totalOf (← start r) (parts.map (·.2))

/-- What instructions at the end of a list send to a slot. -/
def received (net : Net) (start : Cotangent) (val : Valuation) :
    List Instruction → Slot → Except Error (List (Position × Value))
  | [], _ => .ok []
  | i :: later, r => do
    let adj : Cotangent := fun o => do
      let parts ← received net start val later o
      net.totalOf (← start o) (parts.map (·.2))
    return (← net.sent val adj i r) ++ (← received net start val later r)

/-- The derivatives once instructions at the end of a list have sent theirs. -/
def adjointAfter (net : Net) (start : Cotangent) (val : Valuation) (later : List Instruction) :
    Cotangent := fun r => do
  let parts ← net.received start val later r
  net.totalOf (← start r) (parts.map (·.2))

variable {s : Schedule} {net : Net} {start adj : Cotangent} {val : Valuation} {i : Instruction}
variable {later pre post : List Instruction} {r : Slot}

theorem received_cons : net.received start val (i :: later) r = do
    return (← net.sent val (net.adjointAfter start val later) i r) ++
      (← net.received start val later r) := rfl

theorem sent_of_not_sendsTo (h : i.sendsTo r = false) : net.sent val adj i r = .ok [] := by
  simp [sent, h]

/-- Instructions that send nothing to a slot can be left out. -/
theorem received_skip : ∀ {pre : List Instruction}, (∀ i ∈ pre, i.sendsTo r = false) →
    net.received start val (pre ++ later) r = net.received start val later r := by
  intro pre
  induction pre with
  | nil => intro _; rfl
  | cons i pre ih =>
    intro none
    rw [List.cons_append, received_cons, sent_of_not_sendsTo (none i (by simp)),
      ih fun j hj => none j (by simp [hj])]
    cases net.received start val later r <;> rfl

theorem received_filter : ∀ l : List Instruction,
    net.received start val (l.filter (·.requiresGradient)) = net.received start val l := by
  intro l
  induction l with
  | nil => rfl
  | cons i l ih =>
    funext r
    cases gradient : i.requiresGradient with
    | true =>
      rw [List.filter_cons_of_pos gradient, received_cons, received_cons]
      unfold adjointAfter
      rw [ih]
    | false =>
      have none : i.sendsTo r = false := by simp [Instruction.sendsTo, gradient]
      have skip : net.received start val ([i] ++ l) r = net.received start val l r :=
        received_skip (by simpa using none)
      rw [List.filter_cons_of_neg (by simp [gradient]), ih]
      exact skip.symm

theorem sentByAll_skip : ∀ {pre : List Instruction}, (∀ i ∈ pre, i.sendsTo r = false) →
    net.sentByAll val adj r (pre ++ later) = net.sentByAll val adj r later := by
  intro pre
  induction pre with
  | nil => intro _; rfl
  | cons i pre ih =>
    intro none
    rw [List.cons_append, sentByAll, sent_of_not_sendsTo (none i (by simp)),
      ih fun j hj => none j (by simp [hj])]
    cases net.sentByAll val adj r later <;> rfl

/-- Derivatives depend on what the instruction reads. -/
theorem dersOf_congr {val' : Valuation} {douts : List Value} (same : ∀ r ∈ i.reads, val r = val' r) :
    net.dersOf val i douts = net.dersOf val' i douts := by
  unfold dersOf
  rw [argumentsOf_congr same]

/-- What an instruction sends depends on the derivatives of its outputs. -/
theorem reaction_congr {adj' : Cotangent} (same : ∀ o ∈ i.outputs, adj o = adj' o) :
    net.reaction val adj i = net.reaction val adj' i := by
  unfold reaction
  rw [mapM_congr_mem same]

theorem sent_congr {adj' : Cotangent} (same : ∀ o ∈ i.outputs, adj o = adj' o) :
    net.sent val adj i r = net.sent val adj' i r := by
  unfold sent
  rw [reaction_congr same]

/-- Nothing is sent to the outputs of an instruction by itself or by an earlier one. -/
theorem not_sendsTo_output (wf : s.WellFormed) (split : s.forward = pre ++ i :: post)
    (h : r ∈ i.outputs) : ∀ j ∈ pre ++ [i], j.sendsTo r = false := by
  intro j hj
  by_contra sends
  have sends' : j.requiresGradient = true ∧ ∃ q ∈ j.gradientPositions, q.2 = r := by
    simpa [Instruction.sendsTo] using sends
  obtain ⟨_, q, hq, rfl⟩ := sends'
  obtain ⟨before, after, eq⟩ := List.append_of_mem hj
  have split' : s.forward = before ++ j :: (after ++ post) := by
    have whole : s.forward = (pre ++ [i]) ++ post := by simp [split]
    rw [whole, eq]
    simp
  have member : j ∈ s.forward := by rw [split']; simp
  obtain ⟨own, later⟩ := wf.reads_not_later split' (wf.gradient_reads member hq)
  rcases List.mem_append.mp hj with hj | hj
  · obtain ⟨a, b, rfl⟩ := List.append_of_mem hj
    have split'' : s.forward = a ++ j :: (b ++ i :: post) := by simp [split]
    have reads := wf.reads_not_later split'' (wf.gradient_reads member hq)
    exact reads.2 ⟨i, by simp, h⟩
  · rw [List.mem_singleton.mp hj] at own
    exact own h

/-- A family of derivatives that is right at the outputs of every instruction, once the later
instructions are, sends what is received. -/
theorem sentByAll_eq_received
    (agrees : ∀ pre i post, s.forward = pre ++ i :: post → ∀ o ∈ i.outputs,
      net.sentByAll val adj o post = net.received start val post o →
      adj o = net.adjointAfter start val post o) :
    ∀ (post pre : List Instruction), s.forward = pre ++ post → ∀ r,
      net.sentByAll val adj r post = net.received start val post r := by
  intro post
  induction post with
  | nil => intro _ _ _; rfl
  | cons i post ih =>
    intro pre split r
    have rest := ih (pre ++ [i]) (by simpa using split)
    have here : net.sent val adj i r = net.sent val (net.adjointAfter start val post) i r :=
      sent_congr fun o ho => agrees pre i post split o ho (rest o)
    rw [sentByAll, received_cons, here, rest r]

/-- The equations have a solution. -/
theorem isAdjoint_adjointAfter (wf : s.WellFormed) (schedule : net.schedule = s) :
    net.IsAdjoint start val (net.adjointAfter start val s.forward) := by
  intro r _
  rw [schedule, sentByAll_eq_received _ s.forward [] rfl r]
  · rfl
  · intro pre i post split o ho _
    have whole : s.forward = (pre ++ [i]) ++ post := by simp [split]
    unfold adjointAfter
    rw [whole, received_skip (not_sendsTo_output wf split ho)]

/-- They have only one. -/
theorem adjointAfter_of_isAdjoint (wf : s.WellFormed) (schedule : net.schedule = s)
    (h : net.IsAdjoint start val adj) (has : s.HasSlot r) :
    adj r = net.adjointAfter start val s.forward r := by
  have same : ∀ r, net.sentByAll val adj r s.forward = net.received start val s.forward r := by
    refine sentByAll_eq_received ?_ s.forward [] rfl
    intro pre i post split o ho rest
    have whole : s.forward = (pre ++ [i]) ++ post := by simp [split]
    have member : i ∈ s.forward := by rw [split]; simp
    have equation := h o (by rw [schedule]; exact wf.outputs_hasSlot member ho)
    rw [schedule, whole, sentByAll_skip (not_sendsTo_output wf split ho), rest] at equation
    exact equation
  rw [h r (by rw [schedule]; exact has), schedule, same r]
  rfl

/-! ### Other starts and other nets -/

/-- What is received depends on the start at the outputs of instructions only. -/
theorem received_congr_outputs {start' : Cotangent} : ∀ l : List Instruction,
    (∀ i ∈ l, ∀ o ∈ i.outputs, start o = start' o) →
      net.received start val l = net.received start' val l := by
  intro l
  induction l with
  | nil => intro _; rfl
  | cons i l ih =>
    intro same
    have rest := ih fun j hj => same j (by simp [hj])
    funext r
    have here : net.sent val (net.adjointAfter start val l) i r =
        net.sent val (net.adjointAfter start' val l) i r := by
      refine sent_congr fun o ho => ?_
      simp only [adjointAfter, rest, same i (by simp) o ho]
    rw [received_cons, received_cons, here, rest]

theorem received_congr (wf : s.WellFormed) {start' : Cotangent}
    (same : ∀ r, s.HasSlot r → start r = start' r) (l : List Instruction)
    (sub : ∀ i ∈ l, i ∈ s.forward) : net.received start val l = net.received start' val l :=
  received_congr_outputs l fun i hi o ho => same o (wf.outputs_hasSlot (sub i hi) ho)

theorem reaction_eq {net' : Net} (argumentsOf : net'.argumentsOf = net.argumentsOf) :
    net'.reaction = net.reaction := by
  funext val adj i
  simp only [reaction, dersOf, argumentsOf]

theorem totalOf_eq {net' : Net} (addition : net'.table.addition = net.table.addition) :
    net'.totalOf = net.totalOf := by
  funext total ders
  simp only [totalOf, addition]

theorem received_eq {net' : Net} (argumentsOf : net'.argumentsOf = net.argumentsOf)
    (addition : net'.table.addition = net.table.addition) :
    net'.received = net.received := by
  funext start val l
  induction l with
  | nil => rfl
  | cons i l ih =>
    have adj : net'.adjointAfter start val l = net.adjointAfter start val l := by
      funext o
      simp only [adjointAfter, ih, totalOf_eq addition]
    funext r
    simp only [received_cons, sent, reaction_eq argumentsOf, adj, ih]

theorem adjointAfter_eq {net' : Net} (argumentsOf : net'.argumentsOf = net.argumentsOf)
    (addition : net'.table.addition = net.table.addition) :
    net'.adjointAfter = net.adjointAfter := by
  funext start val l r
  simp only [adjointAfter, received_eq argumentsOf addition, totalOf_eq addition]

/-! ### Positions -/

theorem entriesFor_of_not_sendsTo (gradient : i.requiresGradient = true) (h : i.sendsTo r = false)
    (ders : List Value) : i.entriesFor ders r = [] := by
  simp only [Instruction.sendsTo, gradient, Bool.true_and, List.any_eq_false, beq_iff_eq] at h
  refine List.filterMap_eq_nil_iff.mpr fun q hq => ?_
  simp [h q hq]

/-- What an instruction on the way to a gradient sends is what it has for the slot. -/
theorem sent_of_reaction {ders : List Value} (gradient : i.requiresGradient = true)
    (reacts : net.reaction val adj i = .ok ders) :
    net.sent val adj i r = .ok (i.entriesFor ders r) := by
  unfold sent
  split
  next => rw [reacts]; rfl
  next none => rw [entriesFor_of_not_sendsTo gradient (by simpa using none)]

theorem entriesFor_index {ders : List Value} {p : Position × Value}
    (h : p ∈ i.entriesFor ders r) : p.1.instruction = i.index := by
  obtain ⟨⟨position, slot⟩, _, entry⟩ := List.mem_filterMap.mp h
  dsimp only at entry
  split at entry
  · obtain ⟨d, _, rfl⟩ := Option.map_eq_some_iff.mp entry
    rfl
  · cases entry

/-- What an instruction sends is ordered by argument. -/
theorem entriesFor_sorted (wf : s.WellFormed) (hi : i ∈ s.forward) (ders : List Value) :
    (i.entriesFor ders r).Pairwise fun p q => p.1.lt q.1 = true := by
  have order := List.pairwise_map.mp (wf.gradientOrder i hi)
  refine List.pairwise_filterMap.mpr (order.imp fun {a b} less p hp q hq => ?_)
  obtain ⟨position, slot⟩ := a
  obtain ⟨position', slot'⟩ := b
  dsimp only at hp hq
  split at hp
  · obtain ⟨d, _, rfl⟩ := Option.map_eq_some_iff.mp hp
    split at hq
    · obtain ⟨e, _, rfl⟩ := Option.map_eq_some_iff.mp hq
      simpa [Position.lt] using less
    · cases hq
  · cases hp

theorem received_index : ∀ {l : List Instruction} {ps : List (Position × Value)},
    net.received start val l r = .ok ps → ∀ p ∈ ps, ∃ j ∈ l, p.1.instruction = j.index := by
  intro l
  induction l with
  | nil =>
    intro ps h
    cases h
    simp
  | cons i l ih =>
    intro ps h p hp
    rw [received_cons] at h
    cases own : net.sent val (net.adjointAfter start val l) i r with
    | error e => rw [own] at h; cases h
    | ok mine =>
      cases rest : net.received start val l r with
      | error e => rw [own, rest] at h; cases h
      | ok theirs =>
        rw [own, rest] at h
        cases h
        rcases List.mem_append.mp hp with hp | hp
        · refine ⟨i, by simp, ?_⟩
          unfold sent at own
          split at own
          · cases reacts : net.reaction val (net.adjointAfter start val l) i with
            | error e => rw [reacts] at own; cases own
            | ok ders =>
              rw [reacts] at own
              cases own
              exact entriesFor_index hp
          · cases own
            cases hp
        · obtain ⟨j, hj, index⟩ := ih rest p hp
          exact ⟨j, by simp [hj], index⟩

end Net

end Backprop
