import Mathlib.Data.List.Basic
import Mathlib.Data.List.Flatten
import Mathlib.Data.List.Induction
import Mathlib.Data.List.Nodup
import Backprop.Schedule.Check
import Backprop.Schedule.Liveness
/-!
# Uses of slots and the reclamation plan

What the lists that a schedule carries say about each other.

* `lastStep_append_singleton` computes the last step of a longer list; `lastUse_eq_some_iff` reads
  a last use as "this instruction reads the slot and no later one does".
* `ReleasePlan.mem_byStep`: a slot is given back after exactly the step at which it is due.
* `Schedule.WellFormed` is what compilation promises of the slots and the two instruction lists;
  `Schedule.InPlace` is what steps need of it to find their slots.
-/

namespace Backprop

/-- Whether one of the instructions reads a slot. -/
def Read (l : List Instruction) (r : Slot) : Prop := ∃ i ∈ l, r ∈ i.reads

/-- Whether one of the instructions writes a slot. -/
def Written (l : List Instruction) (r : Slot) : Prop := ∃ i ∈ l, r ∈ i.outputs

@[simp] theorem read_nil (r : Slot) : ¬ Read [] r := by simp [Read]

@[simp] theorem written_nil (r : Slot) : ¬ Written [] r := by simp [Written]

@[simp] theorem read_cons (i : Instruction) (l : List Instruction) (r : Slot) :
    Read (i :: l) r ↔ r ∈ i.reads ∨ Read l r := by simp [Read]

theorem written_cons (i : Instruction) (l : List Instruction) (r : Slot) :
    Written (i :: l) r ↔ r ∈ i.outputs ∨ Written l r := by simp [Written]

theorem written_append_singleton (l : List Instruction) (i : Instruction) (r : Slot) :
    Written (l ++ [i]) r ↔ Written l r ∨ r ∈ i.outputs := by
  simp [Written, or_and_right, exists_or]

/-! ### Lists of names -/

section
variable {α β : Type} [BEq α] [LawfulBEq α]

theorem eraseDups_of_nodup : ∀ {l : List α}, l.Nodup → l.eraseDups = l := by
  intro l
  induction l with
  | nil => intro _; rfl
  | cons a l ih =>
    intro nodup
    obtain ⟨new, nodup⟩ := List.nodup_cons.mp nodup
    have keep : l.filter (fun b => !b == a) = l := by
      refine List.filter_eq_self.mpr fun b hb => ?_
      have : b ≠ a := fun eq => new (eq ▸ hb)
      simpa using this
    rw [List.eraseDups_cons, keep, ih nodup]

theorem lookup_of_mem {l : List (α × β)} {p : α × β} (nodup : (l.map (·.1)).Nodup) (h : p ∈ l) :
    l.lookup p.1 = some p.2 := by
  obtain ⟨before, after, rfl⟩ := List.append_of_mem h
  refine List.lookup_eq_some_iff.mpr ⟨before, after, rfl, fun q hq => ?_⟩
  rw [List.map_append, List.nodup_append] at nodup
  have apart := nodup.2.2 q.1 (List.mem_map_of_mem hq) p.1 (by simp)
  simpa using apart.symm

end

/-! ### Last steps -/

section
variable (p : Instruction → Bool)

@[simp] theorem lastStep_nil : lastStep [] p = none := rfl

theorem lastStep_append_singleton (l : List Instruction) (i : Instruction) :
    lastStep (l ++ [i]) p = if p i then some l.length else lastStep l p := by
  simp only [lastStep, List.zipIdx_append, List.filter_append]
  cases h : p i <;> simp [List.zipIdx, h]

theorem lastStep_eq_none_iff (l : List Instruction) :
    lastStep l p = none ↔ ∀ i ∈ l, p i = false := by
  induction l using List.reverseRecOn with
  | nil => simp
  | append_singleton l i ih =>
    rw [lastStep_append_singleton]
    cases h : p i <;> simp [h, ih, or_imp, forall_and]

theorem lastStep_eq_some_iff (l : List Instruction) (k : Nat) :
    lastStep l p = some k ↔
      ∃ pre i post, l = pre ++ i :: post ∧ pre.length = k ∧ p i = true ∧ ∀ j ∈ post, p j = false := by
  induction l using List.reverseRecOn with
  | nil => simp
  | append_singleton l i ih =>
    rw [lastStep_append_singleton]
    cases h : p i with
    | true =>
      simp only [if_true, Option.some.injEq]
      constructor
      · intro len
        exact ⟨l, i, [], rfl, len, h, by simp⟩
      · rintro ⟨pre, j, post, split, len, _, none⟩
        rcases List.eq_nil_or_concat post with rfl | ⟨post', x, rfl⟩
        · have := congrArg List.length split
          simp only [List.length_append, List.length_cons, List.length_nil] at this
          omega
        · have split' : l ++ [i] = (pre ++ j :: post') ++ [x] := by simpa using split
          have last := (List.append_inj' split' rfl).2
          have := none x (by simp)
          rw [← List.singleton_inj.mp last, h] at this
          cases this
    | false =>
      simp only [Bool.false_eq_true, if_false, ih]
      constructor
      · rintro ⟨pre, j, post, rfl, len, hj, none⟩
        refine ⟨pre, j, post ++ [i], by simp, len, hj, ?_⟩
        intro x hx
        rcases List.mem_append.mp hx with hx | hx
        · exact none x hx
        · rw [List.mem_singleton.mp hx, h]
      · rintro ⟨pre, j, post, split, len, hj, none⟩
        rcases List.eq_nil_or_concat post with rfl | ⟨post', x, rfl⟩
        · have last : i = j := by simpa using congrArg List.getLast? split
          rw [← last, h] at hj
          cases hj
        · have split' : l ++ [i] = (pre ++ j :: post') ++ [x] := by simpa using split
          have parts := (List.append_inj' split' rfl).1
          exact ⟨pre, j, post', parts, len, hj, fun y hy => none y (by simp [hy])⟩

end

theorem lastUse_eq_none_iff (l : List Instruction) (r : Slot) :
    lastUse l r = none ↔ ¬ Read l r := by
  simp [lastUse, lastStep_eq_none_iff, Read]

/-- The step between two parts of a list is the last to read a slot if its instruction reads it and
the second part does not. -/
theorem lastUse_split (pre post : List Instruction) (i : Instruction) (r : Slot) :
    lastUse (pre ++ i :: post) r = some pre.length ↔ r ∈ i.reads ∧ ¬ Read post r := by
  simp only [lastUse, lastStep_eq_some_iff, Read, List.contains_eq_mem, decide_eq_true_eq,
    decide_eq_false_iff_not]
  constructor
  · rintro ⟨pre', i', post', split, len, hi, none⟩
    obtain ⟨rfl, tail⟩ := List.append_inj split len.symm
    cases tail
    exact ⟨hi, fun ⟨j, hj, read⟩ => none j hj read⟩
  · rintro ⟨hi, none⟩
    exact ⟨pre, i, post, rfl, rfl, hi, fun j hj read => none ⟨j, hj, read⟩⟩

/-- If one instruction alone writes a slot, its step is the producer. -/
theorem producerOf_split (pre post : List Instruction) (i : Instruction) (r : Slot) :
    producerOf (pre ++ i :: post) r = some pre.length ↔ r ∈ i.outputs ∧ ¬ Written post r := by
  simp only [producerOf, lastStep_eq_some_iff, Written, List.contains_eq_mem, decide_eq_true_eq,
    decide_eq_false_iff_not]
  constructor
  · rintro ⟨pre', i', post', split, len, hi, none⟩
    obtain ⟨rfl, tail⟩ := List.append_inj split len.symm
    cases tail
    exact ⟨hi, fun ⟨j, hj, written⟩ => none j hj written⟩
  · rintro ⟨hi, none⟩
    exact ⟨pre, i, post, rfl, rfl, hi, fun j hj written => none ⟨j, hj, written⟩⟩

/-! ### The plan -/

namespace ReleasePlan

theorem mem_byStep {slots : List SlotInfo} {n k : Nat} {due : SlotInfo → Option Nat} {r : Slot}
    (h : k < n) : r ∈ (byStep slots n due).getD k [] ↔
      ∃ info ∈ slots, info.index = r ∧ info.reclaimable = true ∧ due info = some k := by
  have entry : (byStep slots n due).getD k [] =
      (slots.filter fun s => s.reclaimable && due s == some k).map (·.index) := by
    simp [byStep, List.getD_eq_getElem?_getD, List.getElem?_range h]
  rw [entry]
  simp only [List.mem_map, List.mem_filter, Bool.and_eq_true, beq_iff_eq]
  constructor
  · rintro ⟨info, ⟨mem, reclaimable, due⟩, index⟩
    exact ⟨info, mem, index, reclaimable, due⟩
  · rintro ⟨info, mem, index, reclaimable, due⟩
    exact ⟨info, ⟨mem, reclaimable, due⟩, index⟩

theorem eq_of_ofSlots {slots : List SlotInfo} {n m : Nat} {plan : ReleasePlan}
    (h : ofSlots slots n m = .ok plan) :
    plan.forwardOnly = byStep slots n SlotInfo.lastForwardNeed ∧
    plan.forward = byStep slots n dueBeforeBackward ∧
    plan.backwardValues = byStep slots m SlotInfo.lastBackwardUse ∧
    plan.backwardDers = byStep slots m SlotInfo.producerBackward := by
  unfold ofSlots at h
  split at h
  · cases h
    exact ⟨rfl, rfl, rfl, rfl⟩
  · cases h

end ReleasePlan

/-! ### Well-formed schedules -/

namespace Schedule

/-- Whether a slot holds an input or a parameter. -/
def IsLeaf (s : Schedule) (r : Slot) : Prop := ∃ info ∈ s.slots, info.index = r ∧ info.kind ≠ .op

/-- Whether there is a slot with this number. -/
def HasSlot (s : Schedule) (r : Slot) : Prop := ∃ info ∈ s.slots, info.index = r

def IsParam (s : Schedule) (r : Slot) : Prop := ∃ info ∈ s.slots, info.index = r ∧ info.kind = .param

def IsRetained (s : Schedule) (r : Slot) : Prop :=
  ∃ info ∈ s.slots, info.index = r ∧ info.retained = true

/-- Whether a value in a slot is kept while the instructions of a list are still to be run. Without
conservation everything is. -/
def Wanted (s : Schedule) (conserve : Bool) (rest : List Instruction) (r : Slot) : Prop :=
  conserve = false ∨ s.IsParam r ∨ s.IsRetained r ∨ Read rest r

/-- What a forward pass gives back after each instruction. -/
def releasedForward (s : Schedule) (keep : Bool) : List (List Slot) :=
  if keep then s.release.forward else s.release.forwardOnly

/-- The instructions that read values after those of a forward pass before `post` have run. -/
def readersAfter (s : Schedule) (keep : Bool) (post : List Instruction) : List Instruction :=
  if keep then post ++ s.backward else post

theorem read_readersAfter (s : Schedule) (keep : Bool) (post : List Instruction) (r : Slot) :
    Read (s.readersAfter keep post) r ↔ Read post r ∨ keep = true ∧ Read s.backward r := by
  cases keep <;> simp [readersAfter, Read, or_and_right, exists_or]

/-- What compilation promises: slots are numbered by their places, every instruction reads leaves and
what earlier ones wrote, every slot of an operation is written once, the backward list is the reversed
list of the instructions that require a gradient, and the plan is that of the uses. -/
structure WellFormed (s : Schedule) : Prop where
  slotIndex : ∀ (k : Nat) (info : SlotInfo), s.slots[k]? = some info → info.index = (k : Int)
  instructionIndex : ∀ (k : Nat) (i : Instruction), s.forward[k]? = some i → i.index = k
  outputsOp : ∀ i ∈ s.forward, ∀ o ∈ i.outputs, ∃ info ∈ s.slots, info.index = o ∧ info.kind = .op
  opWritten : ∀ info ∈ s.slots, info.kind = .op → Written s.forward info.index
  writtenOnce : (s.forward.flatMap (·.outputs)).Nodup
  readsBefore : ∀ pre i post, s.forward = pre ++ i :: post →
    ∀ r ∈ i.reads, s.IsLeaf r ∨ Written pre r
  gradientArgs : ∀ i ∈ s.forward, ∀ q ∈ i.gradientPositions, i.args[q.1]? = some (.slot q.2)
  gradientOrder : ∀ i ∈ s.forward, (i.gradientPositions.map (·.1)).Pairwise (· < ·)
  backwardList : s.backward = (s.forward.filter (·.requiresGradient)).reverse
  uses : ∀ info ∈ s.slots, info = info.withUses s.forward s.backward
  plan : ReleasePlan.ofSlots s.slots s.forward.length s.backward.length = .ok s.release
  persistent : ∀ info ∈ s.slots, info.persistent = decide (info.kind = .param)
  leafNeeded : ∀ info ∈ s.slots, info.kind ≠ .op → info.reclaimable = true →
    Read s.forward info.index
  terminalSlots : ∀ r ∈ s.terminals, ∃ info ∈ s.slots, info.index = r ∧ info.retained = true
  nameSlots : ∀ p ∈ s.names, s.HasSlot p.2
  inputNames : ((s.slots.filter (·.kind = .input)).map (·.name)).Nodup

/-- Where slots are numbered by their places, these are their numbers. -/
theorem hasSlot_iff {s : Schedule}
    (numbered : ∀ (k : Nat) (info : SlotInfo), s.slots[k]? = some info → info.index = (k : Int))
    (r : Int) : s.HasSlot r ↔ 0 ≤ r ∧ r < s.slots.length := by
  constructor
  · rintro ⟨info, mem, index⟩
    obtain ⟨k, hk⟩ := List.getElem?_of_mem mem
    have bound := (List.getElem?_eq_some_iff.mp hk).1
    have place : r = k := index.symm.trans (numbered k info hk)
    omega
  · rintro ⟨low, high⟩
    have bound : r.toNat < s.slots.length := by omega
    refine ⟨s.slots[r.toNat], List.getElem_mem bound, ?_⟩
    exact (numbered r.toNat _ (List.getElem?_eq_getElem bound)).trans (Int.toNat_of_nonneg low)

/-- Slots and instructions stand where they say, and instructions refer to slots that there are. -/
structure InPlace (s : Schedule) : Prop where
  slotIndex : ∀ (k : Nat) (info : SlotInfo), s.slots[k]? = some info → info.index = (k : Int)
  instructionIndex : ∀ (k : Nat) (i : Instruction), s.forward[k]? = some i → i.index = k
  slotsExist : ∀ i ∈ s.forward, ∀ r ∈ i.reads ++ i.outputs, s.HasSlot r

namespace InPlace

variable {s : Schedule} (inPlace : s.InPlace)
include inPlace

theorem reads_hasSlot {i : Instruction} (hi : i ∈ s.forward) {r : Slot} (h : r ∈ i.reads) :
    s.HasSlot r :=
  inPlace.slotsExist i hi r (List.mem_append_left _ h)

theorem outputs_hasSlot {i : Instruction} (hi : i ∈ s.forward) {r : Slot} (h : r ∈ i.outputs) :
    s.HasSlot r :=
  inPlace.slotsExist i hi r (List.mem_append_right _ h)

/-- Instructions with the same index are the same. -/
theorem instruction_unique {i j : Instruction} (hi : i ∈ s.forward) (hj : j ∈ s.forward)
    (same : i.index = j.index) : i = j := by
  obtain ⟨m, hm⟩ := List.getElem?_of_mem hi
  obtain ⟨n, hn⟩ := List.getElem?_of_mem hj
  rw [inPlace.instructionIndex m i hm, inPlace.instructionIndex n j hn] at same
  subst same
  rw [hm] at hn
  exact Option.some.inj hn

end InPlace

namespace WellFormed

variable {s : Schedule} (wf : s.WellFormed)
include wf

/-- A slot has one description. -/
theorem info_unique {a b : SlotInfo} (ha : a ∈ s.slots) (hb : b ∈ s.slots)
    (same : a.index = b.index) : a = b := by
  obtain ⟨j, hj⟩ := List.getElem?_of_mem ha
  obtain ⟨k, hk⟩ := List.getElem?_of_mem hb
  have places : (j : Int) = k := by rw [← wf.slotIndex j a hj, ← wf.slotIndex k b hk, same]
  have : j = k := by omega
  subst this
  rw [hj] at hk
  exact Option.some.inj hk

/-- No instruction writes a leaf. -/
theorem not_written_of_isLeaf {r : Slot} (leaf : s.IsLeaf r) : ¬ Written s.forward r := by
  rintro ⟨i, hi, output⟩
  obtain ⟨a, ha, rfl, kind⟩ := leaf
  obtain ⟨b, hb, same, op⟩ := wf.outputsOp i hi _ output
  rw [wf.info_unique hb ha same] at op
  exact kind op

/-- An instruction and those behind it write different slots. -/
theorem outputs_apart {pre post : List Instruction} {i : Instruction}
    (split : s.forward = pre ++ i :: post) {r : Slot} (h : r ∈ i.outputs) :
    ¬ Written pre r ∧ ¬ Written post r := by
  have once := wf.writtenOnce
  rw [split, List.flatMap_append, List.flatMap_cons, List.nodup_append] at once
  obtain ⟨_, rest, apart⟩ := once
  refine ⟨?_, ?_⟩
  · rintro ⟨j, hj, hr⟩
    exact apart r (List.mem_flatMap.mpr ⟨j, hj, hr⟩) r (by simp [h]) rfl
  · rintro ⟨j, hj, hr⟩
    exact (List.nodup_append.mp rest).2.2 r h r (List.mem_flatMap.mpr ⟨j, hj, hr⟩) rfl

theorem outputs_nodup {i : Instruction} (hi : i ∈ s.forward) : i.outputs.Nodup := by
  obtain ⟨pre, post, split⟩ := List.append_of_mem hi
  have once := wf.writtenOnce
  rw [split, List.flatMap_append, List.flatMap_cons] at once
  exact (List.nodup_append.mp (List.nodup_append.mp once).2.1).1

/-- What an instruction reads is not written by it or by a later one. -/
theorem reads_not_later {pre post : List Instruction} {i : Instruction}
    (split : s.forward = pre ++ i :: post) {r : Slot} (h : r ∈ i.reads) :
    r ∉ i.outputs ∧ ¬ Written post r := by
  rcases wf.readsBefore pre i post split r h with leaf | ⟨j, hj, output⟩
  · have none := wf.not_written_of_isLeaf leaf
    rw [split] at none
    exact ⟨fun hr => none ⟨i, by simp, hr⟩, fun ⟨j, hj, hr⟩ => none ⟨j, by simp [hj], hr⟩⟩
  · obtain ⟨before, after, eq⟩ := List.append_of_mem hj
    have split' : s.forward = before ++ j :: (after ++ i :: post) := by
      rw [split, eq]
      simp
    have apart := (wf.outputs_apart split' output).2
    exact ⟨fun hr => apart ⟨i, by simp, hr⟩, fun ⟨k, hk, hr⟩ => apart ⟨k, by simp [hk], hr⟩⟩

theorem reads_hasSlot {i : Instruction} (hi : i ∈ s.forward) {r : Slot} (h : r ∈ i.reads) :
    s.HasSlot r := by
  obtain ⟨pre, post, split⟩ := List.append_of_mem hi
  rcases wf.readsBefore pre i post split r h with ⟨info, mem, index, _⟩ | ⟨j, hj, output⟩
  · exact ⟨info, mem, index⟩
  · obtain ⟨info, mem, index, _⟩ := wf.outputsOp j (by rw [split]; simp [hj]) r output
    exact ⟨info, mem, index⟩

/-- Every slot is a leaf or written. -/
theorem available {r : Slot} (has : s.HasSlot r) : s.IsLeaf r ∨ Written s.forward r := by
  obtain ⟨info, mem, rfl⟩ := has
  by_cases op : info.kind = .op
  · exact .inr (wf.opWritten info mem op)
  · exact .inl ⟨info, mem, rfl, op⟩

theorem outputs_hasSlot {i : Instruction} (hi : i ∈ s.forward) {r : Slot} (h : r ∈ i.outputs) :
    s.HasSlot r := by
  obtain ⟨info, mem, index, _⟩ := wf.outputsOp i hi r h
  exact ⟨info, mem, index⟩

theorem inPlace : s.InPlace where
  slotIndex := wf.slotIndex
  instructionIndex := wf.instructionIndex
  slotsExist _ hi _ hr := (List.mem_append.mp hr).elim (wf.reads_hasSlot hi) (wf.outputs_hasSlot hi)

theorem hasSlot_iff (r : Int) : s.HasSlot r ↔ 0 ≤ r ∧ r < s.slots.length :=
  Schedule.hasSlot_iff wf.slotIndex r

/-- The slots of gradient positions are among those that are read. -/
theorem gradient_reads {i : Instruction} (hi : i ∈ s.forward) {q : Nat × Slot}
    (h : q ∈ i.gradientPositions) : q.2 ∈ i.reads := by
  have arg := wf.gradientArgs i hi q h
  refine List.mem_append_left _ (List.mem_filterMap.mpr ⟨_, List.mem_of_getElem? arg, rfl⟩)

theorem mem_forward_of_backward {i : Instruction} (h : i ∈ s.backward) : i ∈ s.forward := by
  rw [wf.backwardList] at h
  simp only [List.mem_reverse, List.mem_filter] at h
  exact h.1

theorem index_of_split {pre post : List Instruction} {i : Instruction}
    (split : s.forward = pre ++ i :: post) : i.index = pre.length :=
  wf.instructionIndex pre.length i (by rw [split]; simp)

theorem forward_sorted : s.forward.Pairwise fun i j => i.index < j.index := by
  rw [List.pairwise_iff_getElem]
  intro m n hm hn less
  rw [wf.instructionIndex m _ (List.getElem?_eq_getElem hm),
    wf.instructionIndex n _ (List.getElem?_eq_getElem hn)]
  exact less

/-- Around an instruction of the backward list stand earlier ones after it and later ones before. -/
theorem forward_of_backward {rest done : List Instruction} {i : Instruction}
    (split : s.backward = done.reverse ++ i :: rest) :
    s.forward.filter (·.requiresGradient) = rest.reverse ++ i :: done := by
  have reversed := congrArg List.reverse (wf.backwardList.symm.trans split)
  simpa using reversed

/-- The backward list runs through the indices downwards. -/
theorem index_lt_of_backward {rest done : List Instruction} {i : Instruction}
    (split : s.backward = done.reverse ++ i :: rest) : ∀ j ∈ done, i.index < j.index := by
  have sorted := wf.forward_sorted.sublist (List.filter_sublist (p := (·.requiresGradient)))
  rw [wf.forward_of_backward split] at sorted
  exact (List.pairwise_cons.mp (List.pairwise_append.mp sorted).2.1).1

/-- Instructions that have run backward before another one stand behind it in the forward list. -/
theorem behind_of_backward {rest done pre post : List Instruction} {i : Instruction}
    (split : s.backward = done.reverse ++ i :: rest) (split' : s.forward = pre ++ i :: post) :
    ∀ j ∈ done, j ∈ post := by
  intro j hj
  have less := wf.index_lt_of_backward split j hj
  have member : j ∈ s.forward := wf.mem_forward_of_backward (by rw [split]; simp [hj])
  have sorted := wf.forward_sorted
  rw [split'] at member sorted
  rcases List.mem_append.mp member with before | after
  · have := (List.pairwise_append.mp sorted).2.2 j before i (by simp)
    omega
  · rcases List.mem_cons.mp after with rfl | after
    · omega
    · exact after

theorem requiresGradient_of_backward {i : Instruction} (h : i ∈ s.backward) :
    i.requiresGradient = true := by
  rw [wf.backwardList, List.mem_reverse] at h
  exact (List.mem_filter.mp h).2

/-! ### What the plan gives back -/

theorem isParam_iff {info : SlotInfo} (h : info ∈ s.slots) :
    s.IsParam info.index ↔ info.persistent = true := by
  rw [wf.persistent info h, decide_eq_true_iff]
  constructor
  · rintro ⟨other, mem, same, kind⟩
    rwa [← wf.info_unique mem h same]
  · exact fun kind => ⟨info, h, rfl, kind⟩

theorem isRetained_iff {info : SlotInfo} (h : info ∈ s.slots) :
    s.IsRetained info.index ↔ info.retained = true := by
  constructor
  · rintro ⟨other, mem, same, retained⟩
    rwa [← wf.info_unique mem h same]
  · exact fun retained => ⟨info, h, rfl, retained⟩

theorem reclaimable_iff {info : SlotInfo} (h : info ∈ s.slots) :
    info.reclaimable = true ↔ ¬ s.IsParam info.index ∧ ¬ s.IsRetained info.index := by
  rw [wf.isParam_iff h, wf.isRetained_iff h, SlotInfo.reclaimable]
  cases info.persistent <;> cases info.retained <;> decide

/-- A step of a plan gives back the reclaimable slots that are due at it. -/
theorem mem_plan {n k : Nat} {due : SlotInfo → Option Nat} (dueAt : Slot → Prop) {r : Slot}
    (bound : k < n) (spec : ∀ info ∈ s.slots, due info = some k ↔ dueAt info.index) :
    r ∈ (ReleasePlan.byStep s.slots n due).getD k [] ↔
      s.HasSlot r ∧ ¬ s.IsParam r ∧ ¬ s.IsRetained r ∧ dueAt r := by
  rw [ReleasePlan.mem_byStep bound]
  constructor
  · rintro ⟨info, mem, rfl, reclaimable, step⟩
    obtain ⟨param, retained⟩ := (wf.reclaimable_iff mem).mp reclaimable
    exact ⟨⟨info, mem, rfl⟩, param, retained, (spec info mem).mp step⟩
  · rintro ⟨⟨info, mem, rfl⟩, param, retained, step⟩
    exact ⟨info, mem, rfl, (wf.reclaimable_iff mem).mpr ⟨param, retained⟩, (spec info mem).mpr step⟩

/-- Without a backward pass a value goes after its last reader, or after its writer if nobody reads
it. -/
theorem mem_releasedForward {pre post : List Instruction} {i : Instruction} (keep : Bool)
    (split : s.forward = pre ++ i :: post) (r : Slot) :
    r ∈ (s.releasedForward keep).getD i.index [] ↔
      s.HasSlot r ∧ ¬ s.IsParam r ∧ ¬ s.IsRetained r ∧ ¬ (keep = true ∧ Read s.backward r) ∧
        (r ∈ i.reads ∧ ¬ Read post r ∨ ¬ Read s.forward r ∧ r ∈ i.outputs) := by
  have index := wf.index_of_split split
  have bound : i.index < s.forward.length := by rw [index, split]; simp
  obtain ⟨only, both, _, _⟩ := ReleasePlan.eq_of_ofSlots wf.plan
  have need : ∀ info ∈ s.slots, info.lastForwardNeed = some i.index ↔
      info.index ∈ i.reads ∧ ¬ Read post info.index ∨
        ¬ Read s.forward info.index ∧ info.index ∈ i.outputs := by
    intro info mem
    have use : info.lastForwardUse = lastUse s.forward info.index :=
      congrArg SlotInfo.lastForwardUse (wf.uses info mem)
    have producer : info.producer = producerOf s.forward info.index :=
      congrArg SlotInfo.producer (wf.uses info mem)
    have atUse := lastUse_split pre post i info.index
    have atProducer := producerOf_split pre post i info.index
    rw [← split, ← index, ← use] at atUse
    rw [← split, ← index, ← producer] at atProducer
    have unread := lastUse_eq_none_iff s.forward info.index
    rw [← use] at unread
    rw [SlotInfo.lastForwardNeed, Option.or_eq_some_iff, atUse, atProducer, unread]
    have apart := fun h => (wf.outputs_apart split (r := info.index) h).2
    grind
  cases keep with
  | false =>
    have plan : s.releasedForward false = ReleasePlan.byStep s.slots s.forward.length
      SlotInfo.lastForwardNeed := only
    rw [plan, wf.mem_plan (fun r => r ∈ i.reads ∧ ¬ Read post r ∨
      ¬ Read s.forward r ∧ r ∈ i.outputs) bound need]
    simp
  | true =>
    have plan : s.releasedForward true = ReleasePlan.byStep s.slots s.forward.length
      ReleasePlan.dueBeforeBackward := both
    rw [plan, wf.mem_plan (fun r => ¬ Read s.backward r ∧
      (r ∈ i.reads ∧ ¬ Read post r ∨ ¬ Read s.forward r ∧ r ∈ i.outputs)) bound]
    · simp
    · intro info mem
      have use : info.lastBackwardUse = lastUse s.backward info.index :=
        congrArg SlotInfo.lastBackwardUse (wf.uses info mem)
      rw [ReleasePlan.dueBeforeBackward, use, ← need info mem]
      have unread := lastUse_eq_none_iff s.backward info.index
      cases last : lastUse s.backward info.index with
      | none => simp [unread.mp last]
      | some k =>
        have read : Read s.backward info.index := by
          by_contra none
          rw [unread.mpr none] at last
          cases last
        simp [read]

/-- A backward pass gives back a value after its last reader. -/
theorem mem_backwardValues {pre post : List Instruction} {i : Instruction}
    (split : s.backward = pre ++ i :: post) (r : Slot) :
    r ∈ s.release.backwardValues.getD pre.length [] ↔
      s.HasSlot r ∧ ¬ s.IsParam r ∧ ¬ s.IsRetained r ∧ r ∈ i.reads ∧ ¬ Read post r := by
  obtain ⟨_, _, plan, _⟩ := ReleasePlan.eq_of_ofSlots wf.plan
  rw [plan, wf.mem_plan (fun r => r ∈ i.reads ∧ ¬ Read post r)]
  · rw [split]
    simp
  · intro info mem
    have use : info.lastBackwardUse = lastUse s.backward info.index :=
      congrArg SlotInfo.lastBackwardUse (wf.uses info mem)
    rw [use, split]
    exact lastUse_split pre post i info.index

/-- Before and after an instruction of the backward list, other ones write its outputs nowhere. -/
theorem backward_outputs_apart {pre post : List Instruction} {i : Instruction}
    (split : s.backward = pre ++ i :: post) {r : Slot} (h : r ∈ i.outputs) :
    ¬ Written pre r ∧ ¬ Written post r := by
  have once := wf.writtenOnce
  have sub : (s.backward.reverse.flatMap (·.outputs)).Nodup := by
    rw [wf.backwardList, List.reverse_reverse]
    exact once.sublist (List.filter_sublist.flatMap _)
  rw [split, List.reverse_append, List.reverse_cons, List.append_assoc, List.flatMap_append,
    List.singleton_append, List.flatMap_cons, List.nodup_append] at sub
  obtain ⟨_, rest, apart⟩ := sub
  refine ⟨?_, ?_⟩
  · rintro ⟨j, hj, hr⟩
    exact (List.nodup_append.mp rest).2.2 r h r
      (List.mem_flatMap.mpr ⟨j, List.mem_reverse.mpr hj, hr⟩) rfl
  · rintro ⟨j, hj, hr⟩
    exact apart r (List.mem_flatMap.mpr ⟨j, List.mem_reverse.mpr hj, hr⟩) r (by simp [h]) rfl

/-- A backward pass gives back a derivative when the instruction that wrote the slot has run. -/
theorem mem_backwardDers {pre post : List Instruction} {i : Instruction}
    (split : s.backward = pre ++ i :: post) (r : Slot) :
    r ∈ s.release.backwardDers.getD pre.length [] ↔
      s.HasSlot r ∧ ¬ s.IsParam r ∧ ¬ s.IsRetained r ∧ r ∈ i.outputs := by
  obtain ⟨_, _, _, plan⟩ := ReleasePlan.eq_of_ofSlots wf.plan
  rw [plan, wf.mem_plan (fun r => r ∈ i.outputs)]
  · rw [split]
    simp
  · intro info mem
    have producer : info.producerBackward = producerOf s.backward info.index :=
      congrArg SlotInfo.producerBackward (wf.uses info mem)
    rw [producer, split]
    refine (producerOf_split pre post i info.index).trans ⟨fun h => h.1, fun h => ⟨h, ?_⟩⟩
    exact (wf.backward_outputs_apart split h).2

/-! ### Values that are wanted -/

/-- A step of a forward pass keeps and drops what the list of later readers says. -/
theorem wanted_forward {pre post : List Instruction} {i : Instruction} (conserve keep : Bool)
    (split : s.forward = pre ++ i :: post) {r : Slot} (has : s.HasSlot r) :
    (s.IsLeaf r ∨ Written (pre ++ [i]) r) ∧ s.Wanted conserve (s.readersAfter keep post) r ↔
      ¬ (conserve = true ∧ r ∈ (s.releasedForward keep).getD i.index []) ∧
        (r ∈ i.outputs ∨ (s.IsLeaf r ∨ Written pre r) ∧
          s.Wanted conserve (s.readersAfter keep (i :: post)) r) := by
  have here : i ∈ s.forward := by rw [split]; simp
  have param : s.IsParam r → s.IsLeaf r := by
    rintro ⟨info, mem, index, kind⟩
    exact ⟨info, mem, index, by rw [kind]; decide⟩
  have leaf : s.IsLeaf r → r ∉ i.outputs := fun h out => wf.not_written_of_isLeaf h ⟨i, here, out⟩
  have unread : r ∈ i.outputs → r ∉ i.reads := fun out read => (wf.reads_not_later split read).1 out
  have all : Read s.forward r ↔ Read pre r ∨ r ∈ i.reads ∨ Read post r := by
    rw [split]
    simp [Read, or_and_right, exists_or]
  have before : r ∈ i.outputs → ¬ Read pre r := by
    rintro out ⟨j, hj, read⟩
    obtain ⟨a, b, rfl⟩ := List.append_of_mem hj
    have split' : s.forward = a ++ j :: (b ++ i :: post) := by rw [split]; simp
    exact (wf.reads_not_later split' read).2 ⟨i, by simp, out⟩
  rw [wf.mem_releasedForward keep split, written_append_singleton]
  simp only [Wanted, read_readersAfter, read_cons]
  cases conserve with
  | false =>
    simp only [Bool.false_eq_true, false_and, not_false_iff, true_or, true_and, and_true]
    grind
  | true =>
    simp only [Bool.true_eq_false, false_or, true_and, has]
    by_cases out : r ∈ i.outputs
    · have noLeaf : ¬ s.IsLeaf r := fun h => leaf h out
      have noParam : ¬ s.IsParam r := fun h => noLeaf (param h)
      simp only [out, noParam, unread out, before out, all, false_or, or_true, true_and, and_true,
        not_false_iff, false_and, not_and, not_not]
      grind
    · simp only [out, and_false, or_false, false_or]
      grind

/-- So does a step of a backward pass. -/
theorem wanted_backward {pre post : List Instruction} {i : Instruction} (conserve : Bool)
    (split : s.backward = pre ++ i :: post) {r : Slot} (has : s.HasSlot r) :
    s.Wanted conserve post r ↔
      ¬ (conserve = true ∧ r ∈ s.release.backwardValues.getD pre.length []) ∧
        s.Wanted conserve (i :: post) r := by
  rw [wf.mem_backwardValues split]
  simp only [Wanted, read_cons]
  grind

/-- After an instruction the derivatives of its outputs are given back that nobody keeps. -/
theorem dropped_iff {pre post : List Instruction} {i : Instruction} (conserve : Bool)
    (split : s.backward = pre ++ i :: post) {r : Slot} (has : s.HasSlot r) :
    (conserve = true ∧ r ∈ s.release.backwardDers.getD pre.length []) ↔
      r ∈ i.outputs ∧ ¬ s.Wanted conserve [] r := by
  rw [wf.mem_backwardDers split]
  simp only [Wanted, read_nil, or_false, not_or, Bool.not_eq_false]
  constructor
  · rintro ⟨on, _, param, retained, out⟩
    exact ⟨out, on, param, retained⟩
  · rintro ⟨out, on, param, retained⟩
    exact ⟨on, has, param, retained, out⟩

/-! ### Inputs by name -/

/-- Inputs have different names, so each stands for its own slot. -/
theorem inputSlots_eq : s.inputSlots =
    (s.slots.filter (·.kind = .input)).map fun info => (info.name, info.index) := by
  let all := (s.slots.filter (·.kind = .input)).map fun info => (info.name, info.index)
  have names : (all.map (·.1)).Nodup := by
    have : all.map (·.1) = (s.slots.filter (·.kind = .input)).map (·.name) := by simp [all]
    rw [this]
    exact wf.inputNames
  have reversed : (all.reverse.map (·.1)).Nodup := by
    rw [List.map_reverse]
    exact List.nodup_reverse.mpr names
  change ((all.map (·.1)).eraseDups).filterMap
    (fun name => (all.reverse.lookup name).map fun slot => (name, slot)) = all
  rw [eraseDups_of_nodup names, List.filterMap_map]
  have each : ∀ p ∈ all, ((fun name => (all.reverse.lookup name).map fun slot => (name, slot)) ∘
      (·.1)) p = some p := by
    intro p hp
    simp [lookup_of_mem reversed (List.mem_reverse.mpr hp)]
  rw [List.filterMap_congr each, List.filterMap_some]

theorem lookup_inputSlots {p : String × Slot} (mem : p ∈ s.inputSlots) :
    s.inputSlots.lookup p.1 = some p.2 := by
  have names : (s.inputSlots.map (·.1)).Nodup := by
    rw [wf.inputSlots_eq, List.map_map]
    exact wf.inputNames
  exact lookup_of_mem names mem

theorem mem_inputSlots {p : String × Slot} : p ∈ s.inputSlots ↔
    ∃ info ∈ s.slots, info.kind = .input ∧ p = (info.name, info.index) := by
  rw [wf.inputSlots_eq]
  simp only [List.mem_map, List.mem_filter, decide_eq_true_eq, and_assoc]
  exact ⟨fun ⟨info, mem, kind, eq⟩ => ⟨info, mem, kind, eq.symm⟩,
    fun ⟨info, mem, kind, eq⟩ => ⟨info, mem, kind, eq.symm⟩⟩

end WellFormed

end Schedule

end Backprop
