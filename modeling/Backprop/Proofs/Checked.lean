import Mathlib
import Backprop.Proofs.Nets
/-!
# Compiled schedules represent their graph

* `Schedule.Lawful` lists the laws of schedules; `Schedule.check_eq_ok_iff`: the check accepts the
  schedules that keep them, each part those that keep its own.
* `Schedule.Represents` says how a schedule stands for what its terminals depend on: which slots there
  are, which instructions, and what they read and write.
* `Workspace.Built.compile_represents`: the compiler yields such a schedule, and its check accepts it.
-/

namespace Backprop

open Workspace

/-! ### The check -/

/-- In lists that share nothing, an element is in one of them, if in any. -/
theorem countP_contains {α β : Type} [BEq β] [LawfulBEq β] [DecidableEq β] {f : α → List β} {b : β} {l : List α}
    (nodup : (l.flatMap f).Nodup) :
    l.countP (fun a => (f a).contains b) = if b ∈ l.flatMap f then 1 else 0 := by
  induction l with
  | nil => rfl
  | cons a l ih =>
    rw [List.flatMap_cons] at nodup ⊢
    obtain ⟨_, rest, apart⟩ := List.nodup_append.mp nodup
    rw [List.countP_cons, ih rest]
    by_cases here : b ∈ f a
    · have later : b ∉ l.flatMap f := fun there => apart b here b there rfl
      simp [here, later]
    · simp [here]

namespace Schedule

variable {s : Schedule}

theorem mem_leafSlots {r : Slot} : r ∈ s.leafSlots ↔ s.IsLeaf r := by
  simp only [leafSlots, List.mem_eraseDups, List.mem_map, List.mem_filter, decide_eq_true_eq, IsLeaf,
    and_assoc, and_comm]

theorem slotExists_iff {r : Slot} : s.slotExists r = true ↔ 0 ≤ r ∧ r < s.slots.length := by
  simp [slotExists]

theorem ite_eq_ok_iff {p : Prop} [Decidable p] {e : Error} :
    (if p then Except.ok () else Except.error e) = .ok () ↔ p := by
  split <;> simp [*]

/-- Slots are accepted that stand where they say, if whatever is referred to is among them. -/
theorem checkSlots_eq_ok_iff : s.checkSlots = .ok () ↔
    (∀ (k : Nat) (info : SlotInfo), s.slots[k]? = some info → info.index = (k : Int)) ∧
    (∀ i ∈ s.forward, ∀ r ∈ i.reads ++ i.outputs, 0 ≤ r ∧ r < s.slots.length) ∧
    ∀ p ∈ s.names, 0 ≤ p.2 ∧ p.2 < s.slots.length := by
  simp only [checkSlots, seq_eq_ok_iff, forM_eq_ok_iff, ite_eq_ok_iff, slotExists_iff]
  refine and_congr ⟨fun h k info found => ?_, fun h p hp => ?_⟩ Iff.rfl
  · exact h (info, k) (List.mem_zipIdx_iff_getElem?.mpr found)
  · exact h p.2 p.1 (List.mem_zipIdx_iff_getElem?.mp hp)

/-- Instructions are accepted that stand where they say and read only what is there by then. -/
theorem checkOrder_eq_ok_iff {l : List Instruction} : ∀ {available : List Slot} {step : Nat},
    checkOrder available step l = .ok () ↔
      (∀ (k : Nat) (i : Instruction), l[k]? = some i → i.index = step + k) ∧
        ∀ pre i post, l = pre ++ i :: post → ∀ r ∈ i.reads, r ∈ available ∨ Written pre r := by
  induction l with
  | nil => exact iff_of_true rfl ⟨by simp, fun pre i post split => by simp at split⟩
  | cons i l ih =>
    intro available step
    by_cases place : i.index = step
    case neg =>
      refine iff_of_false ?_ fun h => place (h.1 0 i rfl)
      simp only [checkOrder, ne_eq, place, not_false_eq_true, if_true]
      rintro ⟨⟩
    by_cases known : ∀ r ∈ i.reads, r ∈ available
    case neg =>
      refine iff_of_false ?_ fun h => known fun r hr => ?_
      · have missing : (i.reads.filter fun slot => !available.contains slot) ≠ [] := by
          simpa [List.filter_eq_nil_iff] using known
        simp only [checkOrder, place, ne_eq, not_true_eq_false, if_false, List.isEmpty_eq_false_iff.mpr
          missing, Bool.not_false, if_true]
        rintro ⟨⟩
      · simpa using h.2 [] i l rfl r hr
    have missing : (i.reads.filter fun slot => !available.contains slot) = [] := by
      simpa [List.filter_eq_nil_iff] using known
    have next : checkOrder available step (i :: l) =
        checkOrder (available ++ i.outputs) (step + 1) l := by
      rw [checkOrder, if_neg (by simp [place]), missing]
      rfl
    rw [next, ih]
    constructor
    · rintro ⟨places, reads⟩
      constructor
      · rintro (_ | k) j found
        · cases found
          exact place
        · rw [places k j found]
          omega
      · rintro (_ | ⟨a, pre⟩) j post split r hr
        · cases split
          exact .inl (known r hr)
        · obtain ⟨rfl, rfl⟩ := List.cons.inj split
          rw [written_cons]
          rcases reads pre j post rfl r hr with old | later
          · exact (List.mem_append.mp old).imp_right .inl
          · exact .inr (.inr later)
    · rintro ⟨places, reads⟩
      constructor
      · intro k j found
        rw [places (k + 1) j found]
        omega
      · intro pre j post split r hr
        have all := reads (i :: pre) j post (by rw [split, List.cons_append]) r hr
        rw [written_cons] at all
        rw [List.mem_append]
        tauto

theorem checkBackward_eq_ok_iff : s.checkBackward = .ok () ↔ s.backward.map (·.index) =
    ((s.forward.filter (·.requiresGradient)).map (·.index)).reverse := by
  rw [← List.map_reverse, ← List.filter_reverse, checkBackward, ite_eq_ok_iff]

/-- Nodes are accepted that all have names, none of them met before or shared. -/
theorem checkNames_eq_ok_iff {name : NodeRef → Option String} {l : List NodeRef} :
    ∀ {seen : List String}, checkNames name seen l = .ok () ↔
      (∀ n ∈ l, ∃ text, name n = some text ∧ text ∉ seen) ∧ (l.map name).Nodup := by
  induction l with
  | nil => exact iff_of_true rfl (by simp)
  | cons n l ih =>
    intro seen
    rw [List.forall_mem_cons, List.map_cons, List.nodup_cons]
    cases named : name n with
    | none =>
      simp only [checkNames, named, reduceCtorEq, false_and, exists_false]
    | some text =>
      by_cases met : text ∈ seen
      · simp [checkNames, named, met]
      · simp only [checkNames, named, List.contains_eq_mem, met, decide_false, Bool.false_eq_true,
          if_false, ih, Option.some.injEq, exists_eq_left', not_false_eq_true, true_and, List.mem_cons,
          not_or, List.mem_map, not_exists, not_and]
        constructor
        · rintro ⟨each, nodup⟩
          refine ⟨fun m hm => ?_, fun m hm same => ?_, nodup⟩
          · obtain ⟨text', named', _, fresh⟩ := each m hm
            exact ⟨text', named', fresh⟩
          · obtain ⟨text', named', ne, _⟩ := each m hm
            exact ne (Option.some.inj (named'.symm.trans same))
        · rintro ⟨each, apart, nodup⟩
          refine ⟨fun m hm => ?_, nodup⟩
          obtain ⟨text', named', fresh⟩ := each m hm
          exact ⟨text', named', fun same => apart m hm (by rw [named', same]), fresh⟩

/-- The laws of schedules, given the names that nodes have. -/
structure Lawful (s : Schedule) (ws : Workspace) : Prop where
  slots : ∀ (k : Nat) (info : SlotInfo), s.slots[k]? = some info → info.index = (k : Int)
  references : ∀ i ∈ s.forward, ∀ r ∈ i.reads ++ i.outputs, 0 ≤ r ∧ r < s.slots.length
  names : ∀ p ∈ s.names, 0 ≤ p.2 ∧ p.2 < s.slots.length
  steps : ∀ (k : Nat) (i : Instruction), s.forward[k]? = some i → i.index = k
  reads : ∀ pre i post, s.forward = pre ++ i :: post → ∀ r ∈ i.reads, s.IsLeaf r ∨ Written pre r
  backward : s.backward.map (·.index) =
    ((s.forward.filter (·.requiresGradient)).map (·.index)).reverse
  named : ∀ n ∈ s.nodes, (ws.name n).isSome = true
  apart : (s.nodes.map ws.name).Nodup

/-- The check accepts what is lawful, and nothing else. -/
theorem check_eq_ok_iff {ws : Workspace} : s.check ws = .ok () ↔ s.Lawful ws := by
  simp only [check, seq_eq_ok_iff, checkSlots_eq_ok_iff, checkOrder_eq_ok_iff,
    checkBackward_eq_ok_iff, checkNames_eq_ok_iff, mem_leafSlots, Nat.zero_add, List.not_mem_nil,
    not_false_eq_true, and_true, ← Option.isSome_iff_exists]
  constructor
  · rintro ⟨⟨slots, references, names⟩, ⟨steps, reads⟩, backward, named, apart⟩
    exact ⟨slots, references, names, steps, reads, backward, named, apart⟩
  · rintro ⟨slots, references, names, steps, reads, backward, named, apart⟩
    exact ⟨⟨slots, references, names⟩, ⟨steps, reads⟩, backward, named, apart⟩

end Schedule

/-! ### What a schedule stands for -/

/-- The values that evaluating some roots takes: every output of every node that they depend on.
Selectors have no values of their own. -/
def Workspace.outputsOf (ws : Workspace) (roots : List NodeRef) : Set (Nat × Nat) :=
  {p | ∃ n, ws.Reaches roots n ∧ (ws.node n).isSelector = false ∧ n.handle = p.1 ∧
    p.2 < (ws.node n).slotCount}

/-- How an argument of a node stands in an instruction. A node stands as the slot of its value, which
for a selector is an output of the node it selects from; anything else stands as it is. -/
inductive Schedule.Resolves (s : Schedule) (ws : Workspace) : Value → Arg → Prop where
  | plain {n : NodeRef} {info : SlotInfo} : (ws.node n).isSelector = false → info ∈ s.slots →
      info.handle = n.handle → info.output = 0 → Resolves s ws (.node n) (.slot info.index)
  | selector {n p : NodeRef} {k : Nat} {info : SlotInfo} : (ws.node n).role = .selector k →
      (ws.node n).args = [.node p] → info ∈ s.slots → info.handle = p.handle → info.output = k →
      Resolves s ws (.node n) (.slot info.index)
  | const {v : Value} : v.node? = none → Resolves s ws v (.const v)

/-- A schedule for what some roots depend on. -/
structure Schedule.Represents (s : Schedule) (ws : Workspace) (roots : List NodeRef) : Prop where
  /-- Slots are numbered from zero. -/
  numbered : s.slots.map (·.index) = (List.range s.slots.length).map fun k : Nat => (k : Int)
  /-- Every value has a slot, and every slot a value. -/
  outputs : Set.BijOn (fun info => (info.handle, info.output)) {info | info ∈ s.slots}
    (ws.outputsOf roots)
  /-- The slots of operations are those that are no leaves. -/
  kinds : ∀ info ∈ s.slots, ∀ n, ws.Reaches roots n → n.handle = info.handle →
    (info.kind = .op ↔ (ws.node n).role = .operation)
  /-- Operations have one instruction each, other nodes none. -/
  instructions : ∀ n, ws.Reaches roots n → s.forward.countP (·.handle == n.handle) =
    if (ws.node n).isOperation then 1 else 0
  /-- Instructions are those of operations. -/
  operations : ∀ i ∈ s.forward, ∃ n, ws.Reaches roots n ∧ n.handle = i.handle ∧
    (ws.node n).role = .operation
  /-- One instruction writes the slot of an operation, none that of a leaf. -/
  writers : ∀ info ∈ s.slots, s.forward.countP (·.outputs.contains info.index) =
    if info.kind = .op then 1 else 0
  /-- An instruction writes the values of its node, in order. -/
  writes : ∀ i ∈ s.forward, ∀ info ∈ s.slots, ∀ k,
    i.outputs[k]? = some info.index ↔ info.handle = i.handle ∧ info.output = k
  /-- What is read is there from the start or written by an earlier instruction. -/
  reads : ∀ pre i post, s.forward = pre ++ i :: post → ∀ r ∈ i.reads, s.IsLeaf r ∨ Written pre r
  /-- Arguments stand in the order of the node's, by position and by keyword. -/
  arguments : ∀ n, ws.Reaches roots n → ∀ i ∈ s.forward, i.handle = n.handle →
    List.Forall₂ (s.Resolves ws) (ws.node n).args i.args ∧
      List.Forall₂ (fun p q => p.1 = q.1 ∧ s.Resolves ws p.2 q.2) (ws.node n).kwargs i.kwargs
  /-- Derivatives are passed on by what requires a gradient, last instruction first. -/
  backward : s.backward = (s.forward.filter (·.requiresGradient)).reverse

namespace Compiled

variable {ws : Workspace} {registry : Registry} {marks : GradientMarks} {id : Nat}
  {order roots : List NodeRef} {keep : List String} {s : Schedule} {n : NodeRef} {i : Instruction}
  (h : Compiled ws registry marks order roots keep s)
include h

theorem map_index : s.slots.map (·.index) = (List.range s.slots.length).map fun k : Nat => (k : Int) := by
  refine List.ext_getElem (by simp) fun k hk _ => ?_
  rw [List.getElem_map, List.getElem_map, List.getElem_range]
  exact h.numbered k _ (List.getElem?_eq_getElem (by simpa using hk))

/-- The handles of instructions are those of the operations of the order. -/
theorem map_handle : s.forward.map (·.handle) =
    (order.filter fun n => (ws.node n).isOperation).map (·.handle) := by
  have each : List.Forall₂ (fun n handle => handle = n.handle)
      (order.filter fun n => (ws.node n).isOperation) (s.forward.map (·.handle)) :=
    List.forall₂_map_right_iff.mpr (h.forward.imp fun _ _ instructs => instructs.handle)
  exact eq_map_of_forall₂ each fun _ _ _ same => same

section
variable (ord : ws.Orders id roots order)
include ord

theorem bijOn_outputs : Set.BijOn (fun info : SlotInfo => (info.handle, info.output))
    {info | info ∈ s.slots} (ws.outputsOf roots) := by
  have maps : Set.MapsTo (fun info : SlotInfo => (info.handle, info.output))
      {info | info ∈ s.slots} (ws.outputsOf roots) := by
    intro info mem
    obtain ⟨_, n, hn, describes⟩ := h.slots info mem
    exact ⟨n, (ord.mem_iff n).mp hn, describes.plain, describes.handle.symm, describes.output⟩
  have inj : Set.InjOn (fun info : SlotInfo => (info.handle, info.output))
      {info | info ∈ s.slots} := by
    intro a ha b hb same
    obtain ⟨handle, output⟩ := Prod.mk.inj same
    refine h.info_unique ha hb ?_
    rw [(h.slots a ha).1, (h.slots b hb).1, handle, output]
  have surj : Set.SurjOn (fun info : SlotInfo => (info.handle, info.output))
      {info | info ∈ s.slots} (ws.outputsOf roots) := by
    rintro ⟨handle, output⟩ ⟨n, reaches, plain, rfl, bound⟩
    obtain ⟨info, mem, handle, rfl⟩ := h.places n ((ord.mem_iff n).mpr reaches) plain output bound
    exact ⟨info, mem, Prod.ext handle rfl⟩
  exact ⟨maps, inj, surj⟩

theorem countP_handle (hn : n ∈ order) : s.forward.countP (·.handle == n.handle) =
    if (ws.node n).isOperation then 1 else 0 := by
  have count : s.forward.countP (·.handle == n.handle) =
      ((order.filter fun n => (ws.node n).isOperation).map (·.handle)).count n.handle := by
    rw [← h.map_handle, List.count, List.countP_map]
    rfl
  have nodup : ((order.filter fun n => (ws.node n).isOperation).map (·.handle)).Nodup :=
    ord.nodup_handles.sublist (List.filter_sublist.map _)
  rw [count, nodup.count]
  refine if_congr ?_ rfl rfl
  constructor
  · intro mem
    obtain ⟨m, hm, same⟩ := List.mem_map.mp mem
    obtain ⟨hm, operation⟩ := List.mem_filter.mp hm
    exact ord.handle_inj hm hn same ▸ operation
  · exact fun operation => List.mem_map_of_mem (List.mem_filter.mpr ⟨hn, operation⟩)

/-- The slot of an output, by its description. -/
theorem index_eq_slotAt_iff {info : SlotInfo} (mem : info ∈ s.slots) (hn : n ∈ order)
    (plain : (ws.node n).isSelector = false) {k : Nat} (hk : k < (ws.node n).slotCount) :
    info.index = s.slotAt n.handle k ↔ info.handle = n.handle ∧ info.output = k := by
  constructor
  · intro index
    obtain ⟨info', mem', index', output, describes⟩ := h.info_of_output ord hn plain hk
    obtain rfl := h.info_unique mem mem' (index.trans index'.symm)
    exact ⟨describes.handle, output⟩
  · rintro ⟨handle, rfl⟩
    rw [← handle]
    exact (h.slots info mem).1

/-- An instruction writes the slot of each output of its node at the place of the output. -/
theorem getElem?_outputs_iff (hi : i ∈ s.forward) {info : SlotInfo} (mem : info ∈ s.slots) (k : Nat) :
    i.outputs[k]? = some info.index ↔ info.handle = i.handle ∧ info.output = k := by
  obtain ⟨n, hn, operation, instructs⟩ := h.operation_of_instruction hi
  have count := Node.slotCount_of_isOperation operation
  have plain := Node.isSelector_of_isOperation operation
  rw [instructs.outputs, instructs.handle, List.getElem?_map]
  by_cases bound : k < (ws.node n).outputs
  · rw [List.getElem?_range bound, Option.map_some, Option.some.injEq, eq_comm]
    exact h.index_eq_slotAt_iff ord mem hn plain (by omega)
  · rw [List.getElem?_eq_none (by simpa using bound)]
    refine iff_of_false (by simp) fun ⟨handle, output⟩ => bound ?_
    obtain ⟨_, m, hm, describes⟩ := h.slots info mem
    obtain rfl := ord.handle_inj hm hn (describes.handle.symm.trans handle)
    rw [← count, ← output]
    exact describes.output

/-- The slot of an operation is among the outputs of one instruction, that of a leaf of none. -/
theorem countP_outputs {info : SlotInfo} (mem : info ∈ s.slots) :
    s.forward.countP (·.outputs.contains info.index) = if info.kind = .op then 1 else 0 := by
  rw [countP_contains (h.written_once ord)]
  refine if_congr ?_ rfl rfl
  constructor
  · intro written
    obtain ⟨i, hi, output⟩ := List.mem_flatMap.mp written
    obtain ⟨other, mem', same, op⟩ := h.outputs_op ord hi output
    exact h.info_unique mem' mem same ▸ op
  · intro op
    obtain ⟨i, hi, output, _⟩ := h.op_writer mem op
    exact List.mem_flatMap.mpr ⟨i, hi, output⟩

theorem resolves_argOf (sound : ws.Sound) {v : Value} (inside : ∀ m, v.node? = some m → m ∈ order) :
    s.Resolves ws v (s.argOf ws v) := by
  cases v with
  | node m =>
    obtain ⟨info, mem, index, _, output, describes⟩ := h.info_of_node ord sound (inside m rfl)
    rw [Schedule.argOf, ← index]
    cases role : (ws.node m).role with
    | selector k =>
      obtain ⟨p, args, _⟩ := sound.selector role
      have source : ws.source m = (p, k) := by simp [Workspace.source, role, args]
      rw [source] at output describes
      exact .selector role args mem describes.handle output
    | _ =>
      have plain : (ws.node m).isSelector = false := by simp [Node.isSelector, role]
      rw [source_of_plain plain] at output describes
      exact .plain plain mem describes.handle output
  | _ => exact .const rfl

theorem arguments (sound : ws.Sound) (hn : n ∈ order) (hi : i ∈ s.forward)
    (handle : i.handle = n.handle) :
    List.Forall₂ (s.Resolves ws) (ws.node n).args i.args ∧
      List.Forall₂ (fun p q => p.1 = q.1 ∧ s.Resolves ws p.2 q.2) (ws.node n).kwargs i.kwargs := by
  obtain ⟨m, hm, _, instructs⟩ := h.operation_of_instruction hi
  obtain rfl := ord.handle_inj hm hn (instructs.handle.symm.trans handle)
  rw [instructs.args, instructs.kwargs, List.forall₂_map_right_iff, List.forall₂_map_right_iff]
  constructor
  · refine List.forall₂_same.mpr fun v hv => h.resolves_argOf ord sound fun k node => ?_
    exact ord.input_mem hm (List.mem_append_left _ (List.mem_filterMap.mpr ⟨v, hv, node⟩))
  · refine List.forall₂_same.mpr fun p hp => ⟨rfl, h.resolves_argOf ord sound fun k node => ?_⟩
    exact ord.input_mem hm (List.mem_append_right _ (List.mem_filterMap.mpr ⟨p, hp, node⟩))

theorem represents (sound : ws.Sound) : s.Represents ws roots where
  numbered := h.map_index
  outputs := h.bijOn_outputs ord
  kinds info mem n reaches handle := by
    obtain ⟨_, m, hm, describes⟩ := h.slots info mem
    obtain rfl := ord.handle_inj hm ((ord.mem_iff n).mpr reaches)
      (describes.handle.symm.trans handle.symm)
    rw [describes.kind, Node.slotKind_eq_op_iff describes.plain, Node.isOperation_iff]
  instructions n reaches := h.countP_handle ord ((ord.mem_iff n).mpr reaches)
  operations i hi := by
    obtain ⟨n, hn, operation, instructs⟩ := h.operation_of_instruction hi
    exact ⟨n, (ord.mem_iff n).mp hn, instructs.handle.symm, (Node.isOperation_iff _).mp operation⟩
  writers _ mem := h.countP_outputs ord mem
  writes _ hi _ mem k := h.getElem?_outputs_iff ord hi mem k
  reads _ _ _ split _ hr := h.reads_before ord sound split hr
  arguments n reaches _ hi handle :=
    h.arguments ord sound ((ord.mem_iff n).mpr reaches) hi handle
  backward := h.backward

end

end Compiled

/-- A well-formed schedule of nodes with names of their own is accepted. -/
theorem Schedule.WellFormed.check {s : Schedule} {ws : Workspace} (wf : s.WellFormed)
    (named : ∀ n ∈ s.nodes, (ws.name n).isSome = true) (apart : (s.nodes.map ws.name).Nodup) :
    s.check ws = .ok () := by
  exact Schedule.check_eq_ok_iff.mpr
    { slots := wf.slotIndex
      references := fun i hi r hr => (wf.hasSlot_iff r).mp (wf.inPlace.slotsExist i hi r hr)
      names := fun p hp => (wf.hasSlot_iff p.2).mp (wf.nameSlots p hp)
      steps := wf.instructionIndex
      reads := wf.readsBefore
      backward := by rw [wf.backwardList, List.map_reverse]
      named, apart }

/-- Whatever is compiled for nodes of a graph that calls have built stands for all that they depend
on, and passes the check of schedules. -/
theorem Workspace.Built.compile_represents {ws ws' : Workspace} {terminals : List Value}
    {options : CompileOptions} {s : Schedule} (built : ws.Built)
    (exist : ∀ n ∈ nodesIn terminals, ws.Exists n)
    (run : ws.compile terminals options = (.ok s, ws')) :
    s.Represents ws (nodesIn terminals) ∧ s.check ws' = .ok () := by
  obtain ⟨⟨id, order, marks, sched⟩, named, apart⟩ := built.compile_spec exist run
  exact ⟨sched.compiled.represents sched.orders built.sound, sched.wellFormed.check named apart⟩

/-! ### A graph with a selector -/

namespace Sample

open Net

/-- The graph of the sums of `x`, taken to have two results. -/
def sums : Workspace :=
  match leaves.applyIn 0 "sum" [.node ⟨0, 0⟩] [("axis", .int 0)] { outputs := some 2 } with
  | .ok (ws, _) => ws
  | .error _ => leaves

/-- The graph of the second of them, doubled. -/
def doubled : Workspace :=
  match sums.applyIn 0 "mul" [.node ⟨0, 3⟩, .int 2] [] with
  | .ok (ws, _) => ws
  | .error _ => sums

theorem sums_built : sums.Built := by
  unfold sums
  split
  next call =>
    refine leaves_built.apply (fun n mem => ?_) call
    obtain rfl : n = ⟨0, 0⟩ := by simpa using mem
    exact ⟨_, rfl, by decide⟩
  next => exact leaves_built

theorem doubled_built : doubled.Built := by
  unfold doubled
  split
  next call =>
    refine sums_built.apply (fun n mem => ?_) call
    obtain rfl : n = ⟨0, 3⟩ := by simpa using mem
    exact ⟨_, rfl, by decide⟩
  next => exact sums_built

end Sample

theorem Workspace.compile_represents_doubled : ∃ s ws',
    Sample.doubled.compile [.node ⟨0, 4⟩] = (.ok s, ws') ∧
      s.Represents Sample.doubled [⟨0, 4⟩] ∧ s.check ws' = .ok () := by
  have exist : ∀ n ∈ nodesIn [.node ⟨0, 4⟩], Sample.doubled.Exists n := by
    intro n mem
    obtain rfl : n = ⟨0, 4⟩ := by simpa [nodesIn, Value.node?] using mem
    exact ⟨_, rfl, by decide⟩
  have compiles : (Sample.doubled.compile [.node ⟨0, 4⟩]).1.isOk = true := by cbv
  cases run : Sample.doubled.compile [.node ⟨0, 4⟩] with
  | mk result ws' =>
    rw [run] at compiles
    cases result with
    | error e => cases compiles
    | ok s => exact ⟨s, ws', rfl, Sample.doubled_built.compile_represents exist run⟩

end Backprop
