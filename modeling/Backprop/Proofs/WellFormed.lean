import Backprop.Proofs.Compilation
/-!
# Compiled schedules are well-formed

* `Compiled.info_of_output`, `Compiled.slotAt_inj`: every output of a node has a slot of its own.
* `Instructs.reads_eq`: an instruction reads the slots of the inputs of its node.
* `Compiled.wellFormed` puts this together.
-/

namespace Backprop

open Workspace

variable {ws : Workspace} {registry : Registry} {marks : GradientMarks} {id : Nat}
  {order terminals : List NodeRef} {keep : List String} {s : Schedule} {n m : NodeRef}
  {i : Instruction}

namespace Schedule

theorem mem_markedArgs {args : List Value} {q : Nat × Slot} :
    q ∈ s.markedArgs ws marks args ↔
      ∃ m, args[q.1]? = some (.node m) ∧ marks.marked m = true ∧ q.2 = s.slotFor ws m := by
  simp only [markedArgs, List.mem_filterMap, Prod.exists, List.mem_zipIdx_iff_getElem?]
  constructor
  · rintro ⟨v, position, there, some'⟩
    cases v with
    | node m =>
      dsimp only at some'
      split at some'
      next mark =>
        cases some'
        exact ⟨m, there, mark, rfl⟩
      next => cases some'
    | _ => cases some'
  · rintro ⟨m, there, mark, slot⟩
    refine ⟨.node m, q.1, there, ?_⟩
    simp [mark, ← slot]

/-- Keeping some places of a list, with something else there, keeps their order. -/
theorem pairwise_zipIdx_filterMap {α β : Type} {f : α × Nat → Option (Nat × β)}
    (place : ∀ p q, f p = some q → q.1 = p.2) (l : List α) :
    ((l.zipIdx.filterMap f).map (·.1)).Pairwise (· < ·) := by
  have places : l.zipIdx.Pairwise fun a b => a.2 < b.2 := by
    refine List.pairwise_map.mp ?_
    rw [List.zipIdx_map_snd]
    exact List.pairwise_lt_range'
  rw [List.pairwise_map]
  refine List.pairwise_filterMap.mpr (places.imp ?_)
  intro p p' less q hq q' hq'
  rw [place p q hq, place p' q' hq']
  exact less

theorem markedArgs_sorted {args : List Value} :
    ((s.markedArgs ws marks args).map (·.1)).Pairwise (· < ·) := by
  refine pairwise_zipIdx_filterMap (fun p q found => ?_) args
  obtain ⟨v, position⟩ := p
  cases v with
  | node n =>
    dsimp only at found
    split at found
    · cases found
      rfl
    · cases found
  | _ => cases found

end Schedule

/-! ### Nodes and their outputs -/

theorem Node.isOperation_iff (node : Node) : node.isOperation = true ↔ node.role = .operation := by
  cases role : node.role <;>
    simp [Node.isOperation, Node.isLeaf, Node.isInput, Node.isParam, Node.isSelector, role]

theorem Node.slotKind_eq_op_iff {node : Node} (plain : node.isSelector = false) :
    Layout.slotKind node = .op ↔ node.isOperation = true := by
  cases role : node.role <;>
    simp [Layout.slotKind, Node.isOperation, Node.isLeaf, Node.isInput, Node.isParam,
      Node.isSelector, role] at plain ⊢

theorem Node.isLeaf_of_not_isOperation {node : Node} (plain : node.isSelector = false)
    (other : ¬ node.isOperation = true) : node.isLeaf = true := by
  simpa [Node.isOperation, plain] using other

theorem Node.slotCount_of_isOperation {node : Node} (operation : node.isOperation = true) :
    node.slotCount = node.outputs := by
  have leaf : node.isLeaf = false := by
    simp only [Node.isOperation, Bool.and_eq_true, Bool.not_eq_true'] at operation
    exact operation.1
  simp [Node.slotCount, leaf]

theorem Node.isSelector_of_isOperation {node : Node} (operation : node.isOperation = true) :
    node.isSelector = false := by
  simp only [Node.isOperation, Bool.and_eq_true, Bool.not_eq_true'] at operation
  exact operation.2

theorem Node.isSelector_of_isLeaf {node : Node} (leaf : node.isLeaf = true) :
    node.isSelector = false := by
  cases role : node.role <;>
    simp [Node.isLeaf, Node.isInput, Node.isParam, Node.isSelector, role] at leaf ⊢

theorem Workspace.source_of_plain (plain : (ws.node n).isSelector = false) :
    ws.source n = (n, 0) := by
  unfold source
  split
  next role _ => simp [Node.isSelector, role] at plain
  next => rfl

/-- A node stands for an output of itself, or of an input if it is a selector. -/
theorem Workspace.Sound.source_spec (sound : ws.Sound) (n : NodeRef) :
    (ws.node (ws.source n).1).isSelector = false ∧
      (ws.source n).2 < (ws.node (ws.source n).1).slotCount ∧
        ((ws.source n).1 = n ∨ (ws.source n).1 ∈ ws.inputs n) := by
  cases selector : (ws.node n).isSelector with
  | true =>
    cases role : (ws.node n).role with
    | selector k =>
      obtain ⟨p, args, _, member, operation, _, high⟩ := sound.selector role
      have source : ws.source n = (p, k) := by simp [source, role, args]
      have runs := (Node.isOperation_iff _).mpr operation
      rw [source, Node.slotCount_of_isOperation runs]
      refine ⟨?_, high, .inr member⟩
      simp [Node.isSelector, operation]
    | _ => simp [Node.isSelector, role] at selector
  | false =>
    rw [source_of_plain selector]
    refine ⟨selector, ?_, .inl rfl⟩
    unfold Node.slotCount
    split
    · exact Nat.one_pos
    next leaf =>
      refine sound.outputs_pos ((Node.isOperation_iff _).mp ?_)
      simp [Node.isOperation, selector, leaf]

/-- An instruction reads the slots of the inputs of its node. -/
theorem Instructs.reads_eq (h : Instructs ws registry marks s n i) :
    i.reads = (ws.inputs n).map (s.slotFor ws) := by
  have slot : ∀ v, (s.argOf ws v).slot? = v.node?.map (s.slotFor ws) := by
    intro v
    cases v <;> rfl
  simp only [Instruction.reads, h.args, h.kwargs, Workspace.inputs, Node.inputs, List.map_append,
    List.filterMap_map, List.map_filterMap, Function.comp_def, slot]

namespace Compiled

variable (h : Compiled ws registry marks order terminals keep s)
include h

theorem info_unique {a b : SlotInfo} (ha : a ∈ s.slots) (hb : b ∈ s.slots)
    (same : a.index = b.index) : a = b := by
  obtain ⟨j, hj⟩ := List.getElem?_of_mem ha
  obtain ⟨k, hk⟩ := List.getElem?_of_mem hb
  have places : (j : Int) = k := by rw [← h.numbered j a hj, ← h.numbered k b hk, same]
  obtain rfl : j = k := by omega
  rw [hj] at hk
  exact Option.some.inj hk

section
variable (ord : ws.Orders id terminals order)
include ord

/-- Every output of a node has a slot. -/
theorem info_of_output (hn : n ∈ order) (plain : (ws.node n).isSelector = false) {k : Nat}
    (hk : k < (ws.node n).slotCount) :
    ∃ info ∈ s.slots, info.index = s.slotAt n.handle k ∧ info.output = k ∧
      Describes ws marks n info := by
  obtain ⟨info, mem, handle, output⟩ := h.places n hn plain k hk
  obtain ⟨index, m, hm, describes⟩ := h.slots info mem
  have same : m = n := ord.handle_inj hm hn (describes.handle.symm.trans handle)
  rw [handle, output] at index
  exact ⟨info, mem, index, output, same ▸ describes⟩

/-- Different outputs have different slots. -/
theorem slotAt_inj (hn : n ∈ order) (plain : (ws.node n).isSelector = false) {k : Nat}
    (hk : k < (ws.node n).slotCount) (hm : m ∈ order) (plain' : (ws.node m).isSelector = false)
    {j : Nat} (hj : j < (ws.node m).slotCount)
    (same : s.slotAt n.handle k = s.slotAt m.handle j) : n = m ∧ k = j := by
  obtain ⟨a, ha, indexa, outputa, describesa⟩ := h.info_of_output ord hn plain hk
  obtain ⟨b, hb, indexb, outputb, describesb⟩ := h.info_of_output ord hm plain' hj
  obtain rfl := h.info_unique ha hb (by rw [indexa, indexb, same])
  exact ⟨ord.handle_inj hn hm (describesa.handle.symm.trans describesb.handle),
    outputa.symm.trans outputb⟩

/-- The slot of a node of the order. -/
theorem info_of_node (sound : ws.Sound) (hn : n ∈ order) :
    ∃ info ∈ s.slots, info.index = s.slotFor ws n ∧ (ws.source n).1 ∈ order ∧
      info.output = (ws.source n).2 ∧ Describes ws marks (ws.source n).1 info := by
  obtain ⟨plain, bound, place⟩ := sound.source_spec n
  have inside : (ws.source n).1 ∈ order := by
    rcases place with same | input
    · rw [same]
      exact hn
    · exact ord.input_mem hn input
  obtain ⟨info, mem, index, output, describes⟩ := h.info_of_output ord inside plain bound
  exact ⟨info, mem, index, inside, output, describes⟩

/-- Only a node that stands for an output has the slot of the output. -/
theorem source_of_slotFor (sound : ws.Sound) (hn : n ∈ order) (plain : (ws.node n).isSelector = false)
    {k : Nat} (hk : k < (ws.node n).slotCount) (hm : m ∈ order)
    (same : s.slotFor ws m = s.slotAt n.handle k) : ws.source m = (n, k) := by
  obtain ⟨a, ha, indexa, inside, outputa, describesa⟩ := h.info_of_node ord sound hm
  obtain ⟨b, hb, indexb, outputb, describesb⟩ := h.info_of_output ord hn plain hk
  obtain rfl := h.info_unique ha hb (by rw [indexa, indexb, same])
  exact Prod.ext (ord.handle_inj inside hn (describesa.handle.symm.trans describesb.handle))
    (outputa.symm.trans outputb)

end

/-- Operations of the order have instructions. -/
theorem instruction_of_operation (hn : n ∈ order) (operation : (ws.node n).isOperation = true) :
    ∃ i ∈ s.forward, Instructs ws registry marks s n i :=
  forall₂_mem_left h.forward n (List.mem_filter.mpr ⟨hn, operation⟩)

/-- Instructions are those of operations of the order. -/
theorem operation_of_instruction (hi : i ∈ s.forward) :
    ∃ n ∈ order, (ws.node n).isOperation = true ∧ Instructs ws registry marks s n i := by
  obtain ⟨n, mem, instructs⟩ := forall₂_mem_right h.forward i hi
  obtain ⟨hn, operation⟩ := List.mem_filter.mp mem
  exact ⟨n, hn, operation, instructs⟩

/-! ### What the parts of the schedule say of each other -/

theorem input_names (like : s.NamedLike ws order)
    (named : ∀ n ∈ order, (ws.name n).isSome = true) (distinct : ws.duplicateNames order = []) :
    ((s.slots.filter (·.kind = .input)).map (·.name)).Nodup := by
  have nodup : s.slots.Nodup := by
    rw [List.Nodup, List.pairwise_iff_getElem]
    intro j k hj hk less same
    have first := h.numbered j _ (List.getElem?_eq_getElem hj)
    have second := h.numbered k _ (List.getElem?_eq_getElem hk)
    rw [same] at first
    have : (j : Int) = k := first.symm.trans second
    omega
  have leaf : ∀ info ∈ s.slots.filter (·.kind = .input), info ∈ s.slots ∧ ∃ n ∈ order,
      info.index = s.slotAt n.handle 0 ∧ info.name = Error.shownName (ws.name n) := by
    intro info mem
    obtain ⟨mem, kind⟩ := List.mem_filter.mp mem
    obtain ⟨index, n, hn, describes⟩ := h.slots info mem
    have other : ¬ (ws.node n).isOperation = true := fun operation => by
      have := describes.kind.trans ((Node.slotKind_eq_op_iff describes.plain).mpr operation)
      simp [this] at kind
    have bound := describes.output
    simp only [Node.slotCount, Node.isLeaf_of_not_isOperation describes.plain other,
      if_true] at bound
    have first : info.output = 0 := by omega
    obtain ⟨m, hm, handle, name⟩ := like info mem first
    rw [first] at index
    exact ⟨mem, m, hm, by rw [handle]; exact index, name⟩
  refine List.Nodup.map_on (fun a ha b hb same => ?_) (nodup.filter _)
  obtain ⟨mema, n, hn, indexa, namea⟩ := leaf a ha
  obtain ⟨memb, m, hm, indexb, nameb⟩ := leaf b hb
  obtain ⟨x, hx⟩ := Option.isSome_iff_exists.mp (named n hn)
  obtain ⟨y, hy⟩ := Option.isSome_iff_exists.mp (named m hm)
  have text : x = y := by
    rw [namea, nameb, hx, hy] at same
    exact same
  obtain rfl := name_inj distinct hn hm hx (hy.trans (by rw [text]))
  exact h.info_unique mema memb (indexa.trans indexb.symm)

/-- A slot of an operation is written by an instruction that requires a gradient if the slot does. -/
theorem op_writer {info : SlotInfo} (mem : info ∈ s.slots) (op : info.kind = .op) :
    ∃ i ∈ s.forward, info.index ∈ i.outputs ∧ i.requiresGradient = info.requiresGradient := by
  obtain ⟨index, n, hn, describes⟩ := h.slots info mem
  have operation := (Node.slotKind_eq_op_iff describes.plain).mp (describes.kind.symm.trans op)
  obtain ⟨i, hi, instructs⟩ := h.instruction_of_operation hn operation
  have bound := describes.output
  rw [Node.slotCount_of_isOperation operation] at bound
  refine ⟨i, hi, ?_, instructs.requiresGradient.trans describes.requiresGradient.symm⟩
  rw [instructs.outputs, index, describes.handle]
  exact List.mem_map_of_mem (List.mem_range.mpr bound)

theorem op_written {info : SlotInfo} (mem : info ∈ s.slots) (op : info.kind = .op) :
    Written s.forward info.index := by
  obtain ⟨i, hi, output, _⟩ := h.op_writer mem op
  exact ⟨i, hi, output⟩

section
variable (ord : ws.Orders id terminals order)
include ord

theorem outputs_op (hi : i ∈ s.forward) {o : Slot} (ho : o ∈ i.outputs) :
    ∃ info ∈ s.slots, info.index = o ∧ info.kind = .op := by
  obtain ⟨n, hn, operation, instructs⟩ := h.operation_of_instruction hi
  rw [instructs.outputs] at ho
  obtain ⟨k, hk, rfl⟩ := List.mem_map.mp ho
  have plain := Node.isSelector_of_isOperation operation
  have bound : k < (ws.node n).slotCount := by
    rw [Node.slotCount_of_isOperation operation]
    exact List.mem_range.mp hk
  obtain ⟨info, mem, index, _, describes⟩ := h.info_of_output ord hn plain bound
  exact ⟨info, mem, index, describes.kind.trans ((Node.slotKind_eq_op_iff plain).mpr operation)⟩

theorem written_once : (s.forward.flatMap (·.outputs)).Nodup := by
  have flat : ∀ {nodes : List NodeRef} {l : List Instruction},
      List.Forall₂ (Instructs ws registry marks s) nodes l → l.flatMap (·.outputs) =
        nodes.flatMap fun n => (List.range (ws.node n).outputs).map (s.slotAt n.handle) := by
    intro nodes l each
    induction each with
    | nil => rfl
    | cons first _ ih => rw [List.flatMap_cons, List.flatMap_cons, first.outputs, ih]
  have inside : ∀ n ∈ order.filter (fun n => (ws.node n).isOperation),
      n ∈ order ∧ (ws.node n).isSelector = false ∧
        (ws.node n).slotCount = (ws.node n).outputs := by
    intro n hn
    obtain ⟨hn, operation⟩ := List.mem_filter.mp hn
    exact ⟨hn, Node.isSelector_of_isOperation operation, Node.slotCount_of_isOperation operation⟩
  have inj : ∀ n ∈ order.filter (fun n => (ws.node n).isOperation),
      ∀ m ∈ order.filter (fun n => (ws.node n).isOperation),
      ∀ k < (ws.node n).outputs, ∀ j < (ws.node m).outputs,
        s.slotAt n.handle k = s.slotAt m.handle j → n = m ∧ k = j := by
    intro n hn m hm k hk j hj same
    obtain ⟨hn, plain, count⟩ := inside n hn
    obtain ⟨hm, plain', count'⟩ := inside m hm
    exact h.slotAt_inj ord hn plain (by omega) hm plain' (by omega) same
  rw [flat h.forward, List.nodup_flatMap]
  constructor
  · intro n hn
    refine List.Nodup.map_on (fun k hk j hj same => ?_) List.nodup_range
    exact (inj n hn n hn k (List.mem_range.mp hk) j (List.mem_range.mp hj) same).2
  · refine List.Pairwise.imp_of_mem ?_ (ord.nodup.filter _)
    intro n m hn hm ne r hr hr'
    obtain ⟨k, hk, rfl⟩ := List.mem_map.mp hr
    obtain ⟨j, hj, same⟩ := List.mem_map.mp hr'
    exact ne (inj n hn m hm k (List.mem_range.mp hk) j (List.mem_range.mp hj) same.symm).1

/-- Every instruction stands behind those of the operations that its node depends on. -/
theorem reads_before (sound : ws.Sound) {pre post : List Instruction}
    (split : s.forward = pre ++ i :: post) {r : Slot} (hr : r ∈ i.reads) :
    s.IsLeaf r ∨ Written pre r := by
  have each := h.forward
  rw [split] at each
  obtain ⟨before, n, after, nodes, earlier, instructs, _⟩ := forall₂_split each
  have hn : n ∈ order := (List.mem_filter.mp (by rw [nodes]; simp)).1
  rw [instructs.reads_eq] at hr
  obtain ⟨m, hm, rfl⟩ := List.mem_map.mp hr
  obtain ⟨info, mem, index, inside, output, describes⟩ :=
    h.info_of_node ord sound (ord.input_mem hn hm)
  have less : (ws.source m).1.handle < n.handle := by
    have here := (sound.input_lt hm).2.1
    rcases (sound.source_spec m).2.2 with same | input
    · rw [same]
      exact here
    · exact Nat.lt_trans (sound.input_lt input).2.1 here
  by_cases operation : (ws.node (ws.source m).1).isOperation = true
  · right
    have listed : (ws.source m).1 ∈ before ++ n :: after := by
      rw [← nodes]
      exact List.mem_filter.mpr ⟨inside, operation⟩
    have sorted := ord.sorted.sublist (List.filter_sublist (p := fun n => (ws.node n).isOperation))
    rw [nodes] at sorted
    have there : (ws.source m).1 ∈ before := by
      rcases List.mem_append.mp listed with there | late
      · exact there
      · rcases List.mem_cons.mp late with eq | late
        · rw [eq] at less
          omega
        · have := (List.pairwise_cons.mp (List.pairwise_append.mp sorted).2.1).1 _ late
          omega
    obtain ⟨j, hj, writer⟩ := forall₂_mem_left earlier _ there
    refine ⟨j, hj, ?_⟩
    rw [writer.outputs]
    refine List.mem_map_of_mem (List.mem_range.mpr ?_)
    rw [← Node.slotCount_of_isOperation operation]
    exact (sound.source_spec m).2.1
  · left
    refine ⟨info, mem, index, fun op => operation ?_⟩
    exact (Node.slotKind_eq_op_iff describes.plain).mp (describes.kind.symm.trans op)

/-- A leaf that is not kept is read: the roots depend on it. -/
theorem leaf_needed (sound : ws.Sound) {info : SlotInfo} (mem : info ∈ s.slots)
    (leaf : info.kind ≠ .op) (reclaimable : info.reclaimable = true) :
    Read s.forward info.index := by
  obtain ⟨index, n, hn, describes⟩ := h.slots info mem
  have plain := describes.plain
  have noOperation : ¬ (ws.node n).isOperation = true := fun operation =>
    leaf (describes.kind.trans ((Node.slotKind_eq_op_iff plain).mpr operation))
  have isLeaf := Node.isLeaf_of_not_isOperation plain noOperation
  have bound := describes.output
  have first : info.output = 0 := by
    simp only [Node.slotCount, isLeaf, if_true] at bound
    omega
  cases (ord.mem_iff n).mp hn with
  | root root =>
    have kept : info.retained = true := by
      refine (h.retained info mem).mpr (.inl ⟨n, root, ?_⟩)
      rw [Schedule.slotsOf, if_neg (by simp [plain]), index, describes.handle]
      exact List.mem_map_of_mem (List.mem_range.mpr bound)
    simp [SlotInfo.reclaimable, kept] at reclaimable
  | @input m _ reaches input =>
    have hm := (ord.mem_iff m).mpr reaches
    cases role : (ws.node m).role with
    | operation =>
      obtain ⟨i, hi, instructs⟩ :=
        h.instruction_of_operation hm ((Node.isOperation_iff _).mpr role)
      refine ⟨i, hi, ?_⟩
      rw [instructs.reads_eq]
      refine List.mem_map.mpr ⟨n, input, ?_⟩
      rw [Schedule.slotFor, source_of_plain plain, index, describes.handle, first]
    | selector k =>
      obtain ⟨p, args, kwargs, _, operation, _⟩ := sound.selector role
      have same : n = p := by
        simpa [Workspace.inputs, Node.inputs, args, kwargs, Value.node?] using input
      rw [same] at noOperation
      exact absurd ((Node.isOperation_iff _).mpr operation) noOperation
    | input =>
      obtain ⟨args, kwargs⟩ := sound.leaf (n := m) (by simp [Node.isLeaf, Node.isInput, role])
      simp [Workspace.inputs, Node.inputs, args, kwargs] at input
    | param data =>
      obtain ⟨args, kwargs⟩ :=
        sound.leaf (n := m) (by simp [Node.isLeaf, Node.isInput, Node.isParam, role])
      simp [Workspace.inputs, Node.inputs, args, kwargs] at input

theorem terminal_retained (sound : ws.Sound) {r : Slot} (hr : r ∈ s.terminals) :
    ∃ info ∈ s.slots, info.index = r ∧ info.retained = true := by
  rw [h.terminalSlots] at hr
  obtain ⟨t, ht, rfl⟩ := List.mem_map.mp hr
  obtain ⟨info, mem, index, _⟩ := h.info_of_node ord sound (ord.root_mem ht)
  refine ⟨info, mem, index, (h.retained info mem).mpr (.inl ⟨t, ht, ?_⟩)⟩
  rw [index, Schedule.slotsOf]
  cases selector : (ws.node t).isSelector with
  | true => simp
  | false =>
    have bound := (sound.source_spec t).2.1
    rw [source_of_plain selector] at bound
    rw [if_neg (by simp), Schedule.slotFor, source_of_plain selector]
    exact List.mem_map_of_mem (List.mem_range.mpr bound)

end

/-- Compiled schedules are well-formed. -/
theorem wellFormed (ord : ws.Orders id terminals order) (sound : ws.Sound)
    (like : s.NamedLike ws order) (named : ∀ n ∈ order, (ws.name n).isSome = true) (distinct : ws.duplicateNames order = []) :
    s.WellFormed where
  slotIndex := h.numbered
  instructionIndex := h.indices
  outputsOp _ hi _ ho := h.outputs_op ord hi ho
  opWritten _ mem op := h.op_written mem op
  writtenOnce := h.written_once ord
  readsBefore _ _ _ split _ hr := h.reads_before ord sound split hr
  gradientArgs i hi q hq := by
    obtain ⟨n, _, _, instructs⟩ := h.operation_of_instruction hi
    rw [instructs.gradientPositions] at hq
    obtain ⟨m, arg, _, slot⟩ := Schedule.mem_markedArgs.mp hq
    rw [instructs.args, List.getElem?_map, arg, slot]
    rfl
  gradientOrder i hi := by
    obtain ⟨n, _, _, instructs⟩ := h.operation_of_instruction hi
    rw [instructs.gradientPositions]
    exact Schedule.markedArgs_sorted
  backwardList := h.backward
  uses := h.uses
  plan := h.plan
  persistent info mem := by
    obtain ⟨_, n, _, describes⟩ := h.slots info mem
    rw [describes.persistent, describes.kind]
    cases role : (ws.node n).role <;> simp [Node.isParam, Layout.slotKind, role]
  leafNeeded _ mem leaf reclaimable := h.leaf_needed ord sound mem leaf reclaimable
  terminalSlots _ hr := h.terminal_retained ord sound hr
  nameSlots := h.names
  inputNames := h.input_names like named distinct

end Compiled

end Backprop
