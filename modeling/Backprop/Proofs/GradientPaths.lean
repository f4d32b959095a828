import Mathlib
import Backprop.Proofs.Checked
/-!
# Paths of gradients

* `Workspace.GradientEdge` is an edge that a gradient is passed along: a positional argument, or what a
  selector selects from. Keyword arguments are none.
* `Workspace.differentiated_iff_passed`: a gradient is wanted at the nodes that such edges lead to from a
  parameter or a flagged input.
* `Workspace.Built.gradient_paths`: these are the nodes whose instructions pass derivatives on, and each of
  them does so at the positions of such nodes, in order.
-/

namespace Backprop

namespace Workspace

variable {ws : Workspace} {roots : List NodeRef} {n : NodeRef}

/-- A node is a positional argument of an operation, or what a selector selects from. -/
inductive GradientEdge (ws : Workspace) : NodeRef → NodeRef → Prop where
  | argument {i n : NodeRef} : (ws.node n).role = .operation → .node i ∈ (ws.node n).args →
      GradientEdge ws i n
  | selection {p n : NodeRef} {k : Nat} : (ws.node n).role = .selector k →
      (ws.node n).args = [.node p] → GradientEdge ws p n

/-- A parameter or a flagged input that the roots depend on. -/
structure Origin (ws : Workspace) (roots : List NodeRef) (n : NodeRef) : Prop where
  reaches : ws.Reaches roots n
  leaf : (ws.node n).isParam = true ∨
    (ws.node n).isInput = true ∧ (ws.node n).requiresGradient = true

/-- A node that a path leads to from a parameter or a flagged input. -/
def Passed (ws : Workspace) (roots : List NodeRef) (n : NodeRef) : Prop :=
  ∃ x, ws.Origin roots x ∧ Relation.ReflTransGen ws.GradientEdge x n

theorem GradientEdge.mem_args {i : NodeRef} (h : ws.GradientEdge i n) : .node i ∈ (ws.node n).args := by
  cases h with
  | argument _ arg => exact arg
  | selection _ args => simp [args]

/-- Only operations and selectors have arguments. -/
theorem Sound.gradientEdge (sound : ws.Sound) {i : NodeRef} (arg : .node i ∈ (ws.node n).args) :
    ws.GradientEdge i n := by
  cases role : (ws.node n).role with
  | operation => exact .argument role arg
  | selector k =>
    obtain ⟨p, args, -⟩ := sound.selector role
    obtain rfl : i = p := by simpa [args] using arg
    exact .selection role args
  | _ =>
    have leaf := (sound.leaf (n := n) (by simp [Node.isLeaf, Node.isInput, Node.isParam, role])).1
    simp [leaf] at arg

/-- Of what the roots depend on, a gradient is wanted at the nodes that paths lead to. -/
theorem differentiated_iff_passed (sound : ws.Sound) (reaches : ws.Reaches roots n) :
    ws.Differentiated n ↔ ws.Passed roots n := by
  constructor
  · intro wanted
    induction wanted with
    | param param => exact ⟨_, ⟨reaches, .inl param⟩, .refl⟩
    | input input flagged => exact ⟨_, ⟨reaches, .inr ⟨input, flagged⟩⟩, .refl⟩
    | argument arg _ ih =>
      obtain ⟨x, origin, path⟩ := ih (reaches.input (mem_inputs_of_arg arg))
      exact ⟨x, origin, path.tail (sound.gradientEdge arg)⟩
  · rintro ⟨x, origin, path⟩
    clear reaches
    induction path with
    | refl =>
      rcases origin.leaf with param | ⟨input, flagged⟩
      · exact .param param
      · exact .input input flagged
    | tail _ edge ih => exact .argument edge.mem_args ih

end Workspace

open Workspace

/-- What an instruction says of gradients is what the paths of the graph say. It has the positions of the
arguments that are passed on paths, in ascending order, with the slots of their values. -/
structure Schedule.Passes (s : Schedule) (ws : Workspace) (roots : List NodeRef) (n : NodeRef)
    (i : Instruction) : Prop where
  requires : i.requiresGradient = true ↔ ws.Passed roots n
  backward : i ∈ s.backward ↔ ws.Passed roots n
  ascending : (i.gradientPositions.map (·.1)).Pairwise (· < ·)
  positions : ∀ position slot, (position, slot) ∈ i.gradientPositions ↔
    ∃ m, (ws.node n).args[position]? = some (.node m) ∧ ws.Passed roots m ∧
      s.Resolves ws (.node m) (.slot slot)

namespace Compiled

variable {ws : Workspace} {registry : Registry} {marks : GradientMarks} {id : Nat}
  {order roots : List NodeRef} {keep : List String} {s : Schedule} {n m : NodeRef} {i j : Instruction}
  (h : Compiled ws registry marks order roots keep s) (ord : ws.Orders id roots order)
include h ord

/-- A node of the order stands as its slot, and as no other. -/
theorem resolves_slot_iff (sound : ws.Sound) (hm : m ∈ order) {r : Slot} :
    s.Resolves ws (.node m) (.slot r) ↔ s.slotFor ws m = r := by
  constructor
  · intro resolves
    cases resolves with
    | plain plain mem handle output =>
      rw [Schedule.slotFor, source_of_plain plain, ← handle, ← output]
      exact (h.slots _ mem).1.symm
    | @selector _ p k _ role args mem handle output =>
      have source : ws.source m = (p, k) := by simp only [Workspace.source, role, args]
      rw [Schedule.slotFor, source, ← handle, ← output]
      exact (h.slots _ mem).1.symm
  · rintro rfl
    refine h.resolves_argOf ord sound fun k node => ?_
    cases node
    exact hm

/-- An operation has no second instruction. -/
theorem instruction_unique_of_handle (hi : i ∈ s.forward) (hj : j ∈ s.forward)
    (same : i.handle = j.handle) : i = j := by
  have nodup : (s.forward.map (·.handle)).Nodup := by
    rw [h.map_handle]
    exact ord.nodup_handles.sublist (List.filter_sublist.map _)
  exact List.inj_on_of_nodup_map nodup hi hj same

theorem passes (sound : ws.Sound) (hn : n ∈ order) (hi : i ∈ s.forward)
    (instructs : Instructs ws registry marks s n i) : s.Passes ws roots n i := by
  have passed_iff : ∀ {m}, m ∈ order → (marks.marked m = true ↔ ws.Passed roots m) := fun {m} hm =>
    (h.settles.marked_iff sound ord hm).trans (differentiated_iff_passed sound ((ord.mem_iff m).mp hm))
  have requires : i.requiresGradient = true ↔ ws.Passed roots n := by
    rw [instructs.requiresGradient, passed_iff hn]
  refine ⟨requires, ?_, ?_, fun position slot => ?_⟩
  · rw [h.backward, List.mem_reverse, List.mem_filter, and_iff_right hi, requires]
  · rw [instructs.gradientPositions]
    exact Schedule.markedArgs_sorted
  · rw [instructs.gradientPositions, Schedule.mem_markedArgs]
    refine exists_congr fun m => and_congr_right fun arg => ?_
    have hm : m ∈ order := ord.input_mem hn (mem_inputs_of_arg (List.mem_of_getElem? arg))
    rw [passed_iff hm, h.resolves_slot_iff ord sound hm, eq_comm]

end Compiled

/-- In a schedule that is compiled, every operation has one instruction, there are no others, and what
they say of gradients is what the paths of the graph say. -/
theorem Workspace.Built.gradient_paths {ws ws' : Workspace} {terminals : List Value}
    {options : CompileOptions} {s : Schedule} (built : ws.Built)
    (exist : ∀ n ∈ nodesIn terminals, ws.Exists n)
    (run : ws.compile terminals options = (.ok s, ws')) :
    (∀ n, ws.Reaches (nodesIn terminals) n → (ws.node n).role = .operation →
      ∃ i ∈ s.forward, i.handle = n.handle ∧ (∀ j ∈ s.forward, j.handle = n.handle → j = i) ∧
        s.Passes ws (nodesIn terminals) n i) ∧
      ∀ i ∈ s.forward, ∃ n, ws.Reaches (nodesIn terminals) n ∧ (ws.node n).role = .operation ∧
        i.handle = n.handle := by
  obtain ⟨⟨id, order, marks, sched⟩, -⟩ := built.compile_spec exist run
  obtain ⟨compiled, ord⟩ := And.intro sched.compiled sched.orders
  constructor
  · intro n reaches role
    have hn := (ord.mem_iff n).mpr reaches
    obtain ⟨i, hi, instructs⟩ := compiled.instruction_of_operation hn ((Node.isOperation_iff _).mpr role)
    refine ⟨i, hi, instructs.handle, fun j hj handle => ?_, compiled.passes ord built.sound hn hi instructs⟩
    exact compiled.instruction_unique_of_handle ord hj hi (handle.trans instructs.handle.symm)
  · intro i hi
    obtain ⟨n, hn, operation, instructs⟩ := compiled.operation_of_instruction hi
    exact ⟨n, (ord.mem_iff n).mp hn, (Node.isOperation_iff _).mp operation, instructs.handle⟩

/-! ### A node that is used twice -/

namespace Sample

/-- The graph of the second sum times itself, with the parameter `p` given by keyword. -/
def squared : Workspace :=
  match sums.applyIn 0 "mul" [.node ⟨0, 3⟩, .node ⟨0, 3⟩] [("scale", .node ⟨0, 1⟩)] with
  | .ok (ws, _) => ws
  | .error _ => sums

theorem squared_built : squared.Built := by
  unfold squared
  split
  next call =>
    refine sums_built.apply (fun n mem => ?_) call
    have two : n = ⟨0, 3⟩ ∨ n = ⟨0, 1⟩ := by simpa using mem
    rcases two with rfl | rfl
    · exact ⟨_, rfl, by decide⟩
    · exact ⟨_, rfl, by decide⟩
  next => exact sums_built

end Sample

theorem Workspace.gradient_paths_squared : ∃ s ws',
    Sample.squared.compile [.node ⟨0, 4⟩] = (.ok s, ws') ∧
      ∃ i ∈ s.forward, i.handle = 4 ∧ s.Passes Sample.squared [⟨0, 4⟩] ⟨0, 4⟩ i := by
  have exist : ∀ n ∈ nodesIn [.node ⟨0, 4⟩], Sample.squared.Exists n := by
    intro n mem
    obtain rfl : n = ⟨0, 4⟩ := by simpa [nodesIn, Value.node?] using mem
    exact ⟨_, rfl, by decide⟩
  have compiles : (Sample.squared.compile [.node ⟨0, 4⟩]).1.isOk = true := by cbv
  cases run : Sample.squared.compile [.node ⟨0, 4⟩] with
  | mk result ws' =>
    rw [run] at compiles
    cases result with
    | error e => cases compiles
    | ok s =>
      obtain ⟨each, -⟩ := Sample.squared_built.gradient_paths exist run
      obtain ⟨i, hi, handle, -, passes⟩ := each ⟨0, 4⟩ (.root (by simp [nodesIn, Value.node?])) rfl
      exact ⟨s, ws', rfl, i, hi, handle, passes⟩

end Backprop
