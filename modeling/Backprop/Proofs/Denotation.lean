import Backprop.Proofs.Nets
/-!
# What a graph denotes

The results of a node by recursion on the graph, without slots or an order of evaluation.

* `Workspace.results` are the results of a node, one for each of its outputs;
  `Workspace.denoted` is what the node stands for as an argument.
* `Sound.results_operation`: an operation applies its kernel to what its arguments denote.
* `Compiled.valuesAfter_results`: running the instructions of operations yields their results, and
  stops at the first operation that fails.
-/

namespace Backprop

/-- What the results of nodes depend on besides the graph. -/
structure Interpretation where
  /-- Where operations are looked up if not in the registry of the graph. -/
  registry : Option Registry
  /-- Whether test kernels run where there are some. -/
  testing : Bool
  /-- The name that errors show for a node. -/
  shown : NodeRef → String
  /-- The values of inputs and parameters. -/
  leaf : NodeRef → Value

namespace Workspace

/-- A constant as it is, and a node as what it denotes. -/
def read (value : NodeRef → Except Error Value) : Value → Except Error Value
  | .node m => value m
  | v => .ok v

/-- The outputs in a result: the result itself if there is one output, or else as many. -/
def components (kind name : String) (count : Nat) (result : Value) : Except Error (List Value) :=
  if count = 1 then .ok [result]
  else
    match result with
    | .tuple l | .list l => if l.length = count then .ok l else .error (.outputMismatch kind name count)
    | _ => .error (.outputMismatch kind name count)

/-- What an operation computes when nodes denote these values. -/
def applied (ws : Workspace) (I : Interpretation) (value : NodeRef → Except Error Value)
    (n : NodeRef) : Except Error (List Value) := do
  let operation ← (ws.registryFor n.graph I.registry).get (ws.node n).kind
  let args ← (ws.node n).args.mapM (read value)
  let kwargs ← (ws.node n).kwargs.mapM fun (k, v) => do return (k, ← read value v)
  components operation.kind (I.shown n) (ws.node n).outputs
    (← operation.forwardKernel I.testing args kwargs)

/-- The results of a node. A leaf has its value, a selector takes a result of its parent, and an
operation applies its kernel to what its arguments denote, a node denoting its first result. Nodes
refer to earlier ones only. -/
def results (ws : Workspace) (I : Interpretation) (n : NodeRef) : Except Error (List Value) :=
  let earlier (m : NodeRef) : Except Error (List Value) :=
    if _earlier : m.handle < n.handle then results ws I m else .error .cycle
  match (ws.node n).role with
  | .operation => ws.applied I (fun m => do return (← earlier m).headD .none) n
  | .selector k => do
    let parent ← (ws.node n).parent
    return [(← earlier parent).getD k .none]
  | _ => .ok [I.leaf n]
termination_by n.handle

/-- What a node denotes as an argument. -/
def denoted (ws : Workspace) (I : Interpretation) (n : NodeRef) : Except Error Value := do
  return (← ws.results I n).headD .none

variable {ws : Workspace} {I : Interpretation} {n : NodeRef}

/-- What an operation computes depends on what its inputs denote. -/
theorem applied_congr {value value' : NodeRef → Except Error Value}
    (same : ∀ m ∈ ws.inputs n, value m = value' m) :
    ws.applied I value n = ws.applied I value' n := by
  have args : (ws.node n).args.mapM (read value) = (ws.node n).args.mapM (read value') := by
    refine mapM_congr_mem fun v hv => ?_
    cases v with
    | node m => exact same m (mem_inputs_of_arg hv)
    | _ => rfl
  have kwargs : ((ws.node n).kwargs.mapM fun (k, v) => do return (k, ← read value v)) =
      (ws.node n).kwargs.mapM fun (k, v) => do return (k, ← read value' v) := by
    refine mapM_congr_mem fun p hp => ?_
    obtain ⟨k, v⟩ := p
    cases v with
    | node m =>
      have member : m ∈ ws.inputs n :=
        List.mem_append_right _ (List.mem_filterMap.mpr ⟨_, hp, rfl⟩)
      simp only [read, same m member]
    | _ => rfl
  unfold applied
  rw [args, kwargs]

theorem results_leaf (leaf : (ws.node n).isLeaf = true) : ws.results I n = .ok [I.leaf n] := by
  rw [results]
  cases role : (ws.node n).role with
  | operation => simp [Node.isLeaf, Node.isInput, Node.isParam, role] at leaf
  | selector k => simp [Node.isLeaf, Node.isInput, Node.isParam, role] at leaf
  | _ => rfl

namespace Sound

variable (sound : ws.Sound)
include sound

theorem results_operation (operation : (ws.node n).isOperation = true) :
    ws.results I n = ws.applied I (ws.denoted I) n := by
  rw [results, (Node.isOperation_iff _).mp operation]
  refine applied_congr fun m hm => ?_
  simp only [dif_pos (sound.input_lt hm).2.1]
  rfl

theorem results_selector {k : Nat} {p : NodeRef} {rest : List Value}
    (role : (ws.node n).role = .selector k) (args : (ws.node n).args = .node p :: rest) :
    ws.results I n = do return [(← ws.results I p).getD k .none] := by
  obtain ⟨p', args', _, member, _⟩ := sound.selector role
  rw [args'] at args
  cases args
  have parent : (ws.node n).parent = .ok p := by rw [Node.parent, args']
  have go : ∀ f : NodeRef → Except Error (List Value), (Except.ok p >>= f) = f p := fun _ => rfl
  rw [results, role]
  simp only [parent, go, dif_pos (sound.input_lt member).2.1]

/-- A node denotes a result of the node that it stands for. -/
theorem denoted_eq {outs : List Value} (results : ws.results I (ws.source n).1 = .ok outs) :
    ws.denoted I n = .ok (outs.getD (ws.source n).2 .none) := by
  unfold denoted
  cases selector : (ws.node n).isSelector with
  | true =>
    cases role : (ws.node n).role with
    | selector k =>
      obtain ⟨p, args, _⟩ := sound.selector role
      have source : ws.source n = (p, k) := by simp [source, role, args]
      rw [source] at results ⊢
      rw [sound.results_selector role args, results]
      rfl
    | _ => simp [Node.isSelector, role] at selector
  | false =>
    rw [source_of_plain selector] at results ⊢
    rw [results]
    cases outs <;> rfl

end Sound

end Workspace

/-! ### Running instructions -/

section
variable {ws : Workspace} {I : Interpretation} {registry : Registry} {marks : GradientMarks}
  {s : Schedule} {n : NodeRef} {i : Instruction} {net : Net}

open Workspace

/-- An instruction with its own constants runs on what the arguments of its node have become. -/
theorem Instructs.arguments_eq (h : Instructs ws registry marks s n i) (val : Valuation) :
    i.arguments val i.constants =
      ((ws.node n).args.map fun v => (s.argOf ws v).value val (Net.constantOf (s.argOf ws v)),
        (ws.node n).kwargs.map fun p =>
          (p.1, (s.argOf ws p.2).value val (Net.constantOf (s.argOf ws p.2)))) := by
  simp only [Instruction.arguments, Instruction.constants, h.args, h.kwargs, List.map_map,
    List.zip_map', Function.comp_def]

/-- The instruction of an operation computes its results from what its inputs denote. -/
theorem Instructs.results_eq (sound : ws.Sound)
    (h : Instructs ws (ws.registryFor n.graph I.registry) marks s n i)
    (operation : (ws.node n).isOperation = true) (shown : I.shown n = i.name)
    (constants : net.constantsOf i = .ok i.constants) {val : Valuation}
    (inputs : ∀ m ∈ ws.inputs n, ws.denoted I m = .ok (val (s.slotFor ws m))) :
    ws.results I n = net.outputsOf I.testing val i := by
  have args : (ws.node n).args.mapM (read fun m => .ok (val (s.slotFor ws m))) =
      .ok (i.arguments val i.constants).1 := by
    rw [h.arguments_eq]
    refine mapM_eq_ok fun v _ => ?_
    cases v <;> rfl
  have kwargs : ((ws.node n).kwargs.mapM fun (k, v) => do
      return (k, ← read (fun m => .ok (val (s.slotFor ws m))) v)) =
      .ok (i.arguments val i.constants).2 := by
    rw [h.arguments_eq]
    refine mapM_eq_ok fun p _ => ?_
    obtain ⟨k, v⟩ := p
    cases v <;> rfl
  have split : ∀ result, Net.splitOutputs i result =
      components i.operation.kind (I.shown n) (ws.node n).outputs result := by
    intro result
    unfold Net.splitOutputs components
    rw [shown, h.outputs, List.length_map, List.length_range]
    rfl
  rw [sound.results_operation operation, applied_congr inputs]
  unfold applied Net.outputsOf Net.argumentsOf
  rw [args, kwargs, h.operation, constants]
  change (i.operation.forwardKernel I.testing _ _ >>= _) =
    (i.operation.forwardKernel I.testing _ _ >>= _)
  simp only [split]
  rfl

end

/-- The slots of leaves and of some operations hold the results of these nodes. -/
def Schedule.Agrees (s : Schedule) (ws : Workspace) (I : Interpretation)
    (order done : List NodeRef) (val : Valuation) : Prop :=
  ∀ n ∈ order, (ws.node n).isSelector = false → (ws.node n).isLeaf = true ∨ n ∈ done →
    ws.results I n =
      .ok ((List.range (ws.node n).slotCount).map fun k => val (s.slotAt n.handle k))

/-- A node denotes what the slot of the output that it stands for holds. -/
theorem Schedule.Agrees.denoted {ws : Workspace} {I : Interpretation} {s : Schedule}
    {order done : List NodeRef} {val : Valuation} {m : NodeRef} (sound : ws.Sound)
    (agrees : s.Agrees ws I order done val) (mem : (ws.source m).1 ∈ order)
    (ready : (ws.node (ws.source m).1).isLeaf = true ∨ (ws.source m).1 ∈ done) :
    ws.denoted I m = .ok (val (s.slotFor ws m)) := by
  obtain ⟨plain, bound, _⟩ := sound.source_spec m
  rw [sound.denoted_eq (agrees _ mem plain ready)]
  simp [List.getD_eq_getElem?_getD, List.getElem?_range bound, Schedule.slotFor]

namespace Schedules

variable {ws : Workspace} {I : Interpretation} {terminals order : List NodeRef} {keep : List String}
  {s : Schedule} {id : Nat} {marks : GradientMarks} {net : Net}
variable (sched : Schedules ws I.registry terminals keep s id order marks) (sound : ws.Sound)
include sched sound

/-- What a node refers to is a leaf or an earlier operation. -/
theorem source_ready {done rest : List NodeRef} {n m : NodeRef}
    (split : (order.filter fun n => (ws.node n).isOperation) = done ++ n :: rest)
    (hm : m ∈ ws.inputs n) : (ws.source m).1 ∈ order ∧
      ((ws.node (ws.source m).1).isLeaf = true ∨ (ws.source m).1 ∈ done) := by
  have ord := sched.orders
  have member : n ∈ order.filter fun n => (ws.node n).isOperation := by rw [split]; simp
  have hn : n ∈ order := (List.mem_filter.mp member).1
  obtain ⟨plain, _, place⟩ := sound.source_spec m
  have mem : (ws.source m).1 ∈ order := by
    rcases place with same | input
    · rw [same]
      exact ord.input_mem hn hm
    · exact ord.input_mem (ord.input_mem hn hm) input
  have earlier : (ws.source m).1.handle < n.handle := by
    have less := (sound.input_lt hm).2.1
    rcases place with same | input
    · rw [same]
      exact less
    · exact Nat.lt_trans (sound.input_lt input).2.1 less
  refine ⟨mem, ?_⟩
  cases operation : (ws.node (ws.source m).1).isOperation with
  | false => exact .inl (Node.isLeaf_of_not_isOperation plain (by simp [operation]))
  | true =>
    have among : (ws.source m).1 ∈ done ++ n :: rest := by
      rw [← split]
      exact List.mem_filter.mpr ⟨mem, operation⟩
    have sorted := ord.sorted.sublist (List.filter_sublist (p := fun n => (ws.node n).isOperation))
    rw [split] at sorted
    exact .inr (Workspace.mem_before sorted among earlier)

/-- An instruction computes the results of its operation, and leaves them in its slots. -/
theorem next (constants : ∀ i ∈ s.forward, net.constantsOf i = .ok i.constants)
    {done rest : List NodeRef} {n : NodeRef} {i : Instruction} {val : Valuation}
    (split : (order.filter fun n => (ws.node n).isOperation) = done ++ n :: rest)
    (hi : i ∈ s.forward) (shown : I.shown n = i.name)
    (instructs : Instructs ws (ws.registryFor id I.registry) marks s n i)
    (agrees : s.Agrees ws I order done val) :
    ws.results I n = net.outputsOf I.testing val i ∧
      ∀ outs, net.outputsOf I.testing val i = .ok outs →
        s.Agrees ws I order (done ++ [n]) (val.write i.outputs outs) := by
  have ord := sched.orders
  have member : n ∈ order.filter fun n => (ws.node n).isOperation := by rw [split]; simp
  obtain ⟨hn, operation⟩ := List.mem_filter.mp member
  have graph := ord.graph n hn
  rw [← graph] at instructs
  have same : ws.results I n = net.outputsOf I.testing val i := by
    refine instructs.results_eq sound operation shown (constants i hi) fun m hm => ?_
    obtain ⟨mem, ready⟩ := sched.source_ready sound split hm
    exact agrees.denoted sound mem ready
  have plain' := Node.isSelector_of_isOperation operation
  refine ⟨same, fun outs computed m hm plain ready => ?_⟩
  by_cases here : m = n
  · subst here
    have written := Valuation.map_write val (sched.wellFormed.outputs_nodup hi)
      (Net.length_of_outputsOf computed)
    rw [same, computed, Node.slotCount_of_isOperation operation]
    generalize val.write i.outputs outs = after at written ⊢
    rw [← written, instructs.outputs, List.map_map]
    rfl
  · rw [agrees m hm plain (by simpa [here] using ready)]
    congr 1
    refine List.map_congr_left fun k hk => (Valuation.write_of_not_mem _ _ fun out => ?_).symm
    rw [instructs.outputs] at out
    obtain ⟨j, hj, slot⟩ := List.mem_map.mp out
    rw [← Node.slotCount_of_isOperation operation] at hj
    exact here (sched.compiled.slotAt_inj ord hm plain (List.mem_range.mp hk) hn plain'
      (List.mem_range.mp hj) slot.symm).1

/-- Running the instructions of operations yields their results, and stops at the first that
fails. -/
theorem valuesAfter_results (constants : ∀ i ∈ s.forward, net.constantsOf i = .ok i.constants)
    (shown : ∀ n ∈ order, ∀ i ∈ s.forward, i.handle = n.handle → I.shown n = i.name) :
    ∀ {rest : List NodeRef} {l : List Instruction},
      List.Forall₂ (Instructs ws (ws.registryFor id I.registry) marks s) rest l →
      ∀ (done : List NodeRef) (val : Valuation),
        (order.filter fun n => (ws.node n).isOperation) = done ++ rest → l ⊆ s.forward →
        s.Agrees ws I order done val →
        match net.valuesAfter I.testing val l with
        | .ok after => s.Agrees ws I order (done ++ rest) after
        | .error e => ∃ pre n post, rest = pre ++ n :: post ∧ ws.results I n = .error e ∧
            ∀ m ∈ pre, ∃ outs, ws.results I m = .ok outs := by
  intro rest l each
  induction each with
  | nil =>
    intro done val _ _ agrees
    simpa using agrees
  | @cons n i rest l instructs _ ih =>
    intro done val split sub agrees
    have hi : i ∈ s.forward := sub (by simp)
    have member : n ∈ order.filter fun n => (ws.node n).isOperation := by rw [split]; simp
    have hn : n ∈ order := (List.mem_filter.mp member).1
    obtain ⟨same, after⟩ := sched.next sound constants split hi
      (shown n hn i hi instructs.handle) instructs agrees
    rw [Net.valuesAfter_cons]
    cases computed : net.outputsOf I.testing val i with
    | error e => exact ⟨[], n, rest, rfl, same.trans computed, by simp⟩
    | ok outs =>
      have later := ih (done ++ [n]) (val.write i.outputs outs) (by simpa using split)
        (fun j hj => sub (by simp [hj])) (after outs computed)
      simp only [Except.bind]
      split
      next w run =>
        rw [run] at later
        simpa using later
      next e run =>
        rw [run] at later
        obtain ⟨pre, m, post, rfl, failed, fine⟩ := later
        refine ⟨n :: pre, m, post, rfl, failed, fun k hk => ?_⟩
        rcases List.mem_cons.mp hk with rfl | hk
        · exact ⟨outs, same.trans computed⟩
        · exact fine k hk

end Schedules

end Backprop
