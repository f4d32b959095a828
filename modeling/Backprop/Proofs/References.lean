import Backprop.Proofs.Checked
import Backprop.Proofs.Recording
/-!
# Nodes inside arguments

The check of an argument goes into lists, tuples and the values of dictionaries. It does not go into
the keys of dictionaries and the parts of slices.

* `Value.Plain` are the values that pass as constants (`Graph.checkConstant_eq_ok_iff`), and
  `Value.Plain.hides`: if such a value holds a node, then behind a key or a part of a slice.
* `Workspace.Built.references`: what calls accept, what they take for inputs, and what becomes of the
  arguments in a schedule.
* `References.hidden_in_slice`: a node in a slice is accepted and is no input.
-/

namespace Backprop

namespace Value

/-- The parts of a value that are looked at when it is checked. -/
def inspected : Value → List Value
  | list l | tuple l => l
  | dict entries => entries.map (·.2)
  | _ => []

/-- The parts that are not. -/
def unseen : Value → List Value
  | dict entries => entries.map (·.1)
  | slice start stop step => [start, stop, step]
  | objects _ items => items
  | _ => []

/-- Data by itself: no node, no array of objects and nothing foreign. -/
def isData : Value → Bool
  | node _ | objects .. | foreign _ => false
  | _ => true

/-- A node occurs somewhere in a value. -/
inductive Holds (n : NodeRef) : Value → Prop where
  | node : Holds n (.node n)
  | inspected {v w : Value} : w ∈ v.inspected → Holds n w → Holds n v
  | unseen {v w : Value} : w ∈ v.unseen → Holds n w → Holds n v

/-- A node occurs in a value where it is not looked for. -/
inductive Hides (n : NodeRef) : Value → Prop where
  | unseen {v w : Value} : w ∈ v.unseen → w.Holds n → Hides n v
  | inspected {v w : Value} : w ∈ v.inspected → Hides n w → Hides n v

/-- Data all the way down, as far as it is looked at. -/
inductive Plain : Value → Prop where
  | intro {v : Value} : v.isData = true → (∀ w ∈ v.inspected, Plain w) → Plain v

variable {v : Value} {n : NodeRef}

theorem sizeOf_lt_of_inspected {w : Value} (h : w ∈ v.inspected) : sizeOf w < sizeOf v := by
  cases v with
  | list l | tuple l =>
    have member : w ∈ l := h
    have := List.sizeOf_lt_of_mem member
    simp only [list.sizeOf_spec, tuple.sizeOf_spec]
    omega
  | dict entries =>
    obtain ⟨⟨k, w⟩, member, rfl⟩ := List.mem_map.mp h
    have := List.sizeOf_lt_of_mem member
    simp only [dict.sizeOf_spec, Prod.mk.sizeOf_spec] at this ⊢
    omega
  | _ => cases h

theorem Plain.node?_eq_none (h : v.Plain) : v.node? = Option.none := by
  obtain ⟨data, _⟩ := h
  cases v <;> first | rfl | cases data

theorem Hides.holds (h : v.Hides n) : v.Holds n := by
  induction h with
  | unseen part holds => exact .unseen part holds
  | inspected part _ ih => exact .inspected part ih

/-- In plain data a node occurs only where it is not looked for. -/
theorem Plain.hides (h : v.Plain) (holds : v.Holds n) : v.Hides n := by
  induction holds with
  | node => cases h.node?_eq_none
  | inspected part _ ih =>
    obtain ⟨_, parts⟩ := h
    exact .inspected part (ih (parts _ part))
  | unseen part holds _ => exact .unseen part holds

end Value

namespace Graph

variable {g : Graph} {v : Value}

theorem checkConstants_eq_ok_iff {l : List Value} :
    checkConstants l = .ok () ↔ ∀ v ∈ l, checkConstant v = .ok () := by
  induction l with
  | nil => simp [checkConstants]
  | cons v l ih =>
    rw [checkConstants, List.forall_mem_cons, ← ih]
    cases checkConstant v <;> simp [bind, Except.bind]

theorem checkEntries_eq_ok_iff {l : List (Value × Value)} :
    checkEntries l = .ok () ↔ ∀ v ∈ l.map (·.2), checkConstant v = .ok () := by
  induction l with
  | nil => simp [checkEntries]
  | cons p l ih =>
    rw [checkEntries, List.map_cons, List.forall_mem_cons, ← ih]
    cases checkConstant p.2 <;> simp [bind, Except.bind]

/-- A constant passes if it is data itself and so are the parts that are looked at. -/
theorem checkConstant_step : checkConstant v = .ok () ↔
    v.isData = true ∧ ∀ w ∈ v.inspected, checkConstant w = .ok () := by
  cases v <;>
    simp [checkConstant, Value.isData, Value.inspected, checkConstants_eq_ok_iff,
      checkEntries_eq_ok_iff]

theorem checkConstant_eq_ok_iff : checkConstant v = .ok () ↔ v.Plain := by
  refine ⟨fun h => ?_, fun h => ?_⟩
  · induction size : sizeOf v using Nat.strong_induction_on generalizing v with
    | _ k ih =>
      subst size
      obtain ⟨data, parts⟩ := checkConstant_step.mp h
      exact .intro data fun w part => ih _ (Value.sizeOf_lt_of_inspected part) (parts w part) rfl
  · induction h with
    | intro data _ ih => exact checkConstant_step.mpr ⟨data, ih⟩

/-- An argument of a graph is a node of it or plain data. -/
theorem checkArgument_eq_ok_iff : g.checkArgument v = .ok () ↔
    (∃ n, v = .node n ∧ n.graph = g.id) ∨ v.Plain := by
  rw [← checkConstant_eq_ok_iff]
  cases v <;> simp [checkArgument, checkConstant]

theorem plain_of_vetParam {value : Value} {name : Option String} {learningRate weightDecay : Value}
    {trainMethod : String} {data : ParamData}
    (h : vetParam value name learningRate weightDecay trainMethod = .ok data) :
    value.Plain ∧ data.value = value := by
  simp only [vetParam] at h
  split at h
  next => cases h
  next =>
    obtain ⟨_, constant, h⟩ := ok_of_bind h
    split at h
    next => cases h
    next =>
      cases h
      exact ⟨checkConstant_eq_ok_iff.mp constant, rfl⟩

end Graph

/-- Arguments are nodes of one graph or plain data, and so is what a parameter holds. -/
structure Node.Vetted (id : Nat) (n : Node) : Prop where
  arguments : ∀ v ∈ n.args ++ n.kwargs.map (·.2), (∃ m, v = .node m ∧ m.graph = id) ∨ v.Plain
  value : ∀ data, n.role = .param data → data.value.Plain

namespace Graph

theorem arguments_of_vet {g : Graph} {kind : String} {args : List Value} {kwargs : Keywords}
    {options : CallOptions} {outputs : Nat} (h : g.vet kind args kwargs options = .ok outputs) :
    ∀ v ∈ args ++ kwargs.map (·.2), (∃ n, v = .node n ∧ n.graph = g.id) ∨ v.Plain := by
  obtain ⟨_, _, _, positional, keywords⟩ := vet_eq_ok_iff.mp h
  intro v hv
  rcases List.mem_append.mp hv with hv | hv
  · exact checkArgument_eq_ok_iff.mp (positional v hv)
  · obtain ⟨p, hp, rfl⟩ := List.mem_map.mp hv
    exact checkArgument_eq_ok_iff.mp (keywords p hp)

/-- The nodes that a call adds are vetted. -/
theorem vetted_of_calledNodes {g : Graph} {kind : String} {args : List Value} {kwargs : Keywords}
    {options : CallOptions} {nodes : List Node}
    (h : g.calledNodes kind args kwargs options = .ok nodes) : ∀ n ∈ nodes, n.Vetted g.id := by
  simp only [calledNodes] at h
  cases vetted : g.vet kind args kwargs options with
  | error e =>
    rw [vetted] at h
    cases h
  | ok outputs =>
    rw [vetted] at h
    cases h
    intro n hn
    rcases List.mem_cons.mp hn with rfl | selector
    · exact ⟨arguments_of_vet vetted, fun _ role => by cases role⟩
    · obtain ⟨output, _, rfl⟩ := List.mem_map.mp selector
      refine ⟨fun v hv => .inl ⟨g.ref g.size, ?_, rfl⟩, fun _ role => by cases role⟩
      simpa [selectorOf] using hv

end Graph

namespace Workspace

variable {ws ws' : Workspace}

/-- Every node of every graph is vetted. -/
def Vetted (ws : Workspace) : Prop := ∀ id, ∀ n ∈ (ws.graph id).nodes, n.Vetted id

theorem Vetted.setGraph (h : ws.Vetted) {g : Graph} (all : ∀ n ∈ g.nodes, n.Vetted g.id) :
    (ws.setGraph g).Vetted := by
  intro id n hn
  rw [graph_setGraph] at hn
  split at hn
  next same =>
    rw [← same.1]
    exact all n hn
  next => exact h id n hn

theorem Vetted.extend (h : ws.Vetted) (sound : ws.Sound) {id : Nat} {nodes : List Node}
    (all : ∀ n ∈ nodes, n.Vetted id) : (ws.setGraph ((ws.graph id).extend nodes)).Vetted := by
  refine h.setGraph fun n hn => ?_
  have number : ((ws.graph id).extend nodes).id = id := sound.graph_id id
  rw [number]
  rcases Array.mem_append.mp hn with old | new
  · exact h id n old
  · exact all n (by simpa using new)

/-- Calls leave only vetted nodes in the graphs. -/
theorem Built.vetted (built : ws.Built) : ws.Vetted := by
  induction built with
  | empty =>
    intro id n hn
    simp [graph, graph?] at hn
  | @addGraph ws _ ih =>
    intro id n hn
    simp only [graph, graph?, Workspace.addGraph, Array.getElem?_push] at hn
    split at hn
    next => simp at hn
    next => exact ih id n hn
  | @input ws id name gradient placed built ih =>
    rw [Graph.input, Graph.push_eq_extend]
    refine ih.extend built.sound fun n hn => ?_
    rw [List.mem_singleton.mp hn]
    exact ⟨fun v hv => by simp at hv, fun _ role => by cases role⟩
  | @param ws id value name learningRate weightDecay trainMethod placed g n built call ih =>
    rw [Graph.param_eq] at call
    cases checked : Graph.vetParam value name learningRate weightDecay trainMethod with
    | error e =>
      rw [checked] at call
      cases call
    | ok data =>
      simp only [checked, Except.map, Graph.push_eq_extend] at call
      cases call
      refine ih.extend built.sound fun n hn => ?_
      rw [List.mem_singleton.mp hn]
      obtain ⟨plain, same⟩ := Graph.plain_of_vetParam checked
      refine ⟨fun v hv => by simp [Graph.paramNode] at hv, fun data' role => ?_⟩
      cases role
      rwa [same]
  | @apply ws ws' id kind args kwargs options nodes built _ call ih =>
    rw [applyIn, Graph.apply_eq] at call
    cases added : (ws.graph id).calledNodes kind args kwargs options with
    | error e =>
      rw [added] at call
      cases call
    | ok new =>
      rw [added] at call
      cases call
      refine ih.extend built.sound fun n hn => ?_
      rw [← built.sound.graph_id id]
      exact Graph.vetted_of_calledNodes added n hn
  | @register ws id registry built ih =>
    refine ih.setGraph fun n hn => ?_
    rw [show ({ ws.graph id with registry } : Graph).id = id from built.sound.graph_id id]
    exact ih id n hn
  | @rename ws n name built ih =>
    refine ih.setGraph fun m hm => ?_
    rw [show ((ws.graph n.graph).rename n.handle name).id = n.graph from built.sound.graph_id _]
    obtain ⟨k, found⟩ := Array.mem_iff_getElem?.mp hm
    simp only [Graph.rename, Array.getElem?_modify] at found
    split at found
    next =>
      obtain ⟨old, there, rfl⟩ := Option.map_eq_some_iff.mp found
      obtain ⟨arguments, value⟩ := ih n.graph old (Array.mem_of_getElem? there)
      exact ⟨arguments, value⟩
    next => exact ih n.graph m (Array.mem_of_getElem? found)
  | report verbose journal _ ih => exact ih

theorem Built.vetted_node (built : ws.Built) {n : NodeRef} (there : ws.Exists n) :
    (ws.node n).Vetted n.graph := by
  obtain ⟨g, found, node⟩ := there.node_eq
  have graph : ws.graph n.graph = g := by rw [graph, found, Option.getD_some]
  exact built.vetted n.graph _ (graph ▸ Array.mem_of_getElem? node)

/-- The inputs of a recorded node are the nodes among the arguments. -/
theorem inputs_of_applyIn (sound : ws.Sound) {id : Nat} (there : id < ws.graphs.size) {kind : String}
    {args : List Value} {kwargs : Keywords} {options : CallOptions} {refs : List NodeRef}
    (call : ws.applyIn id kind args kwargs options = .ok (ws', refs)) :
    ∃ n rest, refs = n :: rest ∧ ∀ m, m ∈ ws'.inputs n ↔ .node m ∈ args ++ kwargs.map (·.2) := by
  rw [applyIn, Graph.apply_eq, Graph.calledNodes] at call
  cases vetted : (ws.graph id).vet kind args kwargs options with
  | error e =>
    rw [vetted] at call
    cases call
  | ok outputs =>
    rw [vetted] at call
    cases call
    let node := Graph.calledNode kind args kwargs options outputs
    let g := (ws.graph id).extend ((ws.graph id).additions node)
    have number : g.id = id := sound.graph_id id
    have found : (ws.setGraph g).graph? (ws.graph id).id = some g :=
      graph?_setGraph (by rwa [number])
    have first : g.nodes[(ws.graph id).nodes.size]? = some node := by
      simp [g, Graph.extend, Graph.additions]
    obtain ⟨eq, _⟩ := node_of_getElem? (n := (ws.graph id).ref (ws.graph id).size) found first
    refine ⟨_, _, rfl, fun m => ?_⟩
    rw [inputs, eq, mem_inputs_iff]
    rfl

end Workspace

namespace Instructs

variable {ws : Workspace} {registry : Registry} {marks : GradientMarks} {s : Schedule} {n m : NodeRef}
  {i : Instruction} (h : Instructs ws registry marks s n i)
include h

theorem operands_eq : i.args ++ i.kwargs.map (·.2) =
    ((ws.node n).args ++ (ws.node n).kwargs.map (·.2)).map (s.argOf ws) := by
  simp [h.args, h.kwargs, Function.comp_def]

/-- Every input of the node is read. -/
theorem slot_mem (input : m ∈ ws.inputs n) :
    .slot (s.slotFor ws m) ∈ i.args ++ i.kwargs.map (·.2) := by
  rw [h.operands_eq]
  exact List.mem_map.mpr ⟨_, Workspace.mem_inputs_iff.mp input, rfl⟩

/-- Constants are arguments of the node. -/
theorem const_mem {v : Value} (const : .const v ∈ i.args ++ i.kwargs.map (·.2)) :
    v ∈ (ws.node n).args ++ (ws.node n).kwargs.map (·.2) ∧ ∀ m, v ≠ .node m := by
  rw [h.operands_eq] at const
  obtain ⟨w, hw, eq⟩ := List.mem_map.mp const
  unfold Schedule.argOf at eq
  split at eq
  next => cases eq
  next constant =>
    cases eq
    exact ⟨hw, constant⟩

end Instructs

namespace Workspace

variable {ws ws' : Workspace}

/-- Whatever the graphs of a program are: what a call accepts as an argument is a node of its graph or
holds nodes only where they are not looked for, and the nodes of the first kind are the inputs of what
is recorded; a parameter is no node and holds nodes only there; and in a schedule every input is a slot
that is read, and constants hold nodes only there. -/
theorem Built.references (built : ws.Built) :
    (∀ (id : Nat) (kind : String) (args : List Value) (kwargs : Keywords) (options : CallOptions)
        (ws' : Workspace) (refs : List NodeRef), id < ws.graphs.size →
      ws.applyIn id kind args kwargs options = .ok (ws', refs) →
      (∀ v ∈ args ++ kwargs.map (·.2), (∃ n, v = .node n ∧ n.graph = id) ∨
        v.node? = none ∧ ∀ n, v.Holds n → v.Hides n) ∧
      ∃ n rest, refs = n :: rest ∧ ∀ m, m ∈ ws'.inputs n ↔ .node m ∈ args ++ kwargs.map (·.2)) ∧
    (∀ (id : Nat) (value : Value) (name : Option String) (learningRate weightDecay : Value)
        (trainMethod : String) (placed : Bool) (r : Graph × NodeRef),
      (ws.graph id).param value name learningRate weightDecay trainMethod placed = .ok r →
      value.node? = none ∧ ∀ n, value.Holds n → value.Hides n) ∧
    ∀ (terminals : List Value) (options : CompileOptions) (s : Schedule) (ws' : Workspace),
      (∀ n ∈ nodesIn terminals, ws.Exists n) → ws.compile terminals options = (.ok s, ws') →
      ∀ i ∈ s.forward, ∃ n ∈ s.nodes, i.handle = n.handle ∧
        (∀ m ∈ ws.inputs n, m ∈ s.nodes ∧ .slot (s.slotFor ws m) ∈ i.args ++ i.kwargs.map (·.2)) ∧
        ∀ v, .const v ∈ i.args ++ i.kwargs.map (·.2) →
          v.node? = none ∧ ∀ n, v.Holds n → v.Hides n := by
  have plain {v : Value} (h : v.Plain) : v.node? = none ∧ ∀ n, v.Holds n → v.Hides n :=
    ⟨h.node?_eq_none, fun n => h.hides⟩
  refine ⟨?_, ?_, ?_⟩
  · intro id kind args kwargs options ws' refs there call
    refine ⟨fun v hv => ?_, inputs_of_applyIn built.sound there call⟩
    rw [applyIn, Graph.apply_eq, Graph.calledNodes] at call
    cases vetted : (ws.graph id).vet kind args kwargs options with
    | error e =>
      rw [vetted] at call
      cases call
    | ok outputs =>
      have arguments := Graph.arguments_of_vet vetted v hv
      rw [built.sound.graph_id] at arguments
      exact arguments.imp_right plain
  · intro id value name learningRate weightDecay trainMethod placed r call
    rw [Graph.param_eq] at call
    cases checked : Graph.vetParam value name learningRate weightDecay trainMethod with
    | error e =>
      rw [checked] at call
      cases call
    | ok data => exact plain (Graph.plain_of_vetParam checked).1
  · intro terminals options s ws' exist run i hi
    obtain ⟨⟨id, order, marks, sched⟩, _, _⟩ := built.compile_spec exist run
    obtain ⟨n, hn, operation, instructs⟩ := sched.compiled.operation_of_instruction hi
    rw [sched.compiled.nodes]
    refine ⟨n, hn, instructs.handle, fun m hm => ⟨sched.orders.input_mem hn hm, ?_⟩, fun v hv => ?_⟩
    · exact instructs.slot_mem hm
    · obtain ⟨member, constant⟩ := instructs.const_mem hv
      have arguments := (built.vetted_node (sched.orders.exist n hn)).arguments v member
      refine plain (arguments.resolve_left ?_)
      rintro ⟨m, eq, -⟩
      exact constant m eq

end Workspace

namespace References

open Workspace

/-- From the place on that a node stands for. -/
def fromNode : Value := .slice (.node ⟨0, 1⟩) .none .none

theorem fromNode_hides : fromNode.Hides ⟨0, 1⟩ := .unseen List.mem_cons_self .node

/-- The graph of the items of `x` from `p` on. -/
def items : Except Error (Workspace × List NodeRef) :=
  Sample.leaves.applyIn 0 "getitem" [.node ⟨0, 0⟩, fromNode] []

theorem references_sample : ∃ ws refs, items = .ok (ws, refs) ∧
    (∀ v ∈ [.node ⟨0, 0⟩, fromNode], (∃ n, v = .node n ∧ n.graph = 0) ∨
      v.node? = none ∧ ∀ n, v.Holds n → v.Hides n) ∧
    ∃ n rest, refs = n :: rest ∧ ∀ m, m ∈ ws.inputs n ↔ .node m ∈ [.node ⟨0, 0⟩, fromNode] := by
  have accepted : items.isOk = true := by cbv
  cases call : items with
  | error e =>
    rw [call] at accepted
    cases accepted
  | ok r =>
    obtain ⟨ws, refs⟩ := r
    refine ⟨ws, refs, rfl, ?_⟩
    exact Sample.leaves_built.references.1 0 "getitem" [.node ⟨0, 0⟩, fromNode] [] {} ws refs
      (by decide) call

/-- A call with a node inside a slice is accepted. The node is no input of what is recorded, and what
is compiled for it leaves the node out. -/
theorem hidden_in_slice : fromNode.Holds ⟨0, 1⟩ ∧ ∃ ws refs, items = .ok (ws, refs) ∧
    refs = [⟨0, 2⟩] ∧ ⟨0, 1⟩ ∉ ws.inputs ⟨0, 2⟩ ∧
    ∃ s ws', ws.compile [.node ⟨0, 2⟩] = (.ok s, ws') ∧ ⟨0, 1⟩ ∉ s.nodes := by
  have accepted : (items.map fun (ws, refs) =>
      refs == [⟨0, 2⟩] && !(ws.inputs ⟨0, 2⟩).contains ⟨0, 1⟩) = .ok true := by cbv
  have compiled : (items.map fun (ws, _) =>
      ((ws.compile [.node ⟨0, 2⟩]).1.map fun s => s.nodes.contains ⟨0, 1⟩).toOption) =
      .ok (some false) := by cbv
  refine ⟨fromNode_hides.holds, ?_⟩
  cases call : items with
  | error e =>
    rw [call] at accepted
    cases accepted
  | ok r =>
    obtain ⟨ws, refs⟩ := r
    rw [call] at accepted compiled
    have passed : refs == [⟨0, 2⟩] && !(ws.inputs ⟨0, 2⟩).contains ⟨0, 1⟩ := Except.ok.inj accepted
    have left : ((ws.compile [.node ⟨0, 2⟩]).1.map fun s => s.nodes.contains ⟨0, 1⟩).toOption =
        some false := Except.ok.inj compiled
    simp only [Bool.and_eq_true, beq_iff_eq, Bool.not_eq_true', List.contains_eq_mem,
      decide_eq_false_iff_not] at passed
    refine ⟨ws, refs, rfl, passed.1, passed.2, ?_⟩
    cases run : ws.compile [.node ⟨0, 2⟩] with
    | mk result ws' =>
      rw [run] at left
      cases result with
      | error e => cases left
      | ok s =>
        refine ⟨s, ws', rfl, ?_⟩
        simpa [Except.map, Except.toOption] using left

end References

end Backprop
