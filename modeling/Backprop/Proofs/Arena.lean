import Mathlib.Data.List.Forall2
import Backprop.Graph.Naming
/-!
# Arenas built through calls

Graphs grow at the end only, and a call can name nodes only that exist, so nodes refer to earlier
nodes of their own graph.

* `Workspace.Built` are the workspaces that calls of the library lead to.
* `Built.sound`: every node of such a workspace is `Graph.SoundAt` its handle.
* `Workspace.Sound.input_lt`, `selector`, `leaf`, `outputs_pos` say the same of references.
-/

namespace Backprop

theorem ok_of_bind {ε α β : Type} {x : Except ε α} {f : α → Except ε β} {b : β}
    (h : (x >>= f) = .ok b) : ∃ a, x = .ok a ∧ f a = .ok b := by
  cases x with
  | error e => cases h
  | ok a => exact ⟨a, rfl, h⟩

theorem bind_eq_of_ok {ε α β : Type} {x : Except ε α} {f : α → Except ε β} {y : Except ε β} {a : α}
    (h : x = .ok a) (rest : f a = y) : (x >>= f) = y := by
  rw [h]
  exact rest

/-- Checks one after the other accept what each of them accepts. -/
theorem seq_eq_ok_iff {ε : Type} {x y : Except ε PUnit} :
    (x >>= fun _ => y) = .ok () ↔ x = .ok () ∧ y = .ok () := by
  cases x <;> simp [bind, Except.bind]

theorem forM_eq_ok_iff {ε α : Type} {f : α → Except ε PUnit} {l : List α} :
    l.forM f = .ok () ↔ ∀ a ∈ l, f a = .ok () := by
  induction l with
  | nil => exact iff_of_true rfl (by simp)
  | cons a l ih =>
    have steps : (a :: l).forM f = f a >>= fun _ => l.forM f := rfl
    rw [steps, seq_eq_ok_iff, ih, List.forall_mem_cons]

/-- A step that is different in two cases, with the same continuation. -/
theorem bindIf_eq_of_ok {ε α β : Type} {P : Prop} [Decidable P] {x x' : Except ε α}
    {f : α → Except ε β} {y : Except ε β} {a : α} (h : (if P then x else x') = .ok a)
    (rest : f a = y) : (if P then x >>= f else x' >>= f) = y := by
  by_cases p : P
  · rw [if_pos p] at h ⊢
    exact bind_eq_of_ok h rest
  · rw [if_neg p] at h ⊢
    exact bind_eq_of_ok h rest

theorem mapM_congr_mem {α β ε : Type} {f g : α → Except ε β} {l : List α}
    (h : ∀ a ∈ l, f a = g a) : l.mapM f = l.mapM g := by
  induction l with
  | nil => rfl
  | cons a l ih =>
    simp only [List.mapM_cons]
    rw [h a (by simp), ih fun b hb => h b (by simp [hb])]

theorem mapM_eq_ok {ε α β : Type} {f : α → Except ε β} {g : α → β} {l : List α}
    (each : ∀ a ∈ l, f a = .ok (g a)) : l.mapM f = .ok (l.map g) := by
  induction l with
  | nil => rfl
  | cons a l ih =>
    have rest := ih fun b hb => each b (List.mem_cons_of_mem a hb)
    rw [List.map_cons, List.mapM_cons]
    exact bind_eq_of_ok (each a List.mem_cons_self) (bind_eq_of_ok rest rfl)

/-- A function that gives back what it is given the images of. -/
theorem mapM_map_of_eq_ok {ε α β : Type} {f : β → Except ε α} {g : α → β} {l : List α}
    (each : ∀ a ∈ l, f (g a) = .ok a) : (l.map g).mapM f = .ok l := by
  rw [List.mapM_map]
  exact (mapM_eq_ok each).trans (congrArg _ l.map_id)

/-- Where one function gives results, so does another one that gives their images. -/
theorem mapM_map_of_mapM {ε α β γ : Type} {f : α → Except ε β} {g : α → Except ε γ} {h : β → γ}
    (each : ∀ a b, f a = .ok b → g a = .ok (h b)) : ∀ {l : List α} {r : List β},
      l.mapM f = .ok r → l.mapM g = .ok (r.map h) := by
  intro l
  induction l with
  | nil =>
    intro r run
    cases run
    rfl
  | cons a l ih =>
    intro r run
    rw [List.mapM_cons] at run ⊢
    obtain ⟨b, first, run⟩ := ok_of_bind run
    obtain ⟨bs, rest, run⟩ := ok_of_bind run
    cases run
    exact bind_eq_of_ok (each a b first) (bind_eq_of_ok (ih rest) rfl)

theorem forall₂_of_mapM {ε α β : Type} {f : α → Except ε β} : ∀ {l : List α} {l' : List β},
    l.mapM f = .ok l' → List.Forall₂ (fun a b => f a = .ok b) l l' := by
  intro l
  induction l with
  | nil =>
    intro l' h
    cases h
    exact .nil
  | cons a l ih =>
    intro l' h
    rw [List.mapM_cons] at h
    obtain ⟨b, first, h⟩ := ok_of_bind h
    obtain ⟨l'', rest, h⟩ := ok_of_bind h
    cases h
    exact .cons first (ih rest)

section
variable {α β : Type} {r : α → β → Prop} {l : List α} {l' : List β}

theorem forall₂_mem_left (h : List.Forall₂ r l l') : ∀ a ∈ l, ∃ b ∈ l', r a b := by
  induction h with
  | nil => simp
  | cons first _ ih =>
    intro a ha
    rcases List.mem_cons.mp ha with rfl | ha
    · exact ⟨_, by simp, first⟩
    · obtain ⟨b, hb, rel⟩ := ih a ha
      exact ⟨b, by simp [hb], rel⟩

theorem forall₂_mem_right (h : List.Forall₂ r l l') : ∀ b ∈ l', ∃ a ∈ l, r a b :=
  forall₂_mem_left h.flip

end

/-- What the place of a node in the arena promises of it. -/
structure Graph.SoundAt (g : Graph) (handle : Nat) (n : Node) : Prop where
  inputs : ∀ i ∈ n.inputs, i.graph = g.id ∧ i.handle < handle
  selector : ∀ k, n.role = .selector k → ∃ p m, n.args = [.node p] ∧ n.kwargs = [] ∧
    g.nodes[p.handle]? = some m ∧ m.role = .operation ∧ 1 ≤ k ∧ k < m.outputs
  leaf : n.isLeaf = true → n.args = [] ∧ n.kwargs = []
  outputs : n.role = .operation → 1 ≤ n.outputs

def Graph.Sound (g : Graph) : Prop := ∀ handle n, g.nodes[handle]? = some n → g.SoundAt handle n

namespace Workspace

def Exists (ws : Workspace) (n : NodeRef) : Prop :=
  ∃ g, ws.graph? n.graph = some g ∧ n.handle < g.nodes.size

/-- Graphs know their numbers, and their nodes are in order. -/
def Sound (ws : Workspace) : Prop := ∀ id g, ws.graph? id = some g → g.id = id ∧ g.Sound

/-- The workspaces that calls of the library lead to. A call names only nodes that exist. -/
inductive Built : Workspace → Prop where
  | empty : Built {}
  | addGraph {ws : Workspace} : Built ws → Built ws.addGraph.1
  | input {ws : Workspace} (id : Nat) (name : Option String) (gradient placed : Bool) :
      Built ws → Built (ws.setGraph ((ws.graph id).input name gradient placed).1)
  | param {ws : Workspace} {id : Nat} {value : Value} {name : Option String}
      {learningRate weightDecay : Value} {trainMethod : String} {placed : Bool} {g : Graph}
      {n : NodeRef} : Built ws →
      (ws.graph id).param value name learningRate weightDecay trainMethod placed = .ok (g, n) →
      Built (ws.setGraph g)
  | apply {ws ws' : Workspace} {id : Nat} {kind : String} {args : List Value} {kwargs : Keywords}
      {options : CallOptions} {nodes : List NodeRef} : Built ws →
      (∀ n, .node n ∈ args ++ kwargs.map (·.2) → ws.Exists n) →
      ws.applyIn id kind args kwargs options = .ok (ws', nodes) → Built ws'
  | register {ws : Workspace} (id : Nat) (registry : Registry) :
      Built ws → Built (ws.setGraph { ws.graph id with registry })
  | rename {ws : Workspace} (n : NodeRef) (name : Option String) : Built ws → Built (ws.rename n name)
  | report {ws : Workspace} (verbose : Bool) (journal : Journal) :
      Built ws → Built { ws with verbose, journal }

end Workspace

namespace Graph

variable {g g' : Graph} {n : Node} {handle : Nat}

/-- A node stays in order while the arena grows. -/
theorem SoundAt.grow (h : g.SoundAt handle n) (id : g'.id = g.id)
    (grow : ∀ (k : Nat) (m : Node), g.nodes[k]? = some m → g'.nodes[k]? = some m) :
    g'.SoundAt handle n := by
  refine ⟨by rw [id]; exact h.inputs, fun k role => ?_, h.leaf, h.outputs⟩
  obtain ⟨p, m, args, kwargs, parent, rest⟩ := h.selector k role
  exact ⟨p, m, args, kwargs, grow _ m parent, rest⟩

theorem getElem?_push {k : Nat} {m : Node} (h : g.nodes[k]? = some m) :
    (g.push n).1.nodes[k]? = some m := by
  have bound := (Array.getElem?_eq_some_iff.mp h).1
  simp only [push, Array.getElem?_push]
  rw [if_neg (by omega)]
  exact h

theorem Sound.push (h : g.Sound) (new : (g.push n).1.SoundAt g.size n) : (g.push n).1.Sound := by
  intro handle m found
  simp only [Graph.push, Array.getElem?_push] at found
  split at found
  next eq =>
    cases found
    rw [eq]
    exact new
  next => exact (h handle m found).grow rfl fun _ _ => getElem?_push

theorem Sound.leaf (h : g.Sound) (leaf : n.isLeaf = true) (args : n.args = [])
    (kwargs : n.kwargs = []) : (g.push n).1.Sound := by
  refine h.push ⟨?_, ?_, fun _ => ⟨args, kwargs⟩, ?_⟩
  · simp [Node.inputs, args, kwargs]
  · intro k role
    simp [Node.isLeaf, Node.isInput, Node.isParam, role] at leaf
  · intro role
    simp [Node.isLeaf, Node.isInput, Node.isParam, role] at leaf

/-- Selectors of outputs that their parent has keep the arena in order. -/
theorem Sound.pushSelectors {parent : NodeRef} {m : Node} {count : Nat} :
    ∀ {g : Graph} {first : Nat}, g.Sound → parent.graph = g.id →
      g.nodes[parent.handle]? = some m → m.role = .operation → 1 ≤ first →
      first + count ≤ m.outputs → (g.pushSelectors parent first count).1.Sound := by
  induction count with
  | zero => intro g first h _ _ _ _ _; exact h
  | succ count ih =>
    intro g first h graph found operation low high
    have bound := (Array.getElem?_eq_some_iff.mp found).1
    have new : (g.push { kind := "select", args := [.node parent], role := .selector first }).1.Sound := by
      refine h.push ⟨?_, ?_, ?_, ?_⟩
      · intro i hi
        have eq : i = parent := by simpa [Node.inputs, Value.node?] using hi
        rw [eq]
        exact ⟨graph, bound⟩
      · intro k role
        cases role
        exact ⟨parent, m, rfl, rfl, getElem?_push found, operation, low, by omega⟩
      · intro leaf
        simp [Node.isLeaf, Node.isInput, Node.isParam] at leaf
      · intro role
        cases role
    exact ih new graph (getElem?_push found) operation (by omega) (by omega)

theorem Sound.rename (h : g.Sound) (handle : Nat) (name : Option String) :
    (g.rename handle name).Sound := by
  have found' : ∀ k, (g.rename handle name).nodes[k]? =
      (g.nodes[k]?).map fun n => if k = handle then { n with name } else n := by
    intro k
    simp only [Graph.rename, Array.getElem?_modify]
    by_cases eq : handle = k
    · simp [eq]
    · simp [eq, Ne.symm eq]
  intro k n found
  rw [found' k] at found
  obtain ⟨m, hm, rfl⟩ := Option.map_eq_some_iff.mp found
  obtain ⟨inputs, selector, leaf, outputs⟩ := h k m hm
  have parent : ∀ j, m.role = .selector j → ∃ p q, m.args = [.node p] ∧ m.kwargs = [] ∧
      (g.rename handle name).nodes[p.handle]? = some q ∧ q.role = .operation ∧ 1 ≤ j ∧
        j < q.outputs := by
    intro j role
    obtain ⟨p, q, args, kwargs, there, operation, low, high⟩ := selector j role
    refine ⟨p, if p.handle = handle then { q with name } else q, args, kwargs, ?_, ?_⟩
    · rw [found', there]
      rfl
    · split <;> exact ⟨operation, low, high⟩
  split <;> exact ⟨inputs, parent, leaf, outputs⟩

/-- Constants hold no nodes, so nodes among checked arguments are of the graph. -/
theorem graph_of_checkArgument {v : Value} {i : NodeRef} (h : g.checkArgument v = .ok ())
    (node : v.node? = some i) : i.graph = g.id := by
  cases v <;> simp only [Value.node?, reduceCtorEq, Option.some.injEq] at node
  subst node
  simp only [checkArgument] at h
  split at h
  next same => exact same
  next => cases h

/-- A recorded call adds its node, with arguments from the graph, and selectors behind it. -/
theorem apply_ok {kind : String} {args : List Value} {kwargs : Keywords} {options : CallOptions}
    {nodes : List NodeRef} (h : g.apply kind args kwargs options = .ok (g', nodes)) :
    ∃ m : Node, m.args = args ∧ m.kwargs = kwargs ∧ m.role = .operation ∧ 1 ≤ m.outputs ∧
      (∀ i ∈ m.inputs, i.graph = g.id) ∧
      g' = ((g.push m).1.pushSelectors (g.ref g.size) 1 (m.outputs - 1)).1 := by
  simp only [apply] at h
  split at h
  next => cases h
  next =>
    obtain ⟨operation, _, h⟩ := ok_of_bind h
    obtain ⟨_, positional, h⟩ := ok_of_bind h
    obtain ⟨_, keywords, h⟩ := ok_of_bind h
    simp only [bind, Except.bind, pure, Except.pure] at h
    split at h
    next => cases h
    next some' =>
      cases h
      refine ⟨_, rfl, rfl, rfl, by dsimp only; omega, ?_, rfl⟩
      intro i hi
      rcases List.mem_append.mp hi with hi | hi
      · obtain ⟨v, hv, node⟩ := List.mem_filterMap.mp hi
        exact graph_of_checkArgument (forM_eq_ok_iff.mp positional v hv) node
      · obtain ⟨p, hp, node⟩ := List.mem_filterMap.mp hi
        exact graph_of_checkArgument (forM_eq_ok_iff.mp keywords p hp) node

end Graph

namespace Workspace

variable {ws : Workspace}

theorem Sound.graph_id (h : ws.Sound) (id : Nat) : (ws.graph id).id = id := by
  unfold Workspace.graph
  cases found : ws.graph? id with
  | none => rfl
  | some g => exact (h id g found).1

theorem Sound.graph (h : ws.Sound) (id : Nat) : (ws.graph id).Sound := by
  unfold Workspace.graph
  cases found : ws.graph? id with
  | none =>
    intro handle n none
    simp at none
  | some g => exact (h id g found).2

theorem Sound.setGraph (h : ws.Sound) {g : Graph} (sound : g.Sound) : (ws.setGraph g).Sound := by
  intro id g' found
  simp only [Workspace.setGraph, graph?, Array.getElem?_setIfInBounds] at found
  split at found
  next same =>
    split at found
    next =>
      cases found
      exact ⟨same, sound⟩
    next => cases found
  next => exact h id g' found

theorem eq_node_of_node? {v : Value} {n : NodeRef} (h : v.node? = some n) : v = .node n := by
  cases v <;> simp only [Value.node?, reduceCtorEq, Option.some.injEq] at h
  rw [h]

theorem Exists.lt_size {n : NodeRef} (h : ws.Exists n) :
    n.handle < (ws.graph n.graph).nodes.size := by
  obtain ⟨g, found, bound⟩ := h
  rw [Workspace.graph, found]
  exact bound

theorem Sound.param (h : ws.Sound) {id : Nat} {value : Value} {name : Option String}
    {learningRate weightDecay : Value} {trainMethod : String} {placed : Bool} {g : Graph} {n : NodeRef}
    (call : (ws.graph id).param value name learningRate weightDecay trainMethod placed = .ok (g, n)) :
    (ws.setGraph g).Sound := by
  refine h.setGraph ?_
  simp only [Graph.param] at call
  split at call
  · cases call
  · cases constant : Graph.checkConstant value with
    | error e => simp [constant, bind, Except.bind] at call
    | ok _ =>
      simp only [constant, bind, Except.bind] at call
      split at call
      · cases call
      · cases call
        exact (h.graph id).leaf rfl rfl rfl

/-- The inputs of a node are the nodes among its arguments. -/
theorem mem_inputs_iff {m : Node} {i : NodeRef} :
    i ∈ m.inputs ↔ .node i ∈ m.args ++ m.kwargs.map (·.2) := by
  have node : ∀ v : Value, v.node? = some i ↔ v = .node i := fun v =>
    ⟨eq_node_of_node?, fun eq => eq ▸ rfl⟩
  simp only [Node.inputs, List.mem_append, List.mem_filterMap, List.mem_map, node, exists_eq_right]

theorem mem_inputs_of_arg {n i : NodeRef} (arg : .node i ∈ (ws.node n).args) : i ∈ ws.inputs n :=
  mem_inputs_iff.mpr (List.mem_append_left _ arg)

/-- What a call with existing arguments records is in order. -/
theorem Sound.applyIn (h : ws.Sound) {ws' : Workspace} {id : Nat} {kind : String} {args : List Value}
    {kwargs : Keywords} {options : CallOptions} {nodes : List NodeRef}
    (exist : ∀ n, .node n ∈ args ++ kwargs.map (·.2) → ws.Exists n)
    (call : ws.applyIn id kind args kwargs options = .ok (ws', nodes)) : ws'.Sound := by
  simp only [Workspace.applyIn] at call
  cases applied : (ws.graph id).apply kind args kwargs options with
  | error e => simp [applied, bind, Except.bind] at call
  | ok r =>
    obtain ⟨g', refs⟩ := r
    rw [applied] at call
    cases call
    obtain ⟨m, rfl, rfl, role, outputs, graphs, rfl⟩ := Graph.apply_ok applied
    refine h.setGraph ?_
    have earlier : ∀ i ∈ m.inputs, i.graph = (ws.graph id).id ∧ i.handle < (ws.graph id).size := by
      intro i hi
      have bound := (exist i (mem_inputs_iff.mp hi)).lt_size
      rw [graphs i hi, h.graph_id] at bound
      exact ⟨graphs i hi, bound⟩
    have pushed : ((ws.graph id).push m).1.Sound := by
      refine (h.graph id).push ⟨earlier, fun k selector => ?_, fun leaf => ?_, fun _ => outputs⟩
      · rw [role] at selector
        cases selector
      · simp [Node.isLeaf, Node.isInput, Node.isParam, role] at leaf
    refine pushed.pushSelectors rfl ?_ role (Nat.le_refl 1) (by omega)
    simp [Graph.push, Graph.ref, Graph.size]

/-- Whatever calls of the library lead to is in order. -/
theorem Built.sound (h : Built ws) : ws.Sound := by
  induction h with
  | empty =>
    intro id g found
    simp [graph?] at found
  | @addGraph ws _ ih =>
    intro id g found
    simp only [Workspace.addGraph, graph?, Array.getElem?_push] at found
    split at found
    next new =>
      cases found
      refine ⟨new.symm, fun handle n none => ?_⟩
      simp at none
    next => exact ih id g found
  | input id name gradient placed _ ih => exact ih.setGraph ((ih.graph id).leaf rfl rfl rfl)
  | param _ call ih => exact ih.param call
  | apply _ exist call ih => exact ih.applyIn exist call
  | register id registry _ ih =>
    refine ih.setGraph fun handle n found => ?_
    exact ((ih.graph id) handle n found).grow rfl fun _ _ there => there
  | rename n name _ ih => exact ih.setGraph ((ih.graph n.graph).rename n.handle name)
  | report verbose journal _ ih => exact ih

/-! ### References -/

theorem Exists.node_eq {n : NodeRef} (h : ws.Exists n) : ∃ g, ws.graph? n.graph = some g ∧
    g.nodes[n.handle]? = some (ws.node n) := by
  obtain ⟨g, found, bound⟩ := h
  refine ⟨g, found, ?_⟩
  simp [Workspace.node, found, bound]

theorem node_of_getElem? {n : NodeRef} {g : Graph} {m : Node} (found : ws.graph? n.graph = some g)
    (there : g.nodes[n.handle]? = some m) : ws.node n = m ∧ ws.Exists n := by
  refine ⟨?_, g, found, (Array.getElem?_eq_some_iff.mp there).1⟩
  simp [Workspace.node, found, there]

/-- A reference that names no node stands for a node without arguments. -/
theorem node_of_not_exists {n : NodeRef} (h : ¬ ws.Exists n) : ws.node n = default := by
  unfold Workspace.node
  cases found : ws.graph? n.graph with
  | none => rfl
  | some g =>
    have outside : g.nodes.size ≤ n.handle := Nat.le_of_not_lt fun inside => h ⟨g, found, inside⟩
    simp [Array.getElem?_eq_none outside]

theorem Exists.handle_lt {n : NodeRef} (h : ws.Exists n) : n.handle < ws.handleBound := by
  obtain ⟨g, found, bound⟩ := h
  have largest : ∀ (l : List Graph) (b : Nat), b ≤ l.foldl (fun b g => max b g.size) b ∧
      ∀ g ∈ l, g.size ≤ l.foldl (fun b g => max b g.size) b := by
    intro l
    induction l with
    | nil => intro b; simp
    | cons a l ih =>
      intro b
      obtain ⟨start, members⟩ := ih (max b a.size)
      refine ⟨by rw [List.foldl_cons]; omega, fun g hg => ?_⟩
      rcases List.mem_cons.mp hg with rfl | hg
      · rw [List.foldl_cons]
        omega
      · exact members g hg
  have member : g ∈ ws.graphs.toList := by
    rw [Array.mem_toList_iff]
    exact Array.mem_of_getElem? found
  have := (largest ws.graphs.toList 0).2 g member
  rw [Workspace.handleBound, ← Array.foldl_toList]
  exact Nat.lt_of_lt_of_le bound this

namespace Sound

variable (h : ws.Sound) {n i : NodeRef}
include h

/-- The inputs of a node come earlier in its graph. -/
theorem input_lt (hi : i ∈ ws.inputs n) :
    i.graph = n.graph ∧ i.handle < n.handle ∧ ws.Exists i := by
  by_cases there : ws.Exists n
  · obtain ⟨g, found, node⟩ := there.node_eq
    obtain ⟨id, sound⟩ := h n.graph g found
    obtain ⟨graph, earlier⟩ := (sound _ _ node).inputs i hi
    have same : i.graph = n.graph := graph.trans id
    refine ⟨same, earlier, g, by rw [same]; exact found, ?_⟩
    exact Nat.lt_trans earlier (Array.getElem?_eq_some_iff.mp node).1
  · rw [Workspace.inputs, node_of_not_exists there] at hi
    cases hi

theorem selector {k : Nat} (role : (ws.node n).role = .selector k) :
    ∃ p, (ws.node n).args = [.node p] ∧ (ws.node n).kwargs = [] ∧ p ∈ ws.inputs n ∧
      (ws.node p).role = .operation ∧ 1 ≤ k ∧ k < (ws.node p).outputs := by
  by_cases there : ws.Exists n
  · obtain ⟨g, found, node⟩ := there.node_eq
    obtain ⟨id, sound⟩ := h n.graph g found
    obtain ⟨p, m, args, kwargs, parent, operation, low, high⟩ := (sound _ _ node).selector k role
    have member : p ∈ ws.inputs n := by
      simp [Workspace.inputs, Node.inputs, args, Value.node?]
    have same := (h.input_lt member).1
    obtain ⟨rfl, _⟩ := node_of_getElem? (by rw [same]; exact found) parent
    exact ⟨p, args, kwargs, member, operation, low, high⟩
  · rw [node_of_not_exists there] at role
    cases role

theorem leaf (leaf : (ws.node n).isLeaf = true) : (ws.node n).args = [] ∧ (ws.node n).kwargs = [] := by
  by_cases there : ws.Exists n
  · obtain ⟨g, found, node⟩ := there.node_eq
    exact ((h n.graph g found).2 _ _ node).leaf leaf
  · rw [node_of_not_exists there]
    exact ⟨rfl, rfl⟩

theorem outputs_pos (role : (ws.node n).role = .operation) : 1 ≤ (ws.node n).outputs := by
  by_cases there : ws.Exists n
  · obtain ⟨g, found, node⟩ := there.node_eq
    exact ((h n.graph g found).2 _ _ node).outputs role
  · rw [node_of_not_exists there]
    exact Nat.le_refl 1

end Sound

end Workspace

end Backprop
