import Backprop.Graph.Operators
import Backprop.Proofs.Arena
/-!
# The call behind an expression

Whatever form a call takes, it comes to a request, whose nodes are operands of the form.

* `Form` are the forms in which an operation is called, and `Form.run` is what the library does for each.
* `Form.run_eq`: it records the request that `Form.request` makes.
* `Form.request_ok`: the nodes and the graph of the request are those of the form.
-/

namespace Backprop

namespace Request

/-- The values that a call is made with, positional ones first. -/
def operands (r : Request) : List Value := r.args ++ r.kwargs.map (·.2)

/-- A request whose nodes are operands of the call it was made from, one of which gives the graph. -/
structure DrawnFrom (r : Request) (values : List Value) : Prop where
  operands : ∀ n, .node n ∈ r.operands → .node n ∈ values
  graph : ∃ n, .node n ∈ values ∧ n.graph = r.graph

variable {r : Request}

theorem DrawnFrom.mono {l l' : List Value} (h : r.DrawnFrom l)
    (more : ∀ n, .node n ∈ l → .node n ∈ l') : r.DrawnFrom l' :=
  ⟨fun n hn => more n (h.operands n hn), h.graph.imp fun n hn => ⟨more n hn.1, hn.2⟩⟩

theorem mem_of_graphOf {l : List Value} {id : Nat} (h : graphOf l = .ok id) :
    ∃ n, .node n ∈ l ∧ n.graph = id := by
  simp only [graphOf] at h
  split at h
  next => cases h
  next n rest found =>
    split at h
    next =>
      cases h
      have member : n ∈ l.filterMap Value.node? := by rw [found]; exact List.mem_cons_self
      obtain ⟨v, hv, node⟩ := List.mem_filterMap.mp member
      exact ⟨n, Workspace.eq_node_of_node? node ▸ hv, rfl⟩
    next => cases h

/-- What is left of the keywords are keywords. -/
theorem subset_of_callOptions {kwargs rest : Keywords} {options : CallOptions}
    (h : Workspace.callOptions kwargs = .ok (options, rest)) : rest ⊆ kwargs := by
  simp only [Workspace.callOptions] at h
  split at h
  next => cases h
  next =>
    obtain ⟨_, _, h⟩ := ok_of_bind h
    obtain ⟨_, _, h⟩ := ok_of_bind h
    obtain ⟨_, _, h⟩ := ok_of_bind h
    cases h
    exact fun p hp => (List.mem_filter.mp hp).1

theorem mem_map_of_lookup {kwargs : Keywords} {name : String} {v : Value}
    (h : kwargs.lookup name = some v) : v ∈ kwargs.map (·.2) := by
  obtain ⟨l, r, rfl, _⟩ := List.lookup_eq_some_iff.mp h
  simp

/-- A bound argument is one that was given, or a default. -/
theorem mem_of_bindArguments {ps : List Parameter} {args bound : List Value} {kwargs : Keywords}
    (h : bindArguments ps args kwargs = .ok bound) :
    ∀ v ∈ bound, v ∈ args ++ kwargs.map (·.2) ∨ ∃ p ∈ ps, p.default? = some v := by
  induction args generalizing ps bound with
  | nil =>
    simp only [bindArguments] at h
    split at h
    next =>
      intro v hv
      obtain ⟨p, hp, chosen⟩ := forall₂_mem_right (forall₂_of_mapM h) v hv
      cases given : kwargs.lookup p.name with
      | none =>
        cases default : p.default? <;> rw [given, default] at chosen <;> cases chosen
        exact .inr ⟨p, hp, default⟩
      | some w =>
        rw [given] at chosen
        cases chosen
        exact .inl (mem_map_of_lookup given)
    next => cases h
  | cons a args ih =>
    cases ps with
    | nil => cases h
    | cons p ps =>
      simp only [bindArguments] at h
      split at h
      next => cases h
      next =>
        obtain ⟨rest, others, h⟩ := ok_of_bind h
        cases h
        intro v hv
        rcases List.mem_cons.mp hv with rfl | hv
        · exact .inl List.mem_cons_self
        · exact (ih others v hv).imp (List.mem_cons_of_mem a) fun ⟨q, hq, eq⟩ =>
            ⟨q, List.mem_cons_of_mem p hq, eq⟩

theorem drawn_ofOperator {kind : String} {l : List Value} {kwargs : Keywords}
    (h : ofOperator kind l kwargs = .ok r) : r.DrawnFrom (l ++ kwargs.map (·.2)) := by
  simp only [ofOperator] at h
  split at h
  next n rest found =>
    cases h
    have member : n ∈ l.filterMap Value.node? := by rw [found]; exact List.mem_cons_self
    obtain ⟨v, hv, node⟩ := List.mem_filterMap.mp member
    refine ⟨fun n hn => hn, n, List.mem_append_left _ ?_, rfl⟩
    exact Workspace.eq_node_of_node? node ▸ hv
  next => cases h

theorem inGraph_ok {graph : Nat} {kind : String} {args : List Value} {kwargs : Keywords}
    (h : inGraph graph kind args kwargs = .ok r) :
    r.graph = graph ∧ r.operands ⊆ args ++ kwargs.map (·.2) := by
  obtain ⟨⟨options, rest⟩, chosen, h⟩ := ok_of_bind h
  cases h
  refine ⟨rfl, fun v hv => ?_⟩
  rcases List.mem_append.mp hv with hv | hv
  · exact List.mem_append_left _ hv
  · exact List.mem_append_right _ (List.map_subset _ (subset_of_callOptions chosen) hv)

theorem drawn_ofCall {kind : String} {args : List Value} {kwargs : Keywords}
    (h : ofCall kind args kwargs = .ok r) : r.DrawnFrom (args ++ kwargs.map (·.2)) := by
  simp only [ofCall] at h
  split at h
  next => cases h
  next =>
    obtain ⟨graph, shared, h⟩ := ok_of_bind h
    obtain ⟨rfl, subset⟩ := inGraph_ok h
    exact ⟨fun n hn => subset hn, mem_of_graphOf shared⟩

theorem drawn_ofReduction {kind : String} {args : List Value} {kwargs : Keywords}
    (h : ofReduction kind args kwargs = .ok r) : r.DrawnFrom (args ++ kwargs.map (·.2)) := by
  obtain ⟨bound, given, h⟩ := ok_of_bind h
  have nodes : ∀ n, .node n ∈ bound → .node n ∈ args ++ kwargs.map (·.2) := by
    intro n hn
    refine (mem_of_bindArguments given _ hn).resolve_right ?_
    simp [required, optional]
  split at h
  next n axis keep =>
    cases h
    exact ⟨nodes, n, nodes n List.mem_cons_self, rfl⟩
  next => cases h

theorem drawn_ofReshape {x : Value} {shape : List Value} (h : ofReshape x shape = .ok r) :
    r.DrawnFrom [x] := by
  simp only [ofReshape] at h
  split at h
  next n =>
    cases h
    exact ⟨fun m hm => by simpa [operands] using hm, n, List.mem_cons_self, rfl⟩
  next => cases h

theorem drawn_ofTranspose {x : Value} (h : ofTranspose x = .ok r) : r.DrawnFrom [x] := by
  simp only [ofTranspose] at h
  split at h
  next n =>
    cases h
    exact ⟨fun m hm => by simpa [operands] using hm, n, List.mem_cons_self, rfl⟩
  next => cases h

theorem drawn_ofItem {x index : Value} (h : ofItem x index = .ok r) : r.DrawnFrom [x, index] := by
  simp only [ofItem] at h
  split at h
  next n =>
    cases h
    exact ⟨fun m hm => by simpa [operands] using hm, n, List.mem_cons_self, rfl⟩
  next => cases h

/-- Arguments bound to parameters without defaults are among those given. -/
theorem mem_of_required {names : List String} {args bound : List Value} {kwargs : Keywords}
    (h : bindArguments (names.map required) args kwargs = .ok bound) :
    bound ⊆ args ++ kwargs.map (·.2) := by
  intro v hv
  refine (mem_of_bindArguments h v hv).resolve_right ?_
  simp [required]

theorem drawn_ofFunction {name : String} {args : List Value} {kwargs : Keywords}
    (h : ofFunction name args kwargs = .ok r) : r.DrawnFrom (args ++ kwargs.map (·.2)) := by
  simp only [ofFunction] at h
  split at h
  next =>
    split at h
    next => exact (drawn_ofCall h).mono fun n hn => List.mem_cons_of_mem _ hn
    next => cases h
  next => exact drawn_ofReduction h
  next => exact drawn_ofReduction h
  next =>
    obtain ⟨bound, given, h⟩ := ok_of_bind h
    split at h
    next x s =>
      refine (drawn_ofReshape h).mono fun n hn => mem_of_required given ?_
      exact List.mem_singleton.mp hn ▸ List.mem_cons_self
    next => cases h
  next =>
    obtain ⟨bound, given, h⟩ := ok_of_bind h
    split at h
    next x => exact (drawn_ofTranspose h).mono fun n hn => mem_of_required given hn
    next => cases h
  next =>
    obtain ⟨bound, given, h⟩ := ok_of_bind h
    exact (drawn_ofCall h).mono fun n hn => mem_of_required given (by simpa using hn)
  next =>
    obtain ⟨bound, given, h⟩ := ok_of_bind h
    exact (drawn_ofCall h).mono fun n hn => mem_of_required given (by simpa using hn)

theorem drawn_ofMethod {name : String} {args : List Value} {kwargs : Keywords}
    (h : ofMethod name args kwargs = .ok r) : r.DrawnFrom (args ++ kwargs.map (·.2)) := by
  simp only [ofMethod] at h
  split at h
  next =>
    split at h
    next =>
      refine (drawn_ofReshape h).mono fun n hn => List.mem_append_left _ ?_
      cases args with
      | nil => simp at hn
      | cons x args => exact List.mem_singleton.mp hn ▸ List.mem_cons_self
    next => cases h
  next => exact drawn_ofReduction h

end Request

/-- The forms in which an operation is called: by itself, through a builder made for a kind and bound
to a graph or not, through an operator, an item, a transposition, a building function or a method. -/
inductive Form where
  | apply (request : Request)
  | bound (graph : Nat) (kind : String) (args : List Value) (kwargs : Keywords)
  | free (kind : String) (args : List Value) (kwargs : Keywords)
  | operator (kind : String) (operands : List Value)
  | item (x index : Value)
  | transpose (x : Value)
  | function (name : String) (args : List Value) (kwargs : Keywords)
  | method (name : String) (args : List Value) (kwargs : Keywords)

namespace Form

/-- What the library does for a call of the form. -/
def run (ws : Workspace) : Form → Except Error (Workspace × List NodeRef)
  | .apply r => ws.applyIn r.graph r.kind r.args r.kwargs r.options
  | .bound graph kind args kwargs => do ws.record (← Request.inGraph graph kind args kwargs)
  | .free kind args kwargs => ws.apply kind args kwargs
  | .operator kind operands => ws.operator kind operands
  | .item x index => ws.itemOf x index
  | .transpose x => ws.transpose x
  | .function name args kwargs => ws.callFunction name args kwargs
  | .method name args kwargs => ws.callMethod name args kwargs

def request : Form → Except Error Request
  | .apply r => .ok r
  | .bound graph kind args kwargs => Request.inGraph graph kind args kwargs
  | .free kind args kwargs => Request.ofCall kind args kwargs
  | .operator kind operands => Request.ofOperator kind operands
  | .item x index => Request.ofItem x index
  | .transpose x => Request.ofTranspose x
  | .function name args kwargs => Request.ofFunction name args kwargs
  | .method name args kwargs => Request.ofMethod name args kwargs

/-- The values that the program gives. -/
def operands : Form → List Value
  | .apply r => r.operands
  | .operator _ operands => operands
  | .item x index => [x, index]
  | .transpose x => [x]
  | .bound _ _ args kwargs | .free _ args kwargs | .function _ args kwargs | .method _ args kwargs =>
    args ++ kwargs.map (·.2)

/-- The graph that a form is bound to. -/
def graph? : Form → Option Nat
  | .apply r => some r.graph
  | .bound graph .. => some graph
  | _ => none

theorem run_eq (ws : Workspace) (form : Form) : form.run ws = form.request >>= ws.record := by
  cases form <;> rfl

/-- The nodes of a request are operands of its form, and its graph is that of the form or of one of
the operands. -/
theorem request_ok {form : Form} {r : Request} (h : form.request = .ok r) :
    (∀ n, .node n ∈ r.operands → .node n ∈ form.operands) ∧
    (form.graph? = some r.graph ∨ ∃ n, .node n ∈ form.operands ∧ n.graph = r.graph) := by
  have drawn {values : List Value} (h : r.DrawnFrom values) :
      (∀ n, .node n ∈ r.operands → .node n ∈ values) ∧
      (form.graph? = some r.graph ∨ ∃ n, .node n ∈ values ∧ n.graph = r.graph) :=
    ⟨h.operands, .inr h.graph⟩
  cases form with
  | apply =>
    cases h
    exact ⟨fun n hn => hn, .inl rfl⟩
  | bound =>
    obtain ⟨rfl, subset⟩ := Request.inGraph_ok h
    exact ⟨fun n hn => subset hn, .inl rfl⟩
  | free => exact drawn (Request.drawn_ofCall h)
  | operator kind values => exact drawn (by simpa [operands] using Request.drawn_ofOperator h)
  | item => exact drawn (Request.drawn_ofItem h)
  | transpose => exact drawn (Request.drawn_ofTranspose h)
  | function => exact drawn (Request.drawn_ofFunction h)
  | method => exact drawn (Request.drawn_ofMethod h)

end Form

end Backprop
