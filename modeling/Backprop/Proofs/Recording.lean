import Backprop.Proofs.Arena
/-!
# What a call records

A call is checked first and recorded then, so that a call that fails has recorded nothing.

* `Graph.vet` is all that a call is checked for, and `Graph.vet_eq_ok_iff` says what passes;
  `Graph.vetParam` is the same for a parameter.
* `Graph.apply_eq`: what passes is added at the end of the arena, its node first and then a selector
  for every further output, and the references returned are to the nodes added; `Graph.param_eq`.
-/

namespace Backprop

namespace Graph

/-- The alias of one output of an operation. -/
def selectorOf (parent : NodeRef) (output : Nat) : Node :=
  { kind := "select", args := [.node parent], role := .selector output }

/-- A node and the selectors of its further outputs, for the end of the arena. -/
def additions (g : Graph) (n : Node) : List Node :=
  n :: (List.range' 1 (n.outputs - 1)).map (selectorOf (g.ref g.size))

/-- The graph with further nodes at the end of its arena. -/
def extend (g : Graph) (nodes : List Node) : Graph := { g with nodes := g.nodes ++ nodes.toArray }

/-- The node that a call makes. -/
def calledNode (kind : String) (args : List Value) (kwargs : Keywords) (options : CallOptions)
    (outputs : Nat) : Node :=
  { kind, args, kwargs, outputs, name := options.name, devicePlacement := options.devicePlacement }

/-- Nodes added at the end of the arena, and references to them. -/
def append (g : Graph) (nodes : List Node) : Graph × List NodeRef :=
  (g.extend nodes, (List.range' g.size nodes.length).map g.ref)

def inputNode (name : Option String) (requiresGradient devicePlacement : Bool) : Node :=
  { kind := "input", name, requiresGradient, devicePlacement, role := .input }

/-- The node that holds a parameter. -/
def paramNode (name : Option String) (devicePlacement : Bool) (data : ParamData) : Node :=
  { kind := "param", name, requiresGradient := true, devicePlacement, role := .param data }

/-- All that a parameter is checked for. The result is what it holds. -/
def vetParam (value : Value) (name : Option String) (learningRate weightDecay : Value)
    (trainMethod : String) : Except Error ParamData := do
  if let .node n := value then throw (.paramFromNode n)
  checkConstant value
  match TrainMethod.ofName? trainMethod with
  | none => throw (.unknownTrainMethod name trainMethod)
  | some trainMethod => return { value, learningRate, weightDecay, trainMethod }

/-- All that a call is checked for. The result is the number of its outputs. -/
def vet (g : Graph) (kind : String) (args : List Value) (kwargs : Keywords)
    (options : CallOptions) : Except Error Nat := do
  if reservedKinds.contains kind then throw (.reservedKind kind)
  let operation ← g.registry.get kind
  args.forM g.checkArgument
  kwargs.forM fun (_, v) => g.checkArgument v
  let outputs := options.outputs.getD operation.outputs
  if outputs < 1 then throw (.outputCount outputs)
  return outputs.toNat

/-- The nodes that a call adds. -/
def calledNodes (g : Graph) (kind : String) (args : List Value) (kwargs : Keywords)
    (options : CallOptions) : Except Error (List Node) :=
  (g.vet kind args kwargs options).map fun outputs =>
    g.additions (calledNode kind args kwargs options outputs)

variable {g : Graph} {kind : String} {args : List Value} {kwargs : Keywords} {options : CallOptions}

theorem push_eq_extend (n : Node) : g.push n = (g.extend [n], g.ref g.size) := by
  simp [push, extend]

theorem extend_extend (l l' : List Node) : (g.extend l).extend l' = g.extend (l ++ l') := by
  simp [extend, Array.append_assoc]

theorem size_extend (l : List Node) : (g.extend l).size = g.size + l.length := by
  simp [extend, size]

theorem ref_extend (l : List Node) : (g.extend l).ref = g.ref := rfl

theorem pushSelectors_eq (parent : NodeRef) (count : Nat) : ∀ (g : Graph) (first : Nat),
    g.pushSelectors parent first count =
      (g.extend ((List.range' first count).map (selectorOf parent)),
        (List.range' g.size count).map g.ref) := by
  induction count with
  | zero =>
    intro g first
    simp [pushSelectors, extend]
  | succ count ih =>
    intro g first
    rw [pushSelectors]
    simp only [push_eq_extend, ih, extend_extend, size_extend, ref_extend, List.length_singleton]
    rfl

theorem length_additions (n : Node) (outputs : 1 ≤ n.outputs) :
    (g.additions n).length = n.outputs := by
  simp only [additions, List.length_cons, List.length_map, List.length_range']
  omega

theorem param_eq {value : Value} {name : Option String} {learningRate weightDecay : Value}
    {trainMethod : String} {placed : Bool} :
    g.param value name learningRate weightDecay trainMethod placed =
      (vetParam value name learningRate weightDecay trainMethod).map fun data =>
        g.push (paramNode name placed data) := by
  by_cases node : ∃ n, value = .node n
  · obtain ⟨n, rfl⟩ := node
    rfl
  · have constant : ∀ n, value = .node n → False := fun n eq => node ⟨n, eq⟩
    simp only [param, vetParam, bind, Except.bind]
    cases checkConstant value with
    | error e => rfl
    | ok _ => cases TrainMethod.ofName? trainMethod <;> rfl

/-- A call that passes adds its node and the selectors, and refers to what it has added. -/
theorem apply_eq :
    g.apply kind args kwargs options = (g.calledNodes kind args kwargs options).map g.append := by
  simp only [apply, calledNodes, vet, bind, Except.bind]
  split
  next => rfl
  next =>
    cases g.registry.get kind with
    | error e => rfl
    | ok operation =>
      cases args.forM g.checkArgument with
      | error e => rfl
      | ok _ =>
        cases kwargs.forM fun p => g.checkArgument p.2 with
        | error e => rfl
        | ok _ =>
          dsimp only
          generalize options.outputs.getD operation.outputs = outputs
          split
          next => rfl
          next positive =>
            have one : outputs.toNat = outputs.toNat - 1 + 1 := by omega
            simp only [push_eq_extend, pushSelectors_eq, extend_extend, size_extend, ref_extend,
              Except.map, pure, Except.pure, append]
            rw [length_additions _ (by dsimp only [calledNode]; omega)]
            dsimp only [calledNode]
            rw [one]
            rfl

/-- What a call needs to be accepted, whatever it is called with. -/
theorem vet_eq_ok_iff {outputs : Nat} : g.vet kind args kwargs options = .ok outputs ↔
    kind ∉ reservedKinds ∧
    (∃ operation, g.registry.get kind = .ok operation ∧
      options.outputs.getD operation.outputs = outputs) ∧ 1 ≤ outputs ∧
    (∀ v ∈ args, g.checkArgument v = .ok ()) ∧ ∀ p ∈ kwargs, g.checkArgument p.2 = .ok () := by
  have positional := forM_eq_ok_iff (f := g.checkArgument) (l := args)
  have keywords := forM_eq_ok_iff (f := fun p : String × Value => g.checkArgument p.2) (l := kwargs)
  rw [← positional, ← keywords]
  simp only [vet, bind, Except.bind, List.contains_iff_mem]
  split
  next reserved => simp [throw, throwThe, MonadExceptOf.throw, reserved]
  next free =>
    cases g.registry.get kind with
    | error e => simp
    | ok operation =>
      cases args.forM g.checkArgument with
      | error e => simp
      | ok _ =>
        cases kwargs.forM fun p => g.checkArgument p.2 with
        | error e => simp
        | ok _ =>
          dsimp only
          split
          next few =>
            simp only [throw, throwThe, MonadExceptOf.throw, reduceCtorEq, Except.ok.injEq,
              exists_eq_left', false_iff, not_and]
            omega
          next enough =>
            simp only [pure, Except.pure, free, Except.ok.injEq, exists_eq_left', not_false_eq_true,
              and_true, true_and]
            omega

/-! ### Nodes of one call -/

theorem additions_succ {n m : Node} {k : Nat} : (g.additions n)[k + 1]? = some m ↔
    k + 1 < n.outputs ∧ m = selectorOf (g.ref g.size) (k + 1) := by
  rw [additions, List.getElem?_cons_succ, List.getElem?_map]
  by_cases lt : k < n.outputs - 1
  · rw [List.getElem?_range' lt, Option.map_some, Nat.one_mul, Nat.add_comm 1 k, Option.some.injEq]
    exact ⟨fun eq => ⟨by omega, eq.symm⟩, fun h => h.2.symm⟩
  · rw [List.getElem?_eq_none (by rw [List.length_range']; omega)]
    refine ⟨fun none => ?_, fun h => ?_⟩
    · cases none
    · omega

/-- The nodes that one call adds to a graph: a leaf, or an operation with its selectors. -/
inductive Block (g : Graph) : List Node → Prop where
  | leaf {n : Node} : n.isLeaf = true → n.args = [] → n.kwargs = [] → Block g [n]
  | operation {n : Node} : n.role = .operation → 1 ≤ n.outputs →
      (∀ i ∈ n.inputs, i.graph = g.id ∧ i.handle < g.size) → Block g (g.additions n)

end Graph

namespace Workspace

variable {ws : Workspace}

theorem graph_setGraph (g : Graph) (id : Nat) :
    (ws.setGraph g).graph id = if g.id = id ∧ id < ws.graphs.size then g else ws.graph id := by
  simp only [graph, graph?, setGraph, Array.getElem?_setIfInBounds]
  by_cases same : g.id = id
  · subst same
    by_cases there : g.id < ws.graphs.size
    · simp [there]
    · simp [there]
  · simp [same]

theorem graph?_setGraph {g : Graph} (there : g.id < ws.graphs.size) :
    (ws.setGraph g).graph? g.id = some g := by
  simp [graph?, Workspace.setGraph, there]

end Workspace

end Backprop
