import Backprop.Proofs.Terms
import Backprop.Proofs.Denotation
/-!
# Graphs of polynomials

* `Workspace.poly` is the polynomial of a node, with the leaves as its variables.
* `IsPolynomial`: whatever roots depend on is a leaf or a polynomial operation of the library.
* `IsPolynomial.results_eq`: a node denotes its polynomial at the values of the leaves.
* `IsPolynomial.eval_pderiv`: the chain rule at a node.
-/

namespace Backprop

open MvPolynomial

namespace Workspace

/-- The polynomial that a node computes. -/
noncomputable def poly (ws : Workspace) (n : NodeRef) : MvPolynomial NodeRef Int :=
  match (ws.node n).term? with
  | some t =>
    (t.map fun v =>
      match v with
      | .node m => if _earlier : m.handle < n.handle then poly ws m else 0
      | .int k => C k
      | _ => 0).value
  | none => X n
termination_by n.handle

/-- The polynomial of an operand: that of a node, or a constant. -/
noncomputable def operandPoly (ws : Workspace) : Value → MvPolynomial NodeRef Int
  | .node m => ws.poly m
  | .int k => C k
  | _ => 0

/-- Whether everything that roots depend on is a leaf or a polynomial operation with the built-in
kernels. -/
structure IsPolynomial (ws : Workspace) (registry : Option Registry) (roots : List NodeRef) : Prop where
  terms : ∀ n, ws.Reaches roots n → (ws.node n).isOperation = true → ∃ t,
    (ws.node n).term? = some t ∧
      ∀ a ∈ t.operands, (∃ m, a = Value.node m) ∨ ∃ k, a = Value.int k
  builtin : ∀ n, ws.Reaches roots n → (ws.node n).isOperation = true →
    (ws.registryFor n.graph registry).get (ws.node n).kind =
      Registry.builtin.get (ws.node n).kind

variable {ws : Workspace} {n m x : NodeRef} {t : Term Value}

theorem mem_inputs_of_operand (term : (ws.node n).term? = some t)
    (operand : Value.node m ∈ t.operands) : m ∈ ws.inputs n := by
  obtain ⟨_, _, _, _, args⟩ := Node.term?_spec term
  refine mem_inputs_of_arg ?_
  rw [args]
  exact t.operands_sub_args.subset operand

theorem poly_of_leaf (leaf : (ws.node n).isLeaf = true) : ws.poly n = X n := by
  have none : (ws.node n).term? = Option.none := by
    unfold Node.term? Node.isOperation
    rw [leaf]
    rfl
  rw [poly, none]

theorem Sound.poly_of_term (sound : ws.Sound) (term : (ws.node n).term? = some t) :
    ws.poly n = (t.map ws.operandPoly).value := by
  rw [poly, term]
  dsimp only
  congr 1
  refine Term.map_congr fun a operand => ?_
  cases a with
  | node m =>
    have earlier := (sound.input_lt (mem_inputs_of_operand term operand)).2.1
    simp only [dif_pos earlier, operandPoly]
  | _ => rfl

/-- A variable that a set of nodes with all their inputs lacks is in none of their polynomials. -/
theorem Sound.pderiv_eq_zero (sound : ws.Sound) (p : NodeRef → Prop)
    (closed : ∀ n, p n → ∀ m ∈ ws.inputs n, p m) (lacks : ¬ p x) (hn : p n) :
    pderiv x (ws.poly n) = 0 := by
  induction h : n.handle using Nat.strong_induction_on generalizing n with
  | h handle ih =>
    subst h
    cases term : (ws.node n).term? with
    | none =>
      have other : x ≠ n := fun same => lacks (same ▸ hn)
      rw [poly, term]
      exact pderiv_X_of_ne other.symm
    | some t =>
      rw [sound.poly_of_term term]
      refine Term.pderiv_value_eq_zero fun b hb => ?_
      rw [Term.operands_map] at hb
      obtain ⟨a, ha, rfl⟩ := List.mem_map.mp hb
      cases a with
      | node m =>
        have input := mem_inputs_of_operand term ha
        exact ih m.handle (sound.input_lt input).2.1 (closed n hn m input) rfl
      | int k => exact pderiv_C
      | _ => exact map_zero _

/-- The chain rule at a node. -/
theorem Sound.eval_pderiv (sound : ws.Sound) (term : (ws.node n).term? = some t)
    (z : NodeRef → Int) : eval z (pderiv x (ws.poly n)) =
      (List.zipWith (fun w a => w * eval z (pderiv x (ws.operandPoly a)))
        (t.map fun v => eval z (ws.operandPoly v)).slopes t.operands).sum := by
  have slopes : (t.map fun v => eval z (ws.operandPoly v)).slopes =
      (t.map ws.operandPoly).slopes.map (eval z) := by
    rw [Term.slopes_hom, Term.map_map]
    rfl
  rw [sound.poly_of_term term, Term.pderiv_value, map_list_sum, List.map_zipWith, slopes,
    Term.operands_map, List.zipWith_map_left, List.zipWith_map_right]
  simp only [map_mul]

/-- How the value of a term depends on a node, given its slopes. -/
def weight (slopes : List Int) (operands : List Value) (m : NodeRef) : Int :=
  (List.zipWith (fun w a => if a.node? = some m then w else 0) slopes operands).sum

/-- Summing over nodes is summing over operands. -/
theorem sum_weight {s : Finset NodeRef} {d : NodeRef → Int} {e : Value → Int}
    (nodes : ∀ m, e (.node m) = d m) (others : ∀ a, a.node? = none → e a = 0) :
    ∀ (slopes : List Int) (operands : List Value), (∀ m, Value.node m ∈ operands → m ∈ s) →
      ∑ m ∈ s, weight slopes operands m * d m =
        (List.zipWith (fun w a => w * e a) slopes operands).sum := by
  intro slopes
  induction slopes with
  | nil => simp [weight]
  | cons w slopes ih =>
    intro operands inside
    cases operands with
    | nil => simp [weight]
    | cons a operands =>
      have rest := ih operands fun m hm => inside m (List.mem_cons_of_mem _ hm)
      have first : ∑ m ∈ s, (if a.node? = some m then w else 0) * d m = w * e a := by
        cases node : a.node? with
        | none => simp [others a node]
        | some q =>
          obtain rfl := eq_node_of_node? node
          have member := inside q List.mem_cons_self
          simp only [Option.some.injEq, ite_mul, zero_mul, Finset.sum_ite_eq, member, if_true, nodes]
      simp only [weight, List.zipWith_cons_cons, List.sum_cons, add_mul, Finset.sum_add_distrib,
        first] at rest ⊢
      rw [rest]

namespace IsPolynomial

variable {registry : Option Registry} {roots : List NodeRef} {z : NodeRef → Int}
variable (h : ws.IsPolynomial registry roots) (sound : ws.Sound)
include h sound

/-- There are no selectors, since no operation has two results. -/
theorem plain (reaches : ws.Reaches roots n) : (ws.node n).isSelector = false := by
  cases role : (ws.node n).role with
  | selector k =>
    obtain ⟨p, _, _, member, operation, low, high⟩ := sound.selector role
    obtain ⟨t, term, _⟩ := h.terms p (reaches.input member) ((Node.isOperation_iff _).mpr operation)
    have one := (Node.term?_spec term).2.1
    omega
  | _ => simp [Node.isSelector, role]

/-- A node denotes its polynomial at the values of the leaves. -/
theorem results_eq {I : Interpretation} (same : I.registry = registry)
    (leaves : ∀ n, ws.Reaches roots n → (ws.node n).isLeaf = true → I.leaf n = .int (z n))
    (reaches : ws.Reaches roots n) : ws.results I n = .ok [.int (eval z (ws.poly n))] := by
  induction handle : n.handle using Nat.strong_induction_on generalizing n with
  | h handle' ih =>
    subst handle
    cases operation : (ws.node n).isOperation with
    | false =>
      have leaf := Node.isLeaf_of_not_isOperation (h.plain sound reaches) (by simp [operation])
      rw [results_leaf leaf, leaves n reaches leaf, poly_of_leaf leaf, eval_X]
    | true =>
      obtain ⟨t, term, whole⟩ := h.terms n reaches operation
      obtain ⟨_, one, kwargs, kind, args⟩ := Node.term?_spec term
      have inputs : ∀ m ∈ ws.inputs n,
          ws.denoted I m = .ok (.int (eval z (ws.poly m))) := by
        intro m hm
        rw [denoted, ih m.handle (sound.input_lt hm).2.1 (reaches.input hm) rfl]
        rfl
      have reads : ∀ v ∈ (ws.node n).args,
          read (fun m => .ok (.int (eval z (ws.poly m)))) v =
            .ok (.int (eval z (ws.operandPoly v))) := by
        intro v hv
        rw [args] at hv
        have node : (∃ m, v = .node m) ∨ ∃ k, v = .int k :=
          (Term.mem_args hv).elim (whole v) .inr
        rcases node with ⟨m, rfl⟩ | ⟨k, rfl⟩
        · rfl
        · rw [operandPoly, eval_C]
          rfl
      obtain ⟨op, get⟩ := t.exists_operation
      have value := Term.forward get (f := fun v => eval z (ws.operandPoly v))
        (fun k => eval_C k) I.testing
      rw [sound.results_operation operation, applied_congr inputs]
      unfold applied
      rw [same, h.builtin n reaches operation, kind, get, mapM_congr_mem reads, mapM_eq_ok (fun _ _ => rfl),
        kwargs, args, one]
      change op.forwardKernel I.testing _ [] >>= _ = _
      rw [value, sound.poly_of_term term, Term.value_hom, Term.map_map]
      rfl

end IsPolynomial

end Workspace

end Backprop
