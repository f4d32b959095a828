import Mathlib.Algebra.MvPolynomial.PDeriv
import Mathlib.Tactic.Ring
import Backprop.Kernel.Builtin
import Backprop.Graph.Node
/-!
# Polynomial operations

Sums, differences, products, negatives and powers with a constant exponent, as terms over any ring.

* `Term.slopes` are the derivatives of a term by its operands; `Term.pderiv_value` is the chain rule.
* `Node.term?` reads a term off a recorded call.
* `Term.forward`, `Term.backward`: on whole numbers the built-in kernels compute the value of a term,
  and its slopes times the derivative of the result.
-/

namespace Backprop

open MvPolynomial

/-- An operation on operands whose result is a polynomial in them. -/
inductive Term (α : Type*) where
  | add (a b : α)
  | sub (a b : α)
  | mul (a b : α)
  | neg (a : α)
  /-- The power whose exponent is one more than the number. -/
  | pow (a : α) (p : Nat)

namespace Term

variable {α β γ : Type*} {R S : Type*} [CommRing R] [CommRing S]

def map (f : α → β) : Term α → Term β
  | add a b => add (f a) (f b)
  | sub a b => sub (f a) (f b)
  | mul a b => mul (f a) (f b)
  | neg a => neg (f a)
  | pow a p => pow (f a) p

def operands : Term α → List α
  | add a b | sub a b | mul a b => [a, b]
  | neg a | pow a _ => [a]

def value : Term R → R
  | add a b => a + b
  | sub a b => a - b
  | mul a b => a * b
  | neg a => -a
  | pow a p => a ^ (p + 1)

/-- The derivatives of the value by the operands. -/
def slopes : Term R → List R
  | add _ _ => [1, 1]
  | sub _ _ => [1, -1]
  | mul a b => [b, a]
  | neg _ => [-1]
  | pow a p => [(p + 1) * a ^ p]

theorem map_map (f : α → β) (g : β → γ) (t : Term α) : (t.map f).map g = t.map (g ∘ f) := by
  cases t <;> rfl

theorem map_congr {f g : α → β} {t : Term α} (same : ∀ a ∈ t.operands, f a = g a) :
    t.map f = t.map g := by
  cases t <;> simp_all [map, operands]

theorem operands_map (f : α → β) (t : Term α) : (t.map f).operands = t.operands.map f := by
  cases t <;> rfl

theorem length_slopes (t : Term R) : t.slopes.length = t.operands.length := by
  cases t <;> rfl

theorem value_hom (f : R →+* S) (t : Term R) : f t.value = (t.map f).value := by
  cases t <;> simp [map, value]

theorem slopes_hom (f : R →+* S) (t : Term R) : t.slopes.map f = (t.map f).slopes := by
  cases t <;> simp [map, slopes]

/-- The chain rule. -/
theorem pderiv_value {σ : Type*} (x : σ) (t : Term (MvPolynomial σ R)) :
    pderiv x t.value = (List.zipWith (fun w a => w * pderiv x a) t.slopes t.operands).sum := by
  cases t with
  | add a b => simp [value, slopes, operands]
  | sub a b => simp [value, slopes, operands, sub_eq_add_neg]
  | mul a b =>
    simp only [value, slopes, operands, Derivation.leibniz, smul_eq_mul, List.zipWith_cons_cons,
      List.zipWith_nil_left, List.sum_cons, List.sum_nil]
    ring
  | neg a => simp [value, slopes, operands]
  | pow a p =>
    simp only [value, slopes, operands, Derivation.leibniz_pow, List.zipWith_cons_cons,
      List.zipWith_nil_left, List.sum_cons, List.sum_nil, smul_eq_mul, nsmul_eq_mul]
    push_cast
    ring_nf

/-- A term is constant in a variable if its operands are. -/
theorem pderiv_value_eq_zero {σ : Type*} {x : σ} {t : Term (MvPolynomial σ R)}
    (constant : ∀ a ∈ t.operands, pderiv x a = 0) : pderiv x t.value = 0 := by
  rw [pderiv_value]
  cases t <;> simp_all [operands, slopes]

/-! ### Recorded calls -/

def kind : Term α → String
  | add _ _ => "add"
  | sub _ _ => "sub"
  | mul _ _ => "mul"
  | neg _ => "neg"
  | pow _ _ => "pow"

/-- The arguments of the call that computes a term. -/
def args : Term Value → List Value
  | add a b | sub a b | mul a b => [a, b]
  | neg a => [a]
  | pow a p => [a, .int (p + 1)]

/-- The term that a call computes. -/
def ofCall (kind : String) (args : List Value) : Option (Term Value) :=
  match args with
  | [a] => if kind = "neg" then some (.neg a) else none
  | [a, b] =>
    if kind = "add" then some (.add a b)
    else if kind = "sub" then some (.sub a b)
    else if kind = "mul" then some (.mul a b)
    else if kind = "pow" then
      match b with
      | .int p => if 1 ≤ p then some (.pow a (p.toNat - 1)) else none
      | _ => none
    else none
  | _ => none

theorem ofCall_spec {kind : String} {args : List Value} {t : Term Value}
    (h : ofCall kind args = some t) : kind = t.kind ∧ args = t.args := by
  unfold ofCall at h
  split at h
  · split at h
    · cases h
      exact ⟨‹_›, rfl⟩
    · cases h
  next a b =>
    split at h
    · cases h
      exact ⟨‹_›, rfl⟩
    · split at h
      · cases h
        exact ⟨‹_›, rfl⟩
      · split at h
        · cases h
          exact ⟨‹_›, rfl⟩
        · split at h
          next pow =>
            split at h
            next p =>
              split at h
              next low =>
                cases h
                have same : ((p.toNat - 1 : Nat) : Int) + 1 = p := by omega
                exact ⟨pow, by rw [Term.args, same]⟩
              next => cases h
            next => cases h
          next => cases h
  next => cases h

theorem operands_sub_args (t : Term Value) : t.operands <+: t.args := by
  cases t <;> simp [operands, args]

theorem mem_args {v : Value} {t : Term Value} (h : v ∈ t.args) : v ∈ t.operands ∨ ∃ k, v = .int k := by
  cases t with
  | pow a p =>
    rcases List.mem_cons.mp h with rfl | h
    · exact .inl List.mem_cons_self
    · exact .inr ⟨_, List.mem_singleton.mp h⟩
  | _ => exact .inl h

end Term

/-- The term that a node computes: it is a call without keywords and with one result. -/
def Node.term? (n : Node) : Option (Term Value) :=
  if n.isOperation && n.outputs == 1 && n.kwargs.isEmpty then Term.ofCall n.kind n.args else none

theorem Node.term?_spec {n : Node} {t : Term Value} (h : n.term? = some t) :
    n.isOperation = true ∧ n.outputs = 1 ∧ n.kwargs = [] ∧ n.kind = t.kind ∧ n.args = t.args := by
  unfold term? at h
  split at h
  next call =>
    simp only [Bool.and_eq_true, beq_iff_eq, List.isEmpty_iff] at call
    exact ⟨call.1.1, call.1.2, call.2, Term.ofCall_spec h⟩
  next => cases h

/-! ### Kernels on whole numbers -/

namespace Term

variable {t : Term Value} {operation : Operation} {f : Value → Int}

theorem exists_operation {α : Type*} (t : Term α) :
    ∃ operation, Registry.builtin.get t.kind = .ok operation := by
  cases t <;> exact ⟨_, rfl⟩

/-- A built-in kernel computes the value of a term. -/
theorem forward (h : Registry.builtin.get t.kind = .ok operation) (constants : ∀ k, f (.int k) = k)
    (testing : Bool) : operation.forwardKernel testing (t.args.map fun v => .int (f v)) [] =
      .ok (.int (t.map f).value) := by
  cases t with
  | pow a p =>
    obtain rfl : _ = operation := Except.ok.inj h
    cases testing <;> simp only [args, List.map_cons, List.map_nil, constants] <;> rfl
  | _ =>
    obtain rfl : _ = operation := Except.ok.inj h
    cases testing <;> rfl

/-- A built-in backward kernel multiplies the slopes by the derivative of the value. A constant
exponent has no derivative. -/
theorem backward (h : Registry.builtin.get t.kind = .ok operation)
    (constants : ∀ k, f (.int k) = k) (d : Int) : ∃ kernel more, operation.backward = some kernel ∧
      kernel ((t.args.map fun v => .int (f v)) ++ [.int d]) [] =
        .ok (.tuple (((t.map f).slopes.map fun w => .int (d * w)) ++ more)) := by
  cases t with
  | add a b =>
    obtain rfl : _ = operation := Except.ok.inj h
    refine ⟨_, [], rfl, ?_⟩
    simp only [map, slopes, List.map_cons, List.map_nil, mul_one]
    rfl
  | sub a b =>
    obtain rfl : _ = operation := Except.ok.inj h
    refine ⟨_, [], rfl, ?_⟩
    simp only [map, slopes, List.map_cons, List.map_nil, mul_one, mul_neg]
    rfl
  | mul a b =>
    obtain rfl : _ = operation := Except.ok.inj h
    exact ⟨_, [], rfl, rfl⟩
  | neg a =>
    obtain rfl : _ = operation := Except.ok.inj h
    refine ⟨_, [], rfl, ?_⟩
    simp only [map, slopes, List.map_cons, List.map_nil, mul_one, mul_neg]
    rfl
  | pow a p =>
    obtain rfl : _ = operation := Except.ok.inj h
    refine ⟨_, [.none], rfl, ?_⟩
    have lower : (p + 1 : Int) - 1 = p := by omega
    simp only [args, map, slopes, List.map_cons, List.map_nil, constants, ← mul_assoc]
    change (do
      let lowered ← Value.pow (.int (f a)) (.int (p + 1 - 1))
      let scaled ← (Value.int (d * (p + 1))).mul lowered
      return Kernel.derivatives [← Kernel.unbroadcast scaled (.int (f a)), .none]) = _
    rw [lower]
    rfl

end Term

end Backprop
