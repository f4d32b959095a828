import Mathlib
import Backprop.Value.Reshape
import Backprop.Value.Zero
import Backprop.Proofs.Arena
import Backprop.Proofs.Finite
import Backprop.Proofs.Positions
/-!
# Arithmetic on elements of any type

* `Value.Carries` says of a value that it is an array of elements, or a single one; `Value.Stands` says so
  of what is read as an array, which may be a plain number; `Value.Meets` is how either takes part in
  arithmetic.
* `Operator.apply_eq`: with an element in it, an operation on numbers is one on operands, and
  `Operator.entrywise_eq` gives its entries.
* `Value.Stands.zerosLike`: the zeros in the shape of a number or an array.
* `Value.Carries.div_count`: division by a number of entries.
-/

namespace Backprop

namespace Value

/-- A value of elements: an array, or a single element. -/
inductive Carries : Value → TypedArray → Prop where
  | array (a : TypedArray) : Carries (.array a) a
  | scalar (s : TypedScalar) : Carries (.scalar s) s.toArray

/-- The array of elements that a value is read as. -/
inductive Stands : Value → TypedArray → Prop where
  | carries {v : Value} {a : TypedArray} : v.Carries a → Stands v a
  | bool (b : Bool) : Stands (.bool b) (.ofEntry (t := .bool) b)
  | whole {n : Int} {t : ElementType} :
    kindOfWhole n = .elements t → Stands (.int n) (.ofEntry (t.ofInt n))
  | float (x : Float) : Stands (.float x) (.ofEntry (t := .float64) x)
  | complex (z : Complex) : Stands (.complex z) (.ofEntry (t := .complex128) z)

/-- How a number or an array of elements takes part in arithmetic. -/
inductive Meets : Value → Operand → Prop where
  | typed {v : Value} {a : TypedArray} : v.Carries a → Meets v (.typed a)
  | bool (b : Bool) : Meets (.bool b) (.typed (.ofEntry (t := .bool) b))
  | whole (n : Int) : Meets (.int n) (.whole n)
  | real (x : Float) : Meets (.float x) (.real x)
  | complex (z : Complex) : Meets (.complex z) (.complex z)

variable {v w : Value} {a b : TypedArray} {x y : Operand}

/-! ### Elements -/

theorem Carries.cells (h : v.Carries a) : v.cells = .ok (.elements a) := by
  cases h <;> rfl

theorem Carries.shape (h : v.Carries a) : v.shape = a.shape := by
  cases h <;> rfl

theorem Carries.isTyped (h : v.Carries a) : v.isTyped = true := by
  cases h <;> rfl

/-- Elements stay the same when they are stored without their axes. -/
theorem carries_collapse (a : TypedArray) : a.collapse.Carries a := by
  obtain ⟨t, s, entries, size⟩ := a
  unfold TypedArray.collapse
  split
  next flat =>
    obtain rfl : s = [] := flat
    obtain ⟨x, rfl⟩ := Array.size_eq_one_iff.mp size
    exact .scalar ⟨t, x⟩
  next => exact .array _

theorem collapse_of_axes (axes : a.shape ≠ []) : a.collapse = .array a := if_neg axes

/-! ### Numbers and arrays -/

/-- Whole numbers are read as words. -/
theorem kindOfWhole_eq {n : Int} {t : ElementType} (h : kindOfWhole n = .elements t) :
    t = .int64 ∨ t = .uint .w64 := by
  unfold kindOfWhole at h
  split at h
  · exact .inl (CellKind.elements.inj h).symm
  · split at h
    · exact .inr (CellKind.elements.inj h).symm
    · cases h

theorem cells_bool (b : Bool) : (Value.bool b).cells = .ok (.elements (.ofEntry (t := .bool) b)) := by
  cases b <;> rfl

theorem Stands.cells (h : v.Stands a) : v.cells = .ok (.elements a) := by
  cases h with
  | carries h => exact h.cells
  | bool b => exact cells_bool b
  | @whole n t kind =>
    have rows : (Value.int n).rows = .ok ⟨[], [.elements t], [.int n]⟩ := by
      rw [← kind]
      rfl
    exact bind_eq_of_ok rows rfl
  | float x => rfl
  | complex z => rfl

theorem Stands.shape (h : v.Stands a) : v.shape = a.shape := by
  cases h with
  | carries h => exact h.shape
  | bool | whole | float | complex => rfl

/-- What has axes is an array. -/
theorem Stands.array (h : v.Stands a) (axes : a.shape ≠ []) : v = .array a := by
  cases h with
  | carries h =>
    cases h with
    | array => rfl
    | scalar s => exact absurd rfl axes
  | bool | whole | float | complex => exact absurd rfl axes

/-- Zeros are at least doubles. -/
theorem Stands.zerosLike (h : v.Stands a) : v.zerosLike = .ok (.array
    ⟨a.elementType.join .float64, .ofFn a.shape fun _ => (a.elementType.join .float64).zero⟩) := by
  cases h with
  | carries h => cases h <;> rfl
  | whole kind => rcases kindOfWhole_eq kind with rfl | rfl <;> rfl
  | bool | float | complex => rfl

/-! ### Operands -/

theorem Meets.toOperand (h : v.Meets x) : v.toOperand = .ok x := by
  cases h with
  | typed h => cases h <;> rfl
  | bool b => exact bind_eq_of_ok (cells_bool b) rfl
  | whole | real | complex => rfl

theorem Meets.shape (h : v.Meets x) : v.shape = x.shape := by
  cases h with
  | typed h => exact h.shape
  | bool | whole | real | complex => rfl

theorem Meets.elements (h : v.Meets x) : x.isValues = false ∧ x.isTexts = false := by
  cases h <;> exact ⟨rfl, rfl⟩

theorem Meets.sequenceLength? (h : v.Meets x) : v.sequenceLength? = Option.none := by
  cases h with
  | typed h => cases h <;> rfl
  | bool | whole | real | complex => rfl

theorem Meets.append? (h : v.Meets x) (w : Value) : v.append? w = Option.none := by
  cases h with
  | typed h => cases h <;> rfl
  | bool | whole | real | complex => rfl

end Value

namespace Operand

/-- An operand that a type can take, as far as its range goes. -/
def Within (t : ElementType) : Operand → Prop
  | whole n => t.holds n = true
  | texts _ | values _ => False
  | _ => True

variable {x : Operand} {t : ElementType}

theorem Within.convertTo (h : x.Within t) : ∃ p, x.convertTo t = .ok p ∧ p.shape = x.shape := by
  cases x with
  | typed a =>
    refine ⟨_, rfl, ?_⟩
    obtain ⟨u, e⟩ := a
    change (TypedArray.convertTo t ⟨u, e⟩).shape = e.shape
    unfold TypedArray.convertTo
    dsimp only
    split
    next same =>
      cases same
      rfl
    next => rfl
  | whole n => exact ⟨_, if_pos h, rfl⟩
  | real x => exact ⟨_, rfl, rfl⟩
  | complex z => exact ⟨_, rfl, rfl⟩
  | texts _ => exact h.elim
  | values _ => exact h.elim

end Operand

namespace Operator

variable {op : Operator} {v w : Value} {x y : Operand}

/-- With an element in it, an operation on numbers is one on operands. -/
theorem apply_eq (plain : op.sequences v w = none) (hv : v.Meets x) (hw : w.Meets y)
    (typed : (v.isTyped || w.isTyped) = true) :
    op.apply v w = op.typed (v.isPoint && w.isPoint) x y := by
  unfold Operator.apply applyWithin
  simp only [plain, typed, if_true, hv.toOperand, hw.toOperand, hv.elements, hw.elements, bind,
    Except.bind, Bool.or_self, Bool.false_eq_true, if_false]

theorem sequences_add (hv : v.Meets x) (w : Value) : add.sequences v w = none := by
  simp only [add, hv.append?, Option.map_none]

theorem sequences_mul (hv : v.Meets x) (hw : w.Meets y) : mul.sequences v w = none := by
  simp only [mul, Value.repetition?, hv.sequenceLength?, hw.sequenceLength?, Option.or_none]

/-- The entries of an operation on broadcast operands. -/
theorem entrywise_eq {t u : ElementType} (f : t.Carrier → t.Carrier → u.Carrier)
    {p q : Tensor t.Carrier} {S : Shape} (hx : x.convertTo t = .ok p) (hy : y.convertTo t = .ok q)
    (fits : Shape.broadcast? p.shape q.shape = some S) :
    entrywise f x y = .ok (TypedArray.collapse ⟨u, .ofFn S fun i =>
      f (p.get (p.shape.project i)) (q.get (q.shape.project i))⟩) := by
  unfold entrywise
  refine bind_eq_of_ok hx (bind_eq_of_ok hy ?_)
  rw [Tensor.zipWith?, fits]
  rfl

end Operator

namespace ElementType

/-- Quotients are of a floating-point type, which takes every whole number of up to 64 bits. -/
theorem holds_quotient {t : ElementType} {n : Int} (small : n.natAbs < 2 ^ 64) :
    t.quotient.holds n = true := by
  have finite : (doubleOfInt n).isFinite = true := isFinite_doubleOfInt small
  cases t <;> exact finite

theorem exists_div? (t : ElementType) : ∃ f, t.quotient.div? = some f := by
  cases t <;> exact ⟨_, rfl⟩

end ElementType

namespace Value

variable {v : Value} {a : TypedArray}

/-- Elements are divided by a whole number within the range of their type. -/
theorem Carries.div_count (h : v.Carries a) {n : Int} (range : a.elementType.withWhole.holds n = true)
    (small : n.natAbs < 2 ^ 64) : ∃ m b, v.div (.int n) = .ok m ∧ m.Carries b ∧ b.shape = a.shape := by
  have typed : (v.isTyped || (Value.int n).isTyped) = true := by rw [h.isTyped, Bool.true_or]
  obtain ⟨f, quotient⟩ := a.elementType.withWhole.exists_div?
  obtain ⟨p, left, shape⟩ :=
    Operand.Within.convertTo (x := .typed a) (t := a.elementType.withWhole.quotient) trivial
  have right : Operand.convertTo a.elementType.withWhole.quotient (.whole n) =
      .ok (.single (ElementType.ofInt _ n)) := if_pos (ElementType.holds_quotient small)
  have fits : Shape.broadcast? p.shape [] = some p.shape := (Shape.Stretches.nil _).broadcast?.2
  have run : v.div (.int n) = Operator.entrywise f (.typed a) (.whole n) := by
    have plain : Operator.div.sequences v (.int n) = Option.none := rfl
    refine (Operator.apply_eq plain (.typed h) (.whole n) typed).trans ?_
    simp only [Operator.div, Operand.common, Operand.isWithin, range, Bool.or_true, Bool.and_self,
      Bool.not_true, Bool.and_false, Bool.false_eq_true, if_false, quotient, Operator.entrywise?]
  rw [Operator.entrywise_eq f left right fits] at run
  exact ⟨_, _, run, carries_collapse _, shape⟩

end Value

end Backprop
