import Mathlib
import Backprop.Kernel.Linear
import Backprop.Proofs.Broadcasting
/-!
# Matrix products and their adjoint

* `Tensor.Matrices` reads an array as matrices that stand in outer axes. A vector is a matrix of one row
  or of one column, whose axis is absent.
* `Contraction` holds the axes of a product. `Value.Matrices.matmul` gives its entries, and
  `Value.contraction_of_matmul` finds the axes of every product that there is.
* `Kernel.matmulBackward_adjoint`: for arrays of words the backward kernel is the adjoint of the product
  in either operand.
-/

namespace Backprop

namespace Shape

/-- An axis, or none. This is also the coordinate along it. -/
def axis (absent : Bool) (n : Nat) : List Nat := if absent then [] else [n]

@[simp] theorem axis_true (n : Nat) : axis true n = [] := rfl

@[simp] theorem axis_false (n : Nat) : axis false n = [n] := rfl

section
variable {absent : Bool} {n k : Nat}

theorem axis_mem_box (h : k < n) : axis absent k ∈ box (axis absent n) := by
  cases absent <;> simp [h]

/-- An absent axis stands for one of length one. -/
theorem sum_box_axis {α : Type} [AddCommMonoid α] (one : absent = true → n = 1) (f : List Nat → α) :
    ∑ q ∈ box (axis absent n), f q = ∑ k ∈ Finset.range n, f (axis absent k) := by
  cases absent with
  | true => simp [one rfl, sum_box_nil]
  | false => simp [sum_box_cons, sum_box_nil]

end

/-- A sum over the entries of matrices. -/
theorem sum_box_matrices {α : Type} [AddCommMonoid α] {row column : Bool} {outer : Shape} {m n : Nat}
    (oneRow : row = true → m = 1) (oneColumn : column = true → n = 1) {f : List Nat → α}
    {g : List Nat → Nat → Nat → α} (entry : ∀ o ∈ outer.box, ∀ i < m, ∀ j < n,
      f (o ++ (axis row i ++ axis column j)) = g o i j) :
    ∑ p ∈ box (outer ++ (axis row m ++ axis column n)), f p =
      ∑ o ∈ outer.box, ∑ i ∈ Finset.range m, ∑ j ∈ Finset.range n, g o i j := by
  simp only [sum_box_append, sum_box_axis oneRow, sum_box_axis oneColumn]
  refine Finset.sum_congr rfl fun o ho => Finset.sum_congr rfl fun i hi =>
    Finset.sum_congr rfl fun j hj => ?_
  exact entry o ho i (Finset.mem_range.mp hi) j (Finset.mem_range.mp hj)

/-- An array that has axes is a vector, or matrices in outer axes. -/
theorem vector_or_matrices {s : Shape} (axes : s ≠ []) :
    (∃ n, s = [n]) ∨ ∃ outer m n, s = outer ++ [m, n] := by
  obtain ⟨front, n, rfl⟩ := List.eq_nil_or_concat s |>.resolve_left axes
  rcases List.eq_nil_or_concat front with rfl | ⟨outer, m, rfl⟩
  · exact .inl ⟨n, rfl⟩
  · exact .inr ⟨outer, m, n, by simp⟩

theorem exists_left {s : Shape} (axes : s ≠ []) : ∃ row outer m n,
    s = outer ++ (axis row m ++ axis false n) ∧ (row = true → outer = [] ∧ m = 1) := by
  rcases vector_or_matrices axes with ⟨n, rfl⟩ | ⟨outer, m, n, rfl⟩
  · exact ⟨true, [], 1, n, rfl, fun _ => ⟨rfl, rfl⟩⟩
  · exact ⟨false, outer, m, n, rfl, nofun⟩

theorem exists_right {s : Shape} (axes : s ≠ []) : ∃ column outer m n,
    s = outer ++ (axis false m ++ axis column n) ∧ (column = true → outer = [] ∧ n = 1) := by
  rcases vector_or_matrices axes with ⟨n, rfl⟩ | ⟨outer, m, n, rfl⟩
  · exact ⟨true, [], n, 1, rfl, fun _ => ⟨rfl, rfl⟩⟩
  · exact ⟨false, outer, m, n, rfl, nofun⟩

theorem insertIdx_append (l₁ l₂ : List Nat) (x : Nat) :
    (l₁ ++ l₂).insertIdx l₁.length x = l₁ ++ x :: l₂ := by
  induction l₁ with
  | nil => rfl
  | cons y l₁ ih => rw [List.cons_append, List.length_cons, List.insertIdx_succ_cons, ih]; rfl

theorem eraseIdx_append (l₁ l₂ : List Nat) (x : Nat) :
    (l₁ ++ x :: l₂).eraseIdx l₁.length = l₁ ++ l₂ := by
  rw [List.eraseIdx_append_of_length_le le_rfl, Nat.sub_self]
  rfl

theorem swapLast_append (l : List Nat) (x y : Nat) : swapLast (l ++ [x, y]) = l ++ [y, x] := by
  simp [swapLast]

end Shape

/-! ### Arrays of matrices -/

namespace Tensor

open Shape

variable {α : Type} [Inhabited α] {t : Tensor α} {s s₁ s₂ : Shape} {p q : List Nat}

section
variable (h : t.shape = s₁ ++ s₂)
include h

theorem shape_insertAxis : (t.insertAxis s₁.length).shape = s₁ ++ 1 :: s₂ := by
  change t.shape.insertIdx s₁.length 1 = _
  rw [h, insertIdx_append]

theorem get_insertAxis (hp : p ∈ s₁.box) (hq : q ∈ s₂.box) :
    (t.insertAxis s₁.length).get (p ++ 0 :: q) = t.get (p ++ q) := by
  have inside : p ++ 0 :: q ∈ box (t.shape.insertIdx s₁.length 1) := by
    rw [h, insertIdx_append]
    exact mem_box_append.mpr ⟨p, hp, 0 :: q, cons_mem_box.mpr ⟨Nat.one_pos, hq⟩, rfl⟩
  rw [insertAxis, get_gather t inside, ← length_of_mem_box hp, eraseIdx_append]

end

section
variable {n : Nat} (h : t.shape = s₁ ++ n :: s₂)
include h

theorem shape_removeAxis : (t.removeAxis s₁.length).shape = s₁ ++ s₂ := by
  change t.shape.eraseIdx s₁.length = _
  rw [h, eraseIdx_append]

theorem get_removeAxis (hp : p ∈ s₁.box) (hq : q ∈ s₂.box) :
    (t.removeAxis s₁.length).get (p ++ q) = t.get (p ++ 0 :: q) := by
  have inside : p ++ q ∈ box (t.shape.eraseIdx s₁.length) := by
    rw [h, eraseIdx_append]
    exact mem_box_append.mpr ⟨p, hp, q, hq, rfl⟩
  rw [removeAxis, get_gather t inside, ← length_of_mem_box hp, insertIdx_append]

end

/-- An array of matrices with `m` rows and `n` columns, one for each position of the outer axes. The axis
of a single row or of a single column may be absent. -/
structure Matrices (t : Tensor α) (row column : Bool) (outer : Shape) (m n : Nat)
    (f : List Nat → Nat → Nat → α) : Prop where
  shape : t.shape = outer ++ (axis row m ++ axis column n)
  oneRow : row = true → m = 1
  oneColumn : column = true → n = 1
  entry : ∀ o ∈ outer.box, ∀ i < m, ∀ j < n, t.get (o ++ (axis row i ++ axis column j)) = f o i j

/-- Every array that has the axes is an array of matrices. -/
theorem matrices {row column : Bool} {outer : Shape} {m n : Nat}
    (shape : t.shape = outer ++ (axis row m ++ axis column n)) (oneRow : row = true → m = 1)
    (oneColumn : column = true → n = 1) : t.Matrices row column outer m n fun o i j =>
      t.get (o ++ (axis row i ++ axis column j)) :=
  ⟨shape, oneRow, oneColumn, fun _ _ _ _ _ _ => rfl⟩

namespace Matrices

variable {row column : Bool} {outer : Shape} {m n : Nat} {f g : List Nat → Nat → Nat → α}

theorem congr (h : t.Matrices row column outer m n f)
    (same : ∀ o ∈ outer.box, ∀ i < m, ∀ j < n, f o i j = g o i j) :
    t.Matrices row column outer m n g :=
  { h with entry := fun o ho i hi j hj => (h.entry o ho i hi j hj).trans (same o ho i hi j hj) }

theorem insertRow (h : t.Matrices true column outer m n f) :
    (t.insertAxis outer.length).Matrices false column outer m n f := by
  obtain rfl := h.oneRow rfl
  refine ⟨shape_insertAxis h.shape, nofun, h.oneColumn, fun o ho i hi j hj => ?_⟩
  obtain rfl := Nat.lt_one_iff.mp hi
  exact (get_insertAxis h.shape ho (axis_mem_box hj)).trans (h.entry o ho 0 hi j hj)

theorem removeRow (h : t.Matrices false column outer m n f) (one : m = 1) :
    (t.removeAxis outer.length).Matrices true column outer m n f := by
  subst one
  refine ⟨shape_removeAxis h.shape, fun _ => rfl, h.oneColumn, fun o ho i hi j hj => ?_⟩
  obtain rfl := Nat.lt_one_iff.mp hi
  exact (get_removeAxis h.shape ho (axis_mem_box hj)).trans (h.entry o ho 0 hi j hj)

theorem insertColumn (h : t.Matrices row true outer m n f) :
    (t.insertAxis (outer ++ axis row m).length).Matrices row false outer m n f := by
  obtain rfl := h.oneColumn rfl
  have shape : t.shape = (outer ++ axis row m) ++ [] := by
    rw [h.shape, ← List.append_assoc]
    rfl
  refine ⟨?_, h.oneRow, nofun, fun o ho i hi j hj => ?_⟩
  · rw [shape_insertAxis shape, List.append_assoc]
    rfl
  · obtain rfl := Nat.lt_one_iff.mp hj
    have inside : o ++ axis row i ∈ box (outer ++ axis row m) :=
      mem_box_append.mpr ⟨o, ho, _, axis_mem_box hi, rfl⟩
    rw [← h.entry o ho i hi 0 hj, axis_false, axis_true, ← List.append_assoc, ← List.append_assoc]
    exact get_insertAxis shape inside (by simp)

theorem removeColumn (h : t.Matrices row false outer m n f) (one : n = 1) :
    (t.removeAxis (outer ++ axis row m).length).Matrices row true outer m n f := by
  subst one
  have shape : t.shape = (outer ++ axis row m) ++ 1 :: [] := by
    rw [h.shape, ← List.append_assoc]
    rfl
  refine ⟨?_, h.oneRow, fun _ => rfl, fun o ho i hi j hj => ?_⟩
  · rw [shape_removeAxis shape, List.append_assoc]
    rfl
  · obtain rfl := Nat.lt_one_iff.mp hj
    have inside : o ++ axis row i ∈ box (outer ++ axis row m) :=
      mem_box_append.mpr ⟨o, ho, _, axis_mem_box hi, rfl⟩
    rw [← h.entry o ho i hi 0 hj, axis_false, axis_true, ← List.append_assoc, ← List.append_assoc]
    exact get_removeAxis shape inside (by simp)

theorem swapLast (h : t.Matrices false false outer m n f) :
    t.swapLast.Matrices false false outer n m fun o i j => f o j i := by
  have shape : Shape.swapLast t.shape = outer ++ [n, m] := by
    rw [h.shape]
    exact swapLast_append outer m n
  refine ⟨shape, nofun, nofun, fun o ho i hi j hj => ?_⟩
  have inside : o ++ [i, j] ∈ box (Shape.swapLast t.shape) := by
    rw [shape]
    exact mem_box_append.mpr ⟨o, ho, [i, j], by simp [hi, hj], rfl⟩
  have moved := get_gather t (g := Shape.swapLast) inside
  rw [swapLast_append] at moved
  exact moved.trans (h.entry o ho j hj i hi)

/-! Axes that are inserted or removed for vectors only. -/

section
variable {P : Prop} [Decidable P] {k : Nat}

theorem addRow (h : t.Matrices row column outer m n f) (flag : P ↔ row = true)
    (place : P → k = outer.length) :
    (if P then t.insertAxis k else t).Matrices false column outer m n f := by
  cases row with
  | true =>
    have vector : P := flag.mpr rfl
    rw [if_pos vector, place vector]
    exact h.insertRow
  | false => rwa [if_neg fun vector => Bool.false_ne_true (flag.mp vector)]

theorem dropRow (h : t.Matrices false column outer m n f) (flag : P ↔ row = true)
    (one : row = true → m = 1) (place : P → k = outer.length) :
    (if P then t.removeAxis k else t).Matrices row column outer m n f := by
  cases row with
  | true =>
    have vector : P := flag.mpr rfl
    rw [if_pos vector, place vector]
    exact h.removeRow (one rfl)
  | false => rwa [if_neg fun vector => Bool.false_ne_true (flag.mp vector)]

theorem addColumn (h : t.Matrices row column outer m n f) (flag : P ↔ column = true)
    (place : P → k = (outer ++ axis row m).length) :
    (if P then t.insertAxis k else t).Matrices row false outer m n f := by
  cases column with
  | true =>
    have vector : P := flag.mpr rfl
    rw [if_pos vector, place vector]
    exact h.insertColumn
  | false => rwa [if_neg fun vector => Bool.false_ne_true (flag.mp vector)]

theorem dropColumn (h : t.Matrices row false outer m n f) (flag : P ↔ column = true)
    (one : column = true → n = 1) (place : P → k = (outer ++ axis row m).length) :
    (if P then t.removeAxis k else t).Matrices row column outer m n f := by
  cases column with
  | true =>
    have vector : P := flag.mpr rfl
    rw [if_pos vector, place vector]
    exact h.removeColumn (one rfl)
  | false => rwa [if_neg fun vector => Bool.false_ne_true (flag.mp vector)]

end

/-! Operands of products: a vector has no outer axes. -/

section
variable (vector : row = true → outer = [])
include vector

theorem rank_left (h : t.Matrices row false outer m n f) : t.rank = 1 ↔ row = true := by
  rw [rank, h.shape]
  cases row with
  | true => simp [vector rfl]
  | false => simp

theorem promoteLeft (h : t.Matrices row false outer m n f) :
    (if t.rank = 1 then t.insertAxis 0 else t).Matrices false false outer m n f := by
  have flag := h.rank_left vector
  refine h.addRow flag fun one => ?_
  rw [vector (flag.mp one)]
  rfl

end

section
variable (vector : column = true → outer = [])
include vector

theorem rank_right (h : t.Matrices false column outer m n f) : t.rank = 1 ↔ column = true := by
  rw [rank, h.shape]
  cases column with
  | true => simp [vector rfl]
  | false => simp

theorem promoteRight (h : t.Matrices false column outer m n f) :
    (if t.rank = 1 then t.insertAxis 1 else t).Matrices false false outer m n f := by
  have flag := h.rank_right vector
  refine h.addColumn flag fun one => ?_
  rw [vector (flag.mp one)]
  rfl

end

end Matrices

end Tensor

/-! ### Products -/

/-- The axes of a matrix product: an operand may be a vector, whose own outer axes are then none. -/
structure Contraction where
  outerA : Shape
  outerB : Shape
  outer : Shape
  rows : Nat
  inner : Nat
  columns : Nat
  rowVector : Bool
  columnVector : Bool
  oneRow : rowVector = true → outerA = [] ∧ rows = 1
  oneColumn : columnVector = true → outerB = [] ∧ columns = 1
  fits : Shape.broadcast? outerA outerB = some outer

namespace Contraction

open Shape

/-- The shape of the left operand. -/
def left (c : Contraction) : Shape := c.outerA ++ (axis c.rowVector c.rows ++ axis false c.inner)

/-- The shape of the right operand. -/
def right (c : Contraction) : Shape := c.outerB ++ (axis false c.inner ++ axis c.columnVector c.columns)

/-- The entries of the product, with a function that makes them of the pairs of a row and a column. -/
def entries {α γ : Type} (c : Contraction) (combine : List (α × α) → γ)
    (f g : List Nat → Nat → Nat → α) (o : List Nat) (i j : Nat) : γ :=
  combine <| (List.range c.inner).map fun x => (f (c.outerA.project o) i x, g (c.outerB.project o) x j)

end Contraction

namespace Tensor

open Shape

variable {α γ : Type} [Inhabited α] [Inhabited γ] {t u : Tensor α} (combine : List (α × α) → γ)
  {f g : List Nat → Nat → Nat → α}

theorem matrixShape?_append (s : Shape) (m n : Nat) : matrixShape? (s ++ [m, n]) = some (s, m, n) := by
  simp [matrixShape?]

/-- The product of matrices that have both of their axes. -/
theorem matrixProduct?_matrices (c : Contraction)
    (ht : t.Matrices false false c.outerA c.rows c.inner f)
    (hu : u.Matrices false false c.outerB c.inner c.columns g) :
    ∃ r, matrixProduct? combine t u = some r ∧
      r.Matrices false false c.outer c.rows c.columns (c.entries combine f g) := by
  obtain ⟨left, right⟩ := stretches_of_broadcast? c.fits
  have shapeA : matrixShape? t.shape = some (c.outerA, c.rows, c.inner) := by
    rw [ht.shape]
    exact matrixShape?_append ..
  have shapeB : matrixShape? u.shape = some (c.outerB, c.inner, c.columns) := by
    rw [hu.shape]
    exact matrixShape?_append ..
  unfold matrixProduct?
  simp only [shapeA, shapeB, c.fits, Option.bind_eq_bind, Option.bind_some, if_true]
  refine ⟨_, rfl, rfl, nofun, nofun, fun o ho i hi j hj => ?_⟩
  have inside : o ++ [i, j] ∈ box (c.outer ++ [c.rows, c.columns]) :=
    mem_box_append.mpr ⟨o, ho, [i, j], by simp [hi, hj], rfl⟩
  have place : (o ++ [i, j]).take c.outer.length = o := by
    rw [← length_of_mem_box ho, List.take_left]
  have first : (o ++ [i, j]).getD c.outer.length 0 = i := by
    simp [← length_of_mem_box ho]
  have second : (o ++ [i, j]).getD (c.outer.length + 1) 0 = j := by
    simp [← length_of_mem_box ho]
  refine (get_ofFn _ inside).trans ?_
  simp only [place, first, second]
  refine congrArg combine (List.map_congr_left fun x hx => ?_)
  have hx := List.mem_range.mp hx
  exact congrArg₂ Prod.mk (ht.entry _ (left.project_mem ho) i hi x hx)
    (hu.entry _ (right.project_mem ho) x hx j hj)

/-- Vectors become matrices first, and the product loses their axes again. -/
theorem product?_matrices (c : Contraction)
    (ht : t.Matrices c.rowVector false c.outerA c.rows c.inner f)
    (hu : u.Matrices false c.columnVector c.outerB c.inner c.columns g) :
    ∃ r, product? combine t u = some r ∧
      r.Matrices c.rowVector c.columnVector c.outer c.rows c.columns (c.entries combine f g) := by
  have vectorA : c.rowVector = true → c.outerA = [] := fun vector => (c.oneRow vector).1
  have vectorB : c.columnVector = true → c.outerB = [] := fun vector => (c.oneColumn vector).1
  have flagU := hu.rank_right vectorB
  have axes : (t.rank = 0 || u.rank = 0) = false := by simp [rank, ht.shape, hu.shape]
  obtain ⟨p, product, hp⟩ :=
    matrixProduct?_matrices combine c (ht.promoteLeft vectorA) (hu.promoteRight vectorB)
  have hq := hp.dropColumn flagU (fun vector => (c.oneColumn vector).2) (k := p.rank - 1) fun _ => by
    simp [rank, hp.shape]
  generalize same : (if u.rank = 1 then p.removeAxis (p.rank - 1) else p) = q at hq
  have rankQ : q.rank = c.outer.length + if u.rank = 1 then 1 else 2 := by
    rw [rank, hq.shape]
    by_cases vector : u.rank = 1
    · simp [vector, flagU.mp vector]
    · simp [vector, Bool.eq_false_of_not_eq_true fun absent => vector (flagU.mpr absent)]
  refine ⟨_, ?_, hq.dropRow (ht.rank_left vectorA) (fun vector => (c.oneRow vector).2)
    (k := q.rank - if u.rank = 1 then 1 else 2) fun _ => by rw [rankQ, Nat.add_sub_cancel]⟩
  unfold product?
  simp only [axes, product, Option.bind_eq_bind, Option.bind_some, Bool.false_eq_true, if_false, same]

variable {combine}

omit [Inhabited γ] in
theorem of_matrixProduct? {outerA outerB : Shape} {m n k k' : Nat} {p : Tensor γ}
    (ht : t.shape = outerA ++ [m, k]) (hu : u.shape = outerB ++ [k', n])
    (product : matrixProduct? combine t u = some p) :
    k = k' ∧ ∃ outer, Shape.broadcast? outerA outerB = some outer := by
  unfold matrixProduct? at product
  rw [ht, hu, matrixShape?_append, matrixShape?_append] at product
  simp only [Option.bind_eq_bind, Option.bind_some] at product
  split at product
  next same =>
    obtain ⟨outer, fits, -⟩ := Option.bind_eq_some_iff.mp product
    exact ⟨same, outer, fits⟩
  next => cases product

/-- Only along axes that match is there a product. -/
theorem contraction_of_product? {p : Tensor γ} (product : product? combine t u = some p) :
    ∃ c : Contraction, t.shape = c.left ∧ u.shape = c.right := by
  unfold product? at product
  dsimp only at product
  split at product
  next => cases product
  next axes =>
    simp only [Bool.or_eq_true, decide_eq_true_eq, not_or, rank, List.length_eq_zero_iff] at axes
    obtain ⟨q, inner, -⟩ := Option.bind_eq_some_iff.mp product
    obtain ⟨row, outerA, m, k, ht, oneRow⟩ := exists_left axes.1
    obtain ⟨column, outerB, k', n, hu, oneColumn⟩ := exists_right axes.2
    have hl := (matrices ht (fun vector => (oneRow vector).2) nofun).promoteLeft fun vector =>
      (oneRow vector).1
    have hr := (matrices hu nofun fun vector => (oneColumn vector).2).promoteRight fun vector =>
      (oneColumn vector).1
    obtain ⟨rfl, outer, fits⟩ := of_matrixProduct? hl.shape hr.shape inner
    exact ⟨⟨outerA, outerB, outer, m, k, n, row, column, oneRow, oneColumn, fits⟩, ht, hu⟩

end Tensor

/-! ### Products of words -/

namespace Value

open Shape

variable {v w : Value} {t u : Tensor Word}

section
variable {P : Prop} [Decidable P] {i : Int} {k : Nat}

theorem Stores.insertAxis (h : v.Stores t) (place : P → locate (t.rank + 1) i = some k)
    (small : P → t.rank < maximalRank) :
    ∃ w, (if P then v.insertAxis i else pure v) = .ok w ∧
      w.Stores (if P then t.insertAxis k else t) := by
  by_cases vector : P
  · have rank : (Cells.elements ⟨.int .w64, t⟩).rank = t.rank := rfl
    refine ⟨.array ⟨.int .w64, t.insertAxis k⟩, ?_, ?_⟩
    · rw [if_pos vector]
      unfold Value.insertAxis
      simp only [h.cells, bind, Except.bind, rank, place vector, small vector, if_true]
      rfl
    · rw [if_pos vector]
      exact .array _
  · exact ⟨v, if_neg vector, by rwa [if_neg vector]⟩

theorem Stores.removeAxis (h : v.Stores t) (place : P → locate t.rank i = some k)
    (one : P → t.shape.getD k 0 = 1) :
    ∃ w, (if P then v.removeAxis i else pure v) = .ok w ∧
      w.Stores (if P then t.removeAxis k else t) := by
  by_cases vector : P
  · have rank : (Cells.elements ⟨.int .w64, t⟩).rank = t.rank := rfl
    have shape : (Cells.elements ⟨.int .w64, t⟩).shape = t.shape := rfl
    refine ⟨.array ⟨.int .w64, t.removeAxis k⟩, ?_, ?_⟩
    · rw [if_pos vector]
      unfold Value.removeAxis
      simp only [h.cells, bind, Except.bind, rank, shape, place vector, one vector, if_true]
      rfl
    · rw [if_pos vector]
      exact .array _
  · exact ⟨v, if_neg vector, by rwa [if_neg vector]⟩

end

theorem Stores.swapLast (h : v.Stores t) (axes : 2 ≤ t.rank) :
    ∃ w, v.swapLast = .ok w ∧ w.Stores t.swapLast := by
  have rank : (Cells.elements ⟨.int .w64, t⟩).rank = t.rank := rfl
  refine ⟨.array ⟨.int .w64, t.swapLast⟩, ?_, .array _⟩
  unfold Value.swapLast
  simp only [h.words.words.isTyped, h.cells, bind, Except.bind, rank, axes, if_true, Bool.not_true,
    Bool.false_eq_true, if_false]
  rfl

/-- The sum of the products of pairs. -/
def sumOfProducts (l : List (Word × Word)) : Word := (l.map fun p => p.1 * p.2).sum

theorem dot_words (vectors : Bool) : (ElementType.int .w64).dot vectors = sumOfProducts := by
  funext l
  change l.foldl (fun s p => s + p.1 * p.2) 0 = _
  rw [sumOfProducts, List.sum_eq_foldl, List.foldl_map]

theorem productOf_words (t u : Tensor Word) :
    productOf (.typed ⟨.int .w64, t⟩) (.typed ⟨.int .w64, u⟩) =
      match Tensor.product? sumOfProducts t u with
      | some r => .ok (TypedArray.collapse ⟨.int .w64, r⟩)
      | Option.none => .error .badValue := by
  have same : ∀ vectors, Tensor.product? ((ElementType.int .w64).dot vectors) t u =
      Tensor.product? sumOfProducts t u := fun vectors => by rw [dot_words]
  unfold productOf
  simp only [Operand.isValues, Bool.or_self, Bool.false_eq_true, if_false]
  split
  next r found => rw [(same _).symm.trans found]; rfl
  next found => rw [(same _).symm.trans found]

/-- Words have a product if their arrays have one. -/
theorem Stores.matmul_eq_ok_iff (hv : v.Stores t) (hw : w.Stores u) {y : Value} :
    v.matmul w = .ok y ↔
      ∃ r, Tensor.product? sumOfProducts t u = some r ∧ y = TypedArray.collapse ⟨.int .w64, r⟩ := by
  unfold matmul
  by_cases arrays : (v.isTypedArray || w.isTypedArray) = true
  · simp only [arrays, if_true, hv.toOperand, hw.toOperand, bind, Except.bind, productOf_words]
    cases Tensor.product? sumOfProducts t u with
    | none => simp
    | some r => simp [eq_comm]
  · have scalars : Tensor.product? sumOfProducts t u = Option.none := by
      cases hv with
      | array => simp [isTypedArray] at arrays
      | scalar => rfl
    rw [if_neg arrays, scalars]
    constructor
    · exact fun run => nomatch run
    · rintro ⟨r, found, -⟩
      cases found

/-- Words that are stored as matrices. -/
def Matrices (v : Value) (row column : Bool) (outer : Shape) (m n : Nat)
    (f : List Nat → Nat → Nat → Word) : Prop :=
  ∃ t, v.Stores t ∧ t.Matrices row column outer m n f

variable {row column : Bool} {outer s : Shape} {m n : Nat} {f g : List Nat → Nat → Nat → Word}

theorem IsWords.matrices (h : v.IsWords) (shape : v.shape = outer ++ (axis row m ++ axis column n))
    (oneRow : row = true → m = 1) (oneColumn : column = true → n = 1) :
    ∃ f, v.Matrices row column outer m n f := by
  obtain ⟨t, stores, same, -⟩ := h.entries.stored
  exact ⟨_, t, stores, Tensor.matrices (same.trans shape) oneRow oneColumn⟩

theorem locate_last (n : Nat) : locate (n + 1) (-1) = some n := by
  unfold locate
  rw [if_neg (by decide), if_pos (by omega)]
  exact congrArg some (by omega)

theorem locate_beforeLast (n : Nat) : locate (n + 2) (-2) = some n := by
  unfold locate
  rw [if_neg (by decide), if_pos (by omega)]
  exact congrArg some (by omega)

namespace Matrices

theorem shape_eq (h : v.Matrices row column outer m n f) :
    v.shape = outer ++ (axis row m ++ axis column n) := by
  obtain ⟨t, stores, ht⟩ := h
  exact stores.words.shape.trans ht.shape

theorem rank_left (h : v.Matrices row false outer m n f) (vector : row = true → outer = []) :
    v.shape.length = 1 ↔ row = true := by
  obtain ⟨t, stores, ht⟩ := h
  rw [stores.words.shape]
  exact ht.rank_left vector

theorem rank_right (h : v.Matrices false column outer m n f) (vector : column = true → outer = []) :
    v.shape.length = 1 ↔ column = true := by
  obtain ⟨t, stores, ht⟩ := h
  rw [stores.words.shape]
  exact ht.rank_right vector

section
variable {P : Prop} [Decidable P]

theorem addRow (h : v.Matrices row false outer m n f) (flag : P ↔ row = true) {i : Int}
    (place : P → locate (v.shape.length + 1) i = some outer.length)
    (small : P → v.shape.length < maximalRank) :
    ∃ w, (if P then v.insertAxis i else pure v) = .ok w ∧ w.Matrices false false outer m n f := by
  obtain ⟨t, stores, ht⟩ := h
  rw [stores.words.shape] at place small
  obtain ⟨w, run, inserted⟩ := stores.insertAxis place small
  exact ⟨w, run, _, inserted, ht.addRow flag fun _ => rfl⟩

theorem addColumn (h : v.Matrices row column outer m n f) (flag : P ↔ column = true)
    (small : P → v.shape.length < maximalRank) :
    ∃ w, (if P then v.insertAxis (-1) else pure v) = .ok w ∧ w.Matrices row false outer m n f := by
  obtain ⟨t, stores, ht⟩ := h
  rw [stores.words.shape] at small
  obtain ⟨w, run, inserted⟩ := stores.insertAxis (P := P) (fun _ => locate_last t.rank) small
  refine ⟨w, run, _, inserted, ht.addColumn flag fun vector => ?_⟩
  rw [Tensor.rank, ht.shape, flag.mp vector]
  simp

theorem dropRow (h : v.Matrices false false outer m n f) (flag : P ↔ row = true)
    (one : row = true → m = 1) :
    ∃ w, (if P then v.removeAxis (-2) else pure v) = .ok w ∧ w.Matrices row false outer m n f := by
  obtain ⟨t, stores, ht⟩ := h
  have rank : t.rank = outer.length + 2 := by simp [Tensor.rank, ht.shape]
  obtain ⟨w, run, removed⟩ := stores.removeAxis (P := P) (fun _ => rank ▸ locate_beforeLast outer.length)
    fun vector => by simp [ht.shape, one (flag.mp vector)]
  exact ⟨w, run, _, removed, ht.dropRow flag one fun _ => rfl⟩

theorem dropColumn (h : v.Matrices false false outer m n f) (flag : P ↔ column = true)
    (one : column = true → n = 1) :
    ∃ w, (if P then v.removeAxis (-1) else pure v) = .ok w ∧ w.Matrices false column outer m n f := by
  obtain ⟨t, stores, ht⟩ := h
  have rank : t.rank = outer.length + 1 + 1 := by simp [Tensor.rank, ht.shape]
  obtain ⟨w, run, removed⟩ := stores.removeAxis (P := P) (fun _ => rank ▸ locate_last (outer.length + 1))
    fun vector => by simp [ht.shape, one (flag.mp vector)]
  exact ⟨w, run, _, removed, ht.dropColumn flag one fun _ => by simp⟩

end

theorem swapLast (h : v.Matrices false false outer m n f) :
    ∃ w, v.swapLast = .ok w ∧ w.Matrices false false outer n m fun o i j => f o j i := by
  obtain ⟨t, stores, ht⟩ := h
  obtain ⟨w, run, swapped⟩ := stores.swapLast (by simp [Tensor.rank, ht.shape])
  exact ⟨w, run, _, swapped, ht.swapLast⟩

/-- The entries of a product are sums of products along the inner axis. -/
theorem matmul (c : Contraction) (hv : v.Matrices c.rowVector false c.outerA c.rows c.inner f)
    (hw : w.Matrices false c.columnVector c.outerB c.inner c.columns g) :
    ∃ y, v.matmul w = .ok y ∧
      y.Matrices c.rowVector c.columnVector c.outer c.rows c.columns fun o i j =>
        ∑ x ∈ Finset.range c.inner, f (c.outerA.project o) i x * g (c.outerB.project o) x j := by
  obtain ⟨t, storesV, ht⟩ := hv
  obtain ⟨u, storesW, hu⟩ := hw
  obtain ⟨r, product, hr⟩ := Tensor.product?_matrices sumOfProducts c ht hu
  refine ⟨_, (storesV.matmul_eq_ok_iff storesW).mpr ⟨r, product, rfl⟩, r, stores_collapse r, ?_⟩
  refine hr.congr fun o _ i _ j _ => ?_
  rw [Contraction.entries, sumOfProducts, List.map_map]
  rfl

/-- The sum of the products of the entries of matrices. -/
theorem inner (hv : v.Matrices row column outer m n f) (hw : w.Matrices row column outer m n g) :
    v.inner w = .ok (word (∑ o ∈ outer.box, ∑ i ∈ Finset.range m, ∑ j ∈ Finset.range n,
      f o i j * g o i j)) := by
  obtain ⟨t, storesV, ht⟩ := hv
  obtain ⟨u, storesW, hu⟩ := hw
  have same : u.shape = t.shape := hu.shape.trans ht.shape.symm
  rw [inner_words storesV.words (same ▸ storesW.words), ht.shape]
  refine congrArg (fun x => Except.ok (word x)) ?_
  refine sum_box_matrices ht.oneRow ht.oneColumn fun o ho i hi j hj => ?_
  rw [ht.entry o ho i hi j hj, hu.entry o ho i hi j hj]

/-- Outer axes that were stretched are added up again. This is the adjoint of reading them. -/
theorem unbroadcast (h : v.Matrices row column outer m n f) {like : Value}
    (shape : like.shape = s ++ (axis row m ++ axis column n)) (stretch : Stretches s outer)
    (small : v.shape.length ≤ maximalRank) :
    ∃ d, Kernel.unbroadcast v like = .ok d ∧ d.IsWords ∧ d.shape = like.shape ∧
      ∀ w g, w.Matrices row column s m n g →
        d.inner w = .ok (word (∑ o ∈ outer.box, ∑ i ∈ Finset.range m, ∑ j ∈ Finset.range n,
          f o i j * g (s.project o) i j)) := by
  have rank := h.shape_eq
  obtain ⟨t, stores, ht⟩ := h
  have stretch' := stretch.append (axis row m ++ axis column n)
  obtain ⟨d, run, hd⟩ := Kernel.unbroadcast_words (ht.shape ▸ stores.words) shape stretch' (rank ▸ small)
  refine ⟨d, run, hd.words, hd.shape.trans shape.symm, fun w g hw => ?_⟩
  obtain ⟨u, storesW, hu⟩ := hw
  rw [inner_words hd (hu.shape ▸ storesW.words), sum_push fun _ hp => stretch'.project_mem hp]
  refine congrArg (fun x => Except.ok (word x)) ?_
  refine sum_box_matrices ht.oneRow ht.oneColumn fun o ho i hi j hj => ?_
  have inside : axis row i ++ axis column j ∈ box (axis row m ++ axis column n) :=
    mem_box_append.mpr ⟨_, axis_mem_box hi, _, axis_mem_box hj, rfl⟩
  have place := length_of_mem_box ho
  rw [project_append_self inside (place ▸ stretch.length_le), ht.entry o ho i hi j hj,
    hu.entry _ (stretch.project_mem ho) i hi j hj]

end Matrices

/-- Wherever words have a product, their axes match. -/
theorem contraction_of_matmul {y : Value} (hv : v.IsWords) (hw : w.IsWords)
    (product : v.matmul w = .ok y) : ∃ c : Contraction, v.shape = c.left ∧ w.shape = c.right := by
  obtain ⟨t, storesV, sameV, -⟩ := hv.entries.stored
  obtain ⟨u, storesW, sameW, -⟩ := hw.entries.stored
  obtain ⟨r, found, -⟩ := (storesV.matmul_eq_ok_iff storesW).mp product
  rw [← sameV, ← sameW]
  exact Tensor.contraction_of_product? found

end Value

namespace Contraction

open Shape

/-- The product of a result with the transposed right operand. -/
def withRight (c : Contraction) : Contraction where
  outerA := c.outer
  outerB := c.outerB
  outer := c.outer
  rows := c.rows
  inner := c.columns
  columns := c.inner
  rowVector := false
  columnVector := false
  oneRow := nofun
  oneColumn := nofun
  fits := (stretches_of_broadcast? c.fits).2.broadcast?.2

/-- The product of the transposed left operand with a result. -/
def withLeft (c : Contraction) : Contraction where
  outerA := c.outerA
  outerB := c.outer
  outer := c.outer
  rows := c.inner
  inner := c.rows
  columns := c.columns
  rowVector := false
  columnVector := false
  oneRow := nofun
  oneColumn := nofun
  fits := (stretches_of_broadcast? c.fits).1.broadcast?.1

theorem rows_axis (c : Contraction) : (axis c.rowVector c.rows).length = 1 ∨
    (axis c.rowVector c.rows).length = 0 ∧ c.outerA.length = 0 := by
  by_cases vector : c.rowVector = true
  · simp [vector, (c.oneRow vector).1]
  · simp [vector]

theorem columns_axis (c : Contraction) : (axis c.columnVector c.columns).length = 1 ∨
    (axis c.columnVector c.columns).length = 0 ∧ c.outerB.length = 0 := by
  by_cases vector : c.columnVector = true
  · simp [vector, (c.oneColumn vector).1]
  · simp [vector]

/-- With the rows and the inner axis, or with the inner axis and the columns, the outer axes are no more
than an operand has. -/
theorem rank_le (c : Contraction) {r : Nat} (left : c.left.length ≤ r) (right : c.right.length ≤ r) :
    (c.outer ++ (axis c.rowVector c.rows ++ axis false c.inner)).length ≤ r ∧
      (c.outer ++ (axis false c.inner ++ axis c.columnVector c.columns)).length ≤ r := by
  have outer := length_of_broadcast? c.fits
  have rows := c.rows_axis
  have columns := c.columns_axis
  simp only [Contraction.left, Contraction.right, List.length_append, axis_false,
    List.length_singleton] at *
  constructor <;> omega

/-- Then the axes of vectors can be put back into the result. -/
theorem room (c : Contraction) {r : Nat}
    (small : (c.outer ++ (axis c.rowVector c.rows ++ axis false c.inner)).length ≤ r)
    (small' : (c.outer ++ (axis false c.inner ++ axis c.columnVector c.columns)).length ≤ r) (two : 2 ≤ r) :
    (c.columnVector = true → (c.outer ++ (axis c.rowVector c.rows ++ axis true c.columns)).length < r) ∧
      (c.rowVector = true → (c.outer ++ (axis true c.rows ++ axis false c.columns)).length < r) := by
  have columns := c.columns_axis
  have outer := length_of_broadcast? c.fits
  simp only [List.length_append, axis_false, axis_true, List.length_singleton, List.length_nil] at *
  constructor
  · intro _
    omega
  · intro vector
    -- the outer axes are those of the right operand, which has its inner axis besides
    simp only [(c.oneRow vector).1, List.length_nil] at outer
    omega

end Contraction

/-! ### The backward kernel -/

namespace Kernel

open Shape

variable {a b dy : Value} {f g h : List Nat → Nat → Nat → Word}

section
variable {α : Type} [CommSemiring α] (rows inner columns : Finset Nat)

/-- The adjoint of multiplying a row with a matrix. -/
theorem sum_mul_row (h p : Nat → α) (g : Nat → Nat → α) :
    ∑ j ∈ columns, h j * ∑ x ∈ inner, p x * g x j =
      ∑ x ∈ inner, (∑ j ∈ columns, h j * g x j) * p x := by
  simp only [Finset.mul_sum, Finset.sum_mul]
  rw [Finset.sum_comm]
  refine Finset.sum_congr rfl fun x _ => Finset.sum_congr rfl fun j _ => ?_
  ring

/-- The adjoint of multiplying a matrix with columns. -/
theorem sum_mul_columns (h f q : Nat → Nat → α) :
    ∑ i ∈ rows, ∑ j ∈ columns, h i j * ∑ x ∈ inner, f i x * q x j =
      ∑ x ∈ inner, ∑ j ∈ columns, (∑ i ∈ rows, f i x * h i j) * q x j := by
  rw [Finset.sum_comm, Finset.sum_comm (s := inner)]
  refine Finset.sum_congr rfl fun j _ => ?_
  simp only [Finset.mul_sum, Finset.sum_mul]
  rw [Finset.sum_comm]
  refine Finset.sum_congr rfl fun x _ => Finset.sum_congr rfl fun i _ => ?_
  ring

end

/-- The axes of vectors are put back into the derivative of a product, for which there is room. -/
theorem promote_result (c : Contraction) {P Q : Prop} [Decidable P] [Decidable Q]
    (hdy : dy.Matrices c.rowVector c.columnVector c.outer c.rows c.columns h)
    (flagA : P ↔ c.rowVector = true) (flagB : Q ↔ c.columnVector = true)
    (small : (c.outer ++ (axis c.rowVector c.rows ++ axis false c.inner)).length ≤ maximalRank)
    (small' : (c.outer ++ (axis false c.inner ++ axis c.columnVector c.columns)).length ≤ maximalRank) :
    ∃ dy₁ dy₂, (if Q then dy.insertAxis (-1) else pure dy) = .ok dy₁ ∧
      (if P then dy₁.insertAxis (-2) else pure dy₁) = .ok dy₂ ∧
      dy₂.Matrices false false c.outer c.rows c.columns h := by
  obtain ⟨roomC, roomR⟩ := c.room small small' (by decide)
  obtain ⟨dy₁, runC, hdy₁⟩ := hdy.addColumn flagB fun vector => by
    rw [hdy.shape_eq, flagB.mp vector]
    exact roomC (flagB.mp vector)
  have place : P → locate (dy₁.shape.length + 1) (-2) = some c.outer.length := fun vector => by
    rw [hdy₁.shape_eq, flagA.mp vector]
    simpa using Value.locate_beforeLast c.outer.length
  have room : P → dy₁.shape.length < maximalRank := fun vector => by
    rw [hdy₁.shape_eq, flagA.mp vector]
    exact roomR (flagA.mp vector)
  obtain ⟨dy₂, runR, hdy₂⟩ := hdy₁.addRow flagA place room
  exact ⟨dy₁, dy₂, runC, runR, hdy₂⟩

/-- The derivatives in either operand, as what they are summed with. -/
theorem matmulBackward_words (c : Contraction)
    (ha : a.Matrices c.rowVector false c.outerA c.rows c.inner f)
    (hb : b.Matrices false c.columnVector c.outerB c.inner c.columns g)
    (hdy : dy.Matrices c.rowVector c.columnVector c.outer c.rows c.columns h)
    (ranka : a.shape.length ≤ maximalRank) (rankb : b.shape.length ≤ maximalRank) :
    ∃ da db, matmulBackward [a, b, dy] [] = .ok (.tuple [da, db]) ∧
      (da.IsWords ∧ da.shape = a.shape ∧ ∀ u p, u.Matrices c.rowVector false c.outerA c.rows c.inner p →
        da.inner u = .ok (.word (∑ o ∈ c.outer.box, ∑ i ∈ Finset.range c.rows,
          ∑ x ∈ Finset.range c.inner, (∑ j ∈ Finset.range c.columns,
            h o i j * g (c.outerB.project o) x j) * p (c.outerA.project o) i x))) ∧
      (db.IsWords ∧ db.shape = b.shape ∧ ∀ v q,
        v.Matrices false c.columnVector c.outerB c.inner c.columns q →
        db.inner v = .ok (.word (∑ o ∈ c.outer.box, ∑ x ∈ Finset.range c.inner,
          ∑ j ∈ Finset.range c.columns, (∑ i ∈ Finset.range c.rows,
            f (c.outerA.project o) i x * h o i j) * q (c.outerB.project o) x j))) := by
  obtain ⟨stretchA, stretchB⟩ := stretches_of_broadcast? c.fits
  have vectorA : c.rowVector = true → c.outerA = [] := fun vector => (c.oneRow vector).1
  have vectorB : c.columnVector = true → c.outerB = [] := fun vector => (c.oneColumn vector).1
  have flagA := ha.rank_left vectorA
  have flagB := hb.rank_right vectorB
  obtain ⟨a₂, runA, ha₂⟩ := ha.addRow flagA (i := 0)
    (fun vector => by rw [vectorA (flagA.mp vector), vector]; rfl) fun vector => by rw [vector]; decide
  obtain ⟨b₂, runB, hb₂⟩ := hb.addColumn flagB fun vector => by rw [vector]; decide
  rw [ha.shape_eq] at ranka
  rw [hb.shape_eq] at rankb
  obtain ⟨small, small'⟩ := c.rank_le ranka rankb
  obtain ⟨dy₁, dy₂, runC, runR, hdy₂⟩ := promote_result c hdy flagA flagB small small'
  obtain ⟨bt, swapB, hbt⟩ := hb₂.swapLast
  obtain ⟨at', swapA, hat⟩ := ha₂.swapLast
  -- the outer axes of these products are those of the result, so that of `dy₂` nothing is stretched
  obtain ⟨pa, productA, hpa⟩ := Value.Matrices.matmul c.withRight hdy₂ hbt
  obtain ⟨pb, productB, hpb⟩ := Value.Matrices.matmul c.withLeft hat hdy₂
  obtain ⟨qa, dropA, hqa⟩ := hpa.dropRow flagA fun vector => (c.oneRow vector).2
  obtain ⟨qb, dropB, hqb⟩ := hpb.dropColumn flagB fun vector => (c.oneColumn vector).2
  obtain ⟨da, sumA, wordsA, shapeA, innerA⟩ :=
    hqa.unbroadcast ha.shape_eq stretchA (hqa.shape_eq ▸ small)
  obtain ⟨db, sumB, wordsB, shapeB, innerB⟩ :=
    hqb.unbroadcast hb.shape_eq stretchB (hqb.shape_eq ▸ small')
  refine ⟨da, db, (ternaryKernel_eq ..).trans ?_, ⟨wordsA, shapeA, fun u p hu => ?_⟩,
    wordsB, shapeB, fun v q hv => ?_⟩
  · refine bindIf_eq_of_ok runA (bindIf_eq_of_ok runB (bindIf_eq_of_ok runC (bindIf_eq_of_ok runR ?_)))
    refine bind_eq_of_ok swapB (bind_eq_of_ok productA ?_)
    refine bind_eq_of_ok swapA (bind_eq_of_ok productB ?_)
    refine bindIf_eq_of_ok dropA (bindIf_eq_of_ok dropB ?_)
    exact bind_eq_of_ok sumA (bind_eq_of_ok sumB rfl)
  · refine (innerA u p hu).trans ?_
    refine congrArg (fun x => Except.ok (Value.word x)) (Finset.sum_congr rfl fun o ho => ?_)
    have here : c.withRight.outerA.project o = o := project_self ho
    simp only [here]
    rfl
  · refine (innerB v q hv).trans ?_
    refine congrArg (fun x => Except.ok (Value.word x)) (Finset.sum_congr rfl fun o ho => ?_)
    have here : c.withLeft.outerB.project o = o := project_self ho
    simp only [here]
    rfl

/-- For arrays of words that have a product, of whatever axes, the backward kernel returns derivatives in
the shapes of the operands. They are the adjoints of the product in its left and in its right operand. No
array has more than `Shape.maximalRank` axes. -/
theorem matmulBackward_adjoint {y : Value} (ha : a.IsWords) (hb : b.IsWords)
    (ranka : a.shape.length ≤ maximalRank) (rankb : b.shape.length ≤ maximalRank)
    (product : a.matmul b = .ok y) (hdy : dy.IsWords) (shape : dy.shape = y.shape) :
    ∃ da db, matmulBackward [a, b, dy] [] = .ok (.tuple [da, db]) ∧
      da.IsWords ∧ da.shape = a.shape ∧ db.IsWords ∧ db.shape = b.shape ∧
      (∀ u : Value, u.IsWords → u.shape = a.shape → ∃ z x, u.matmul b = .ok z ∧ z.shape = dy.shape ∧
        dy.inner z = .ok (.word x) ∧ da.inner u = .ok (.word x)) ∧
      ∀ v : Value, v.IsWords → v.shape = b.shape → ∃ z x, a.matmul v = .ok z ∧ z.shape = dy.shape ∧
        dy.inner z = .ok (.word x) ∧ db.inner v = .ok (.word x) := by
  obtain ⟨c, left, right⟩ := Value.contraction_of_matmul ha hb product
  have oneRow : c.rowVector = true → c.rows = 1 := fun vector => (c.oneRow vector).2
  have oneColumn : c.columnVector = true → c.columns = 1 := fun vector => (c.oneColumn vector).2
  obtain ⟨f, hf⟩ := ha.matrices left oneRow nofun
  obtain ⟨g, hg⟩ := hb.matrices right nofun oneColumn
  obtain ⟨y', same, hy⟩ := Value.Matrices.matmul c hf hg
  obtain rfl : y = y' := Except.ok.inj (product.symm.trans same)
  obtain ⟨h, hh⟩ := hdy.matrices (shape.trans hy.shape_eq) oneRow oneColumn
  obtain ⟨da, db, run, ⟨wordsA, shapeA, innerA⟩, wordsB, shapeB, innerB⟩ :=
    matmulBackward_words c hf hg hh ranka rankb
  refine ⟨da, db, run, wordsA, shapeA, wordsB, shapeB, fun u hu us => ?_, fun v hv vs => ?_⟩
  · obtain ⟨p, hp⟩ := hu.matrices (us.trans left) oneRow nofun
    obtain ⟨z, changed, hz⟩ := Value.Matrices.matmul c hp hg
    refine ⟨z, _, changed, hz.shape_eq.trans hh.shape_eq.symm, hh.inner hz, (innerA u p hp).trans ?_⟩
    simp only [sum_mul_row]
  · obtain ⟨q, hq⟩ := hv.matrices (vs.trans right) nofun oneColumn
    obtain ⟨z, changed, hz⟩ := Value.Matrices.matmul c hf hq
    refine ⟨z, _, changed, hz.shape_eq.trans hh.shape_eq.symm, hh.inner hz, (innerB v q hq).trans ?_⟩
    simp only [sum_mul_columns]

/-- A vector times an array of three matrices. -/
theorem matmulBackward_adjoint_vector :
    ∃ da db z x, matmulBackward [.counting [2], .counting [3, 2, 4], .counting [3, 4]] [] =
        .ok (.tuple [da, db]) ∧ da.shape = [2] ∧ db.shape = [3, 2, 4] ∧
      Value.matmul (.counting [2]) (.counting [3, 2, 4]) = .ok z ∧ z.shape = [3, 4] ∧
      Value.inner (.counting [3, 4]) z = .ok (.word x) ∧ da.inner (.counting [2]) = .ok (.word x) ∧
      db.inner (.counting [3, 2, 4]) = .ok (.word x) := by
  obtain ⟨y, product, shape⟩ : ∃ y, Value.matmul (.counting [2]) (.counting [3, 2, 4]) = .ok y ∧
      y.shape = [3, 4] := ⟨_, rfl, rfl⟩
  obtain ⟨da, db, run, -, shapeA, -, shapeB, left, right⟩ :=
    matmulBackward_adjoint (Value.counting_isWords _) (Value.counting_isWords _) (by decide) (by decide)
      product (Value.counting_isWords [3, 4]) shape.symm
  obtain ⟨z, x, changed, shapeZ, total, first⟩ := left (.counting [2]) (Value.counting_isWords _) rfl
  obtain ⟨z', x', changed', -, total', second⟩ :=
    right (.counting [3, 2, 4]) (Value.counting_isWords _) rfl
  obtain rfl : z = z' := Except.ok.inj (changed.symm.trans changed')
  obtain rfl : x = x' := by
    have same : Value.word x = Value.word x' := Except.ok.inj (total.symm.trans total')
    cases same
    rfl
  exact ⟨da, db, z, x, run, shapeA, shapeB, changed, shapeZ, total, first, second⟩

end Kernel

end Backprop
