import Mathlib
import Backprop.Proofs.Extents
import Backprop.Proofs.Indexing
import Backprop.Proofs.MatrixProduct
/-!
# Shapes of the derivatives of linear operations

* `Value.Tabled` says that elements of any type are laid out as matrices.
* `Kernel.matmulBackward_returns`: the derivatives of a matrix product are in the shapes of its operands.
* `Kernel.transposeBackward_returns` and `Kernel.reshapeBackward_returns` want a derivative that is made of
  elements, `Kernel.getitemBackward_returns` wants one that can be stretched to what the index selects.
-/

namespace Backprop

namespace Value

open Shape

variable {v w d : Value} {a : TypedArray} {t u : ElementType} {D : Shape}

/-! ### Matrices of any type -/

section
variable {e : Tensor t.Carrier} {P : Prop} [Decidable P] {i : Int} {k : Nat}

theorem Stands.insertAt (h : v.Stands ⟨t, e⟩) (place : P → locate (e.rank + 1) i = some k)
    (small : P → e.rank < maximalRank) :
    ∃ w, (if P then v.insertAxis i else pure v) = .ok w ∧
      w.Stands ⟨t, if P then e.insertAxis k else e⟩ := by
  by_cases vector : P
  · have rank : (Cells.elements ⟨t, e⟩).rank = e.rank := rfl
    refine ⟨.array ⟨t, e.insertAxis k⟩, ?_, ?_⟩
    · rw [if_pos vector]
      unfold Value.insertAxis
      simp only [h.cells, bind, Except.bind, rank, place vector, small vector, if_true]
      rfl
    · rw [if_pos vector]
      exact .carries (.array _)
  · exact ⟨v, if_neg vector, by rwa [if_neg vector]⟩

theorem Stands.removeAt (h : v.Stands ⟨t, e⟩) (place : P → locate e.rank i = some k)
    (one : P → e.shape.getD k 0 = 1) :
    ∃ w, (if P then v.removeAxis i else pure v) = .ok w ∧
      w.Stands ⟨t, if P then e.removeAxis k else e⟩ := by
  by_cases vector : P
  · have rank : (Cells.elements ⟨t, e⟩).rank = e.rank := rfl
    have shape : (Cells.elements ⟨t, e⟩).shape = e.shape := rfl
    refine ⟨.array ⟨t, e.removeAxis k⟩, ?_, ?_⟩
    · rw [if_pos vector]
      unfold Value.removeAxis
      simp only [h.cells, bind, Except.bind, rank, shape, place vector, one vector, if_true]
      rfl
    · rw [if_pos vector]
      exact .carries (.array _)
  · exact ⟨v, if_neg vector, by rwa [if_neg vector]⟩

theorem Stands.swapLast (h : v.Stands ⟨t, e⟩) (axes : 2 ≤ e.rank) :
    ∃ w, v.swapLast = .ok w ∧ w.Stands ⟨t, e.swapLast⟩ := by
  have rank : (Cells.elements ⟨t, e⟩).rank = e.rank := rfl
  have some : e.shape ≠ [] := by
    intro flat
    simp [Tensor.rank, flat] at axes
  obtain rfl := h.array some
  refine ⟨.array ⟨t, e.swapLast⟩, ?_, .carries (.array _)⟩
  unfold Value.swapLast
  simp only [isTyped, h.cells, bind, Except.bind, rank, axes, if_true, Bool.not_true, Bool.false_eq_true,
    if_false]
  rfl

end

/-- Elements of a type that are laid out as matrices. -/
def Tabled (v : Value) (t : ElementType) (row column : Bool) (outer : Shape) (m n : Nat) : Prop :=
  ∃ (e : Tensor t.Carrier) (f : List Nat → Nat → Nat → t.Carrier),
    v.Stands ⟨t, e⟩ ∧ e.Matrices row column outer m n f

theorem Stands.tabled {row column : Bool} {outer : Shape} {m n : Nat} (h : v.Stands a)
    (shape : a.shape = outer ++ (axis row m ++ axis column n)) (oneRow : row = true → m = 1)
    (oneColumn : column = true → n = 1) : v.Tabled a.elementType row column outer m n :=
  ⟨a.entries, _, h, Tensor.matrices shape oneRow oneColumn⟩

namespace Tabled

variable {row column : Bool} {outer s : Shape} {m n : Nat}

theorem shape_eq (h : v.Tabled t row column outer m n) :
    v.shape = outer ++ (axis row m ++ axis column n) := by
  obtain ⟨e, f, stands, he⟩ := h
  exact stands.shape.trans he.shape

/-- Matrices in the shape of an operand. -/
theorem varies (h : v.Tabled t row column outer m n) (inexact : t.IsInexact)
    (axes : outer ++ (axis row m ++ axis column n) ≠ []) :
    v.Varies (outer ++ (axis row m ++ axis column n)) := by
  obtain ⟨e, f, stands, he⟩ := h
  obtain rfl := stands.array (he.shape.trans_ne axes)
  exact .elements (.array _) inexact he.shape

theorem rank_left (h : v.Tabled t row false outer m n) (vector : row = true → outer = []) :
    v.shape.length = 1 ↔ row = true := by
  obtain ⟨e, f, stands, he⟩ := h
  rw [stands.shape]
  exact he.rank_left vector

theorem rank_right (h : v.Tabled t false column outer m n) (vector : column = true → outer = []) :
    v.shape.length = 1 ↔ column = true := by
  obtain ⟨e, f, stands, he⟩ := h
  rw [stands.shape]
  exact he.rank_right vector

section
variable {P : Prop} [Decidable P]

theorem addRow (h : v.Tabled t row false outer m n) (flag : P ↔ row = true) {i : Int}
    (place : P → locate (v.shape.length + 1) i = some outer.length)
    (small : P → v.shape.length < maximalRank) :
    ∃ w, (if P then v.insertAxis i else pure v) = .ok w ∧ w.Tabled t false false outer m n := by
  obtain ⟨e, f, stands, he⟩ := h
  rw [stands.shape] at place small
  obtain ⟨w, run, inserted⟩ := stands.insertAt place small
  exact ⟨w, run, _, f, inserted, he.addRow flag fun _ => rfl⟩

theorem addColumn (h : v.Tabled t row column outer m n) (flag : P ↔ column = true)
    (small : P → v.shape.length < maximalRank) :
    ∃ w, (if P then v.insertAxis (-1) else pure v) = .ok w ∧ w.Tabled t row false outer m n := by
  obtain ⟨e, f, stands, he⟩ := h
  rw [stands.shape] at small
  obtain ⟨w, run, inserted⟩ := stands.insertAt (P := P) (fun _ => locate_last e.rank) small
  refine ⟨w, run, _, f, inserted, he.addColumn flag fun vector => ?_⟩
  rw [Tensor.rank, he.shape, flag.mp vector]
  simp

theorem dropRow (h : v.Tabled t false false outer m n) (flag : P ↔ row = true) (one : row = true → m = 1) :
    ∃ w, (if P then v.removeAxis (-2) else pure v) = .ok w ∧ w.Tabled t row false outer m n := by
  obtain ⟨e, f, stands, he⟩ := h
  have rank : e.rank = outer.length + 2 := by simp [Tensor.rank, he.shape]
  obtain ⟨w, run, removed⟩ := stands.removeAt (P := P) (fun _ => rank ▸ locate_beforeLast outer.length)
    fun vector => by simp [he.shape, one (flag.mp vector)]
  exact ⟨w, run, _, f, removed, he.dropRow flag one fun _ => rfl⟩

theorem dropColumn (h : v.Tabled t false false outer m n) (flag : P ↔ column = true)
    (one : column = true → n = 1) :
    ∃ w, (if P then v.removeAxis (-1) else pure v) = .ok w ∧ w.Tabled t false column outer m n := by
  obtain ⟨e, f, stands, he⟩ := h
  have rank : e.rank = outer.length + 1 + 1 := by simp [Tensor.rank, he.shape]
  obtain ⟨w, run, removed⟩ := stands.removeAt (P := P) (fun _ => rank ▸ locate_last (outer.length + 1))
    fun vector => by simp [he.shape, one (flag.mp vector)]
  exact ⟨w, run, _, f, removed, he.dropColumn flag one fun _ => by simp⟩

end

theorem swapLast (h : v.Tabled t false false outer m n) :
    ∃ w, v.swapLast = .ok w ∧ w.Tabled t false false outer n m := by
  obtain ⟨e, f, stands, he⟩ := h
  obtain ⟨w, run, swapped⟩ := stands.swapLast (by simp [Tensor.rank, he.shape])
  exact ⟨w, run, _, _, swapped, he.swapLast⟩

end Tabled

/-- Products of arrays are taken in the common type of their elements. -/
theorem productOf_typed (a b : TypedArray) : ∃ combine, productOf (.typed a) (.typed b) =
    match Tensor.product? combine (a.convertTo (a.elementType.join b.elementType))
      (b.convertTo (a.elementType.join b.elementType)) with
    | some r => .ok (TypedArray.collapse ⟨a.elementType.join b.elementType, r⟩)
    | Option.none => .error .badValue := by
  refine ⟨(a.elementType.join b.elementType).dot (decide (a.shape.reverse.getD 1 1 = 1) &&
    (decide (b.shape.length = 1) || decide (b.shape.getLastD 1 = 1))), ?_⟩
  unfold productOf
  simp only [Operand.isValues, Bool.or_self, Bool.false_eq_true, if_false]
  split
  next found => simp only [found]
  next found => simp only [found]

/-- The product of matrices of any types. -/
theorem Tabled.matmul (c : Contraction) (hv : v.Tabled t c.rowVector false c.outerA c.rows c.inner)
    (hw : w.Tabled u false c.columnVector c.outerB c.inner c.columns) :
    ∃ y, v.matmul w = .ok y ∧
      y.Tabled (t.join u) c.rowVector c.columnVector c.outer c.rows c.columns := by
  obtain ⟨p, f, standsV, hp⟩ := hv
  obtain ⟨q, g, standsW, hq⟩ := hw
  obtain rfl := standsV.array (by simp [TypedArray.shape, hp.shape])
  obtain rfl := standsW.array (by simp [TypedArray.shape, hq.shape])
  obtain ⟨combine, run⟩ := productOf_typed ⟨t, p⟩ ⟨u, q⟩
  have left := (TypedArray.shape_convertTo (u := t.join u) ⟨t, p⟩).trans hp.shape
  have right := (TypedArray.shape_convertTo (u := t.join u) ⟨u, q⟩).trans hq.shape
  have never {P : Prop} (flat : false = true) : P := absurd flat Bool.false_ne_true
  obtain ⟨r, product, hr⟩ := Tensor.product?_matrices combine c (Tensor.matrices left hp.oneRow never)
    (Tensor.matrices right never hq.oneColumn)
  refine ⟨TypedArray.collapse ⟨t.join u, r⟩, ?_, r, _, .carries (carries_collapse _), hr⟩
  refine Eq.trans ?_ (run.trans ?_)
  · rfl
  · simp only [product]

/-- Only along axes that match is there a product. -/
theorem contraction_of_matmul_carries {y : Value} {b : TypedArray} (hv : v.Carries a) (hw : w.Carries b)
    (product : v.matmul w = .ok y) : ∃ c : Contraction, a.shape = c.left ∧ b.shape = c.right := by
  unfold Value.matmul at product
  split at product
  · rw [(Meets.typed hv).toOperand, (Meets.typed hw).toOperand] at product
    obtain ⟨combine, run⟩ := productOf_typed a b
    have product' := run.symm.trans product
    split at product'
    next r found =>
      have match' := Tensor.contraction_of_product? found
      rwa [TypedArray.shape_convertTo, TypedArray.shape_convertTo] at match'
    next => cases product'
  · cases product

end Value

/-- In every element type, arrays of this shape can be stored. -/
def Shape.Storable (s : Shape) : Prop := ∀ a : TypedArray, a.shape = s → a.Storable

namespace Shape.Storable

variable {s : Shape} (h : s.Storable)
include h

theorem rank : s.length ≤ maximalRank := (h ⟨.bool, .ofFn s fun _ => false⟩ rfl).rank

theorem prod_lt : (s.filter (· != 0)).prod < 2 ^ 63 := (h ⟨.bool, .ofFn s fun _ => false⟩ rfl).prod_lt

theorem axis_lt {n : Nat} (mem : n ∈ s) : n < 2 ^ 63 := by
  by_cases zero : n = 0
  · simp [zero]
  · have part : n ∈ s.filter (· != 0) := List.mem_filter.mpr ⟨mem, by simpa using zero⟩
    exact (Nat.le_of_dvd (one_le_prod_filter s) (List.dvd_prod part)).trans_lt h.prod_lt

end Shape.Storable

namespace Kernel

open Shape Value

variable {a b dy i r : Value} {A B : TypedArray} {D : Shape}

/-! ### Matrix products -/

/-- The axes of vectors are put back into the derivative of a product, for which there is room. -/
theorem promote_tabled (c : Contraction) {t : ElementType} {P Q : Prop} [Decidable P] [Decidable Q]
    (hdy : dy.Tabled t c.rowVector c.columnVector c.outer c.rows c.columns)
    (flagA : P ↔ c.rowVector = true) (flagB : Q ↔ c.columnVector = true)
    (small : (c.outer ++ (axis c.rowVector c.rows ++ axis false c.inner)).length ≤ maximalRank)
    (small' : (c.outer ++ (axis false c.inner ++ axis c.columnVector c.columns)).length ≤ maximalRank) :
    ∃ dy₁ dy₂, (if Q then dy.insertAxis (-1) else pure dy) = .ok dy₁ ∧
      (if P then dy₁.insertAxis (-2) else pure dy₁) = .ok dy₂ ∧
      dy₂.Tabled t false false c.outer c.rows c.columns := by
  obtain ⟨roomC, roomR⟩ := c.room small small' (by decide)
  obtain ⟨dy₁, runC, hdy₁⟩ := hdy.addColumn flagB fun vector => by
    rw [hdy.shape_eq, flagB.mp vector]
    exact roomC (flagB.mp vector)
  have place : P → locate (dy₁.shape.length + 1) (-2) = some c.outer.length := fun vector => by
    rw [hdy₁.shape_eq, flagA.mp vector]
    simpa using Value.locate_beforeLast c.outer.length
  have room : P → dy₁.shape.length < maximalRank := fun vector => by
    rw [hdy₁.shape_eq, flagA.mp vector]
    exact roomR (flagA.mp vector)
  obtain ⟨dy₂, runR, hdy₂⟩ := hdy₁.addRow flagA place room
  exact ⟨dy₁, dy₂, runC, runR, hdy₂⟩

theorem matmulBackward_returns (ha : a.Carries A) (hb : b.Carries B)
    (ranka : A.shape.length ≤ maximalRank) (rankb : B.shape.length ≤ maximalRank)
    (run : matmulForward [a, b] [] = .ok r) (hd : dy.Varies r.shape) : Returns matmulBackward [a, b] [] dy := by
  obtain ⟨c, left, right⟩ := contraction_of_matmul_carries ha hb run
  obtain ⟨stretchA, stretchB⟩ := stretches_of_broadcast? c.fits
  have oneRow : c.rowVector = true → c.rows = 1 := fun vector => (c.oneRow vector).2
  have oneColumn : c.columnVector = true → c.columns = 1 := fun vector => (c.oneColumn vector).2
  have never {P : Prop} (flat : false = true) : P := absurd flat Bool.false_ne_true
  have ta := (Stands.carries ha).tabled left oneRow never
  have tb := (Stands.carries hb).tabled right never oneColumn
  obtain ⟨y, same, hy⟩ := ta.matmul c tb
  cases same.symm.trans run
  obtain ⟨d, stands, inexact, shape⟩ := hd.stands
  have td := stands.tabled (shape.trans hy.shape_eq) oneRow oneColumn
  have flagA := ta.rank_left fun vector => (c.oneRow vector).1
  have flagB := tb.rank_right fun vector => (c.oneColumn vector).1
  obtain ⟨a₂, runA, ha₂⟩ := ta.addRow flagA (i := 0)
    (fun vector => by rw [(c.oneRow (flagA.mp vector)).1, vector]; rfl) fun vector => by rw [vector]; decide
  obtain ⟨b₂, runB, hb₂⟩ := tb.addColumn flagB fun vector => by rw [vector]; decide
  rw [left] at ranka
  rw [right] at rankb
  obtain ⟨small, small'⟩ := c.rank_le ranka rankb
  obtain ⟨dy₁, dy₂, runC, runR, hdy₂⟩ := promote_tabled c td flagA flagB small small'
  obtain ⟨bt, swapB, hbt⟩ := hb₂.swapLast
  obtain ⟨at', swapA, hat⟩ := ha₂.swapLast
  obtain ⟨pa, productA, hpa⟩ := Tabled.matmul c.withRight hdy₂ hbt
  obtain ⟨pb, productB, hpb⟩ := Tabled.matmul c.withLeft hat hdy₂
  obtain ⟨qa, dropA, hqa⟩ := hpa.dropRow flagA fun vector => (c.oneRow vector).2
  obtain ⟨qb, dropB, hqb⟩ := hpb.dropColumn flagB fun vector => (c.oneColumn vector).2
  -- outer axes that were stretched are added up again
  have toA : Stretches A.shape (c.outer ++ (axis c.rowVector c.rows ++ axis false c.inner)) :=
    left ▸ stretchA.append _
  have toB : Stretches B.shape (c.outer ++ (axis false c.inner ++ axis c.columnVector c.columns)) :=
    right ▸ stretchB.append _
  obtain ⟨da, sumA, va⟩ := unbroadcast_varies (hqa.varies (inexact.join _).1 (by simp))
    (.elements ha) (.inl toA) small
  obtain ⟨db, sumB, vb⟩ := unbroadcast_varies (hqb.varies (inexact.join _).2 (by simp))
    (.elements hb) (.inl toB) small'
  refine ⟨[da, db], (ternaryKernel_eq ..).trans ?_,
    .cons (va.answers (.elements ha)) (.cons (vb.answers (.elements hb)) .nil)⟩
  refine bindIf_eq_of_ok runA (bindIf_eq_of_ok runB (bindIf_eq_of_ok runC (bindIf_eq_of_ok runR ?_)))
  refine bind_eq_of_ok swapB (bind_eq_of_ok productA ?_)
  refine bind_eq_of_ok swapA (bind_eq_of_ok productB ?_)
  refine bindIf_eq_of_ok dropA (bindIf_eq_of_ok dropB ?_)
  exact bind_eq_of_ok sumA (bind_eq_of_ok sumB rfl)

/-! ### Rearranged arrays -/

theorem transposeBackward_returns (ha : a.Carries A) (run : transposeForward [a] [] = .ok r)
    (axes : r.shape ≠ []) (hd : dy.Varies r.shape) : Returns transposeBackward [a] [] dy := by
  obtain ⟨d, carries, inexact, shape⟩ := hd.carries axes
  obtain rfl := (Stands.carries carries).array (shape.trans_ne axes)
  have same : r.shape = A.shape.reverse := by
    cases ha with
    | array A =>
      cases run
      rfl
    | scalar s =>
      cases run
      rfl
  refine ⟨[.array ⟨d.elementType, d.entries.transpose⟩], rfl, .cons (.inr ?_) .nil⟩
  refine .elements (.array _) inexact ?_
  change d.shape.reverse = a.shape
  rw [shape, same, ha.shape, List.reverse_reverse]

/-- The lengths of axes whose entries can be counted, one after the other. -/
theorem count_axes {s : Shape} : ∀ {p : Nat}, p * (s.filter (· != 0)).prod < 2 ^ 63 →
    (s.map Int.ofNat).foldlM (m := Except Error) (fun (p : Nat) n =>
      if fitsWord (p * n) then pure (p * n.toNat) else throw Error.badValue) p = .ok (p * s.size) := by
  induction s with
  | nil => exact fun _ => congrArg Except.ok (Nat.mul_one _).symm
  | cons n s ih =>
    intro p small
    have next : p * n < 2 ^ 63 ∧ p * n * (s.filter (· != 0)).prod < 2 ^ 63 := by
      by_cases zero : n = 0
      · simp [zero]
      · rw [List.filter_cons_of_pos (by simpa using zero), List.prod_cons, ← Nat.mul_assoc] at small
        exact ⟨(Nat.le_mul_of_pos_right _ (one_le_prod_filter s)).trans_lt small, small⟩
    have word : fitsWord (p * n) = true := fitsWord_iff.mpr (by omega)
    rw [List.map_cons, List.foldlM_cons, size, ← Nat.mul_assoc, ← ih next.2]
    exact bind_eq_of_ok (if_pos word) rfl

/-- The axes of a shape that can be stored are read from a tuple as they are. -/
theorem shapeFor_axisTuple {s : Shape} (storable : s.Storable) :
    ∃ ls, (axisTuple s).lengths = .ok ls ∧ shapeFor s.size ls = .ok s := by
  have listed : axisTuple s = .tuple ((s.map Int.ofNat).map Value.int) := by
    rw [axisTuple, List.map_map]
    rfl
  have kept : (s.map Int.ofNat).filter (0 ≤ ·) = s.map Int.ofNat := by
    refine List.filter_eq_self.mpr fun n hn => ?_
    obtain ⟨m, -, rfl⟩ := List.mem_map.mp hn
    simp
  refine ⟨s.map Int.ofNat, ?_, ?_⟩
  · have small : ¬ Shape.maximalRank < ((s.map Int.ofNat).map Value.int).length := by
      simpa using storable.rank
    rw [listed]
    unfold lengths
    simp only [if_neg small]
    refine mapM_map_of_eq_ok fun n hn => ?_
    obtain ⟨m, hm, rfl⟩ := List.mem_map.mp hn
    have few := storable.axis_lt hm
    have word : fitsWord (Int.ofNat m) = true := fitsWord_iff.mpr (by simp; omega)
    have length : axisLength (.int (Int.ofNat m)) =
      if fitsWord (Int.ofNat m) = true then .ok (Int.ofNat m) else .error .badValue := rfl
    rw [length, if_pos word]
  · unfold shapeFor
    simp only [kept, Nat.sub_self]
    refine bind_eq_of_ok (count_axes (by rw [Nat.one_mul]; exact storable.prod_lt)) ?_
    rw [Nat.one_mul, if_pos rfl, List.map_map]
    exact congrArg Except.ok (List.map_id s)

theorem reshape_varies {s : Shape} {d : TypedArray} (storable : s.Storable)
    (inexact : d.elementType.IsInexact) (sized : d.shape.size = s.size) :
    ∃ w, Value.reshape (.array d) (axisTuple s) = .ok w ∧ w.Varies s := by
  obtain ⟨ls, lengths, asked⟩ := shapeFor_axisTuple storable
  have entries : d.entries.entries.size = s.size := d.entries.size_eq.trans sized
  have room := (storable ⟨d.elementType, ⟨s, d.entries.entries, entries⟩⟩ rfl).addressable
  have moved : (d.entries.reshape? s).getD d.entries = ⟨s, d.entries.entries, entries⟩ := by
    rw [Tensor.reshape?, dif_pos entries]
    rfl
  refine ⟨.array ⟨d.elementType, ⟨s, d.entries.entries, entries⟩⟩, ?_, .elements (.array _) inexact rfl⟩
  rw [← sized] at asked
  refine bind_eq_of_ok rfl (bind_eq_of_ok lengths (bind_eq_of_ok asked ?_))
  have room' : isAddressable (.elements d) s = true := room
  simp only [room', Bool.not_true, Bool.false_eq_true, if_false, isScalar, Cells.rearrange, moved]
  rfl

/-- Entries are only moved. -/
theorem size_of_reshape (ha : a.Carries A) (run : a.reshape i = .ok r) : r.shape.size = A.shape.size := by
  have moved : ∀ {α : Type} (s : Shape) (t : Tensor α), ((t.reshape? s).getD t).shape.size = t.shape.size := by
    intro α s t
    unfold Tensor.reshape?
    split
    next sized => exact sized.symm.trans t.size_eq
    next => rfl
  unfold Value.reshape at run
  rw [ha.isTyped, ha.cells] at run
  by_cases still : i.isNone = true
  · rw [if_pos still] at run
    cases run
    rw [ha.shape]
  · rw [if_neg still] at run
    obtain ⟨c, cells, run⟩ := ok_of_bind run
    cases cells
    obtain ⟨ls, -, run⟩ := ok_of_bind run
    obtain ⟨s, -, run⟩ := ok_of_bind run
    have size := moved s A.entries
    by_cases room : isAddressable (.elements A) s = true
    · simp only [room, Bool.not_true, Bool.false_eq_true, if_false] at run
      cases run
      split
      · have shape := (carries_collapse ⟨A.elementType, (A.entries.reshape? s).getD A.entries⟩).shape
        exact (congrArg Shape.size shape).trans size
      · exact size
    · simp only [room, Bool.not_false, if_true] at run
      cases run

theorem reshapeBackward_returns (ha : a.Carries A) (storable : A.shape.Storable)
    (run : reshapeForward [a, i] [] = .ok r) (axes : r.shape ≠ []) (hd : dy.Varies r.shape) :
    Returns reshapeBackward [a, i] [] dy := by
  obtain ⟨d, carries, inexact, shape⟩ := hd.carries axes
  obtain rfl := (Stands.carries carries).array (shape.trans_ne axes)
  obtain ⟨w, moved, hw⟩ := reshape_varies storable inexact (shape ▸ size_of_reshape ha run)
  refine ⟨[w, .none], (ternaryKernel_eq ..).trans (bind_eq_of_ok ?_ rfl),
    .cons (.inr (ha.shape ▸ hw)) (.cons (.inl rfl) .nil)⟩
  rw [ha.shape]
  exact moved

theorem getitemBackward_returns (ha : a.Carries A) (run : getitemForward [a, i] [] = .ok r)
    (hd : dy.Varies D) (within : Stretches D r.shape) : Returns getitemBackward [a, i] [] dy := by
  obtain ⟨d, stands, -, rfl⟩ := hd.stands
  have read : selectFrom (.elements A) i = .ok r := by
    cases ha with
    | array => exact run
    | scalar s =>
      have run' : (selectFrom (.elements s.toArray) i).mapError (fun _ => Error.outOfRange) = .ok r := run
      cases selected : selectFrom (.elements s.toArray) i with
      | error e =>
        rw [selected] at run'
        cases run'
      | ok w =>
        rw [selected] at run'
        exact run'
  obtain ⟨sel, found, carries⟩ := carries_of_selectFrom read
  have zeros := (Stands.carries ha).zerosLike
  have added := scatterAdd_eq (z := ⟨_, .ofFn A.shape fun _ => (A.elementType.join .float64).zero⟩)
    stands found (carries.shape.trans shape_selected ▸ within)
  refine ⟨[_, .none], (ternaryKernel_eq ..).trans (bind_eq_of_ok zeros (bind_eq_of_ok added rfl)),
    .cons (.inr ?_) (.cons (.inl rfl) .nil)⟩
  exact .elements (.array _) A.elementType.isDouble_join.isInexact ha.shape.symm

end Kernel

end Backprop
