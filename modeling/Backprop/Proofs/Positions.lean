import Mathlib
import Backprop.Tensor.Product
/-!
# Positions of arrays and sums over them

* `Shape.box` is the finite set of positions of a shape; sums over it split along its axes.
* `Tensor.get_ofFn`: an array that is made from a function has its values.
* `Shape.Stretches`: one shape broadcasts to another. `Shape.broadcast?_eq_some` and
  `Stretches.broadcast?` relate it to the common shape of two operands, `Stretches.project_mem` to the
  positions that are read.
* `Shape.sum_push`: adding up entries at the positions that a map sends them to is the adjoint of reading
  along the map.
-/

namespace Backprop

namespace Shape

variable {s t : Shape} {i j : List Nat}

/-! ### The positions of a shape -/

/-- Positions have a coordinate below each length. -/
theorem mem_positions : i ∈ s.positions ↔ List.Forall₂ (· < ·) i s := by
  induction s generalizing i with
  | nil => simp [positions]
  | cons n s ih =>
    simp only [positions_cons, List.mem_flatMap, List.mem_range, List.mem_map, ih]
    constructor
    · rintro ⟨k, hk, i, hi, rfl⟩
      exact .cons hk hi
    · intro h
      obtain ⟨k, i', hk, hi, rfl⟩ := List.forall₂_cons_right_iff.mp h
      exact ⟨k, hk, i', hi, rfl⟩

theorem nodup_positions (s : Shape) : s.positions.Nodup := by
  induction s with
  | nil => simp [positions]
  | cons n s ih =>
    rw [positions_cons, List.nodup_flatMap]
    constructor
    · intro k _
      exact ih.map fun _ _ same => (List.cons.inj same).2
    · refine List.nodup_range.imp fun {k k'} ne => ?_
      intro i hi hi'
      obtain ⟨p, -, rfl⟩ := List.mem_map.mp hi
      obtain ⟨q, -, same⟩ := List.mem_map.mp hi'
      exact ne (List.cons.inj same).1.symm

/-- The positions of a shape. -/
def box (s : Shape) : Finset (List Nat) := ⟨s.positions, nodup_positions s⟩

@[simp] theorem mem_box : i ∈ s.box ↔ List.Forall₂ (· < ·) i s := mem_positions

theorem length_of_mem_box (h : i ∈ s.box) : i.length = s.length := (mem_box.mp h).length_eq

theorem mem_box_append : i ∈ box (s ++ t) ↔ ∃ p ∈ s.box, ∃ q ∈ t.box, i = p ++ q := by
  simp only [mem_box]
  constructor
  · intro h
    refine ⟨_, List.forall₂_take_append i s t h, _, List.forall₂_drop_append i s t h, ?_⟩
    exact (List.take_append_drop _ _).symm
  · rintro ⟨p, hp, q, hq, rfl⟩
    exact List.rel_append hp hq

theorem cons_mem_box {n k : Nat} : k :: i ∈ box (n :: s) ↔ k < n ∧ i ∈ s.box := by
  simp

section
variable {α : Type} [AddCommMonoid α]

theorem sum_box (s : Shape) (f : List Nat → α) : ∑ i ∈ s.box, f i = (s.positions.map f).sum := rfl

theorem sum_box_nil (f : List Nat → α) : ∑ i ∈ box [], f i = f [] := by
  simp [sum_box, positions]

theorem sum_box_cons (n : Nat) (s : Shape) (f : List Nat → α) :
    ∑ i ∈ box (n :: s), f i = ∑ k ∈ Finset.range n, ∑ i ∈ s.box, f (k :: i) := by
  have range : ∀ g : Nat → α, ∑ k ∈ Finset.range n, g k = ((List.range n).map g).sum := fun _ => rfl
  rw [sum_box, positions_cons, List.map_flatMap, List.flatMap_def, List.sum_flatten, List.map_map, range]
  simp only [Function.comp_def, List.map_map, sum_box]

/-- A sum over the positions of axes in front of others. -/
theorem sum_box_append (s t : Shape) (f : List Nat → α) :
    ∑ i ∈ box (s ++ t), f i = ∑ p ∈ s.box, ∑ q ∈ t.box, f (p ++ q) := by
  induction s generalizing f with
  | nil => simp [sum_box_nil]
  | cons n s ih => simp only [List.cons_append, sum_box_cons, ih]

end

/-- A sum over the positions that a map sends to one, in row-major order. -/
theorem sum_filter_box {α : Type} [AddCommMonoid α] (s : Shape) (g : List Nat → List Nat)
    (i : List Nat) (f : List Nat → α) :
    ∑ j ∈ s.box with g j = i, f j = ((s.positions.filter (g · == i)).map f).sum := by
  have filtered : s.box.filter (fun j => g j = i) =
      ⟨s.positions.filter (g · == i), (nodup_positions s).filter _⟩ := by
    ext j
    rw [Finset.mem_filter, mem_box, ← mem_positions]
    change _ ↔ j ∈ s.positions.filter (g · == i)
    simp
  rw [filtered]
  rfl

/-! ### Where positions stand -/

theorem getElem?_flatMap_range {α : Type} {n size k j : Nat} {g : Nat → List α}
    (length : ∀ k, (g k).length = size) (hk : k < n) (hj : j < size) :
    ((List.range n).flatMap g)[k * size + j]? = (g k)[j]? := by
  induction n with
  | zero => omega
  | succ n ih =>
    have before : ((List.range n).flatMap g).length = n * size := by
      simp [List.length_flatMap, length]
    rw [List.range_succ, List.flatMap_append, List.flatMap_singleton, List.getElem?_append, before]
    rcases Nat.lt_succ_iff_lt_or_eq.mp hk with inner | rfl
    · have bound : k * size + j < n * size := by
        have := Nat.mul_le_mul_right size inner
        rw [Nat.succ_mul] at this
        omega
      rw [if_pos bound]
      exact ih inner
    · rw [if_neg (by omega), Nat.add_sub_cancel_left]

theorem getElem?_offset (h : i ∈ s.box) : s.positions[s.offset i]? = some i := by
  induction mem_box.mp h with
  | nil => rfl
  | @cons k n i s hk hi ih =>
    have inside := ih (mem_box.mpr hi)
    obtain ⟨bound, -⟩ := List.getElem?_eq_some_iff.mp inside
    rw [length_positions] at bound
    rw [positions_cons, offset, getElem?_flatMap_range (by simp [length_positions]) hk bound,
      List.getElem?_map, inside]
    rfl

theorem offset_lt (h : i ∈ s.box) : s.offset i < s.size := by
  obtain ⟨bound, -⟩ := List.getElem?_eq_some_iff.mp (getElem?_offset h)
  rwa [length_positions] at bound

/-! ### Broadcasting -/

/-- A shape broadcasts to another one, which may have more axes in front and other lengths where it has
length one. -/
def Stretches (s S : Shape) : Prop :=
  ∃ front back, S = front ++ back ∧ List.Forall₂ (fun n N => n = N ∨ n = 1) s back

variable {S : Shape}

theorem Stretches.refl (s : Shape) : Stretches s s :=
  ⟨[], s, rfl, List.forall₂_same.mpr fun _ _ => .inl rfl⟩

theorem Stretches.nil (S : Shape) : Stretches [] S := ⟨S, [], (List.append_nil S).symm, .nil⟩

theorem Stretches.length_le (h : Stretches s S) : s.length ≤ S.length := by
  obtain ⟨front, back, rfl, stretch⟩ := h
  rw [List.length_append, stretch.length_eq]
  omega

theorem Stretches.append (h : Stretches s S) (t : Shape) : Stretches (s ++ t) (S ++ t) := by
  obtain ⟨front, back, rfl, stretch⟩ := h
  refine ⟨front, back ++ t, List.append_assoc .., List.rel_append stretch ?_⟩
  exact List.forall₂_same.mpr fun _ _ => .inl rfl

theorem Stretches.trans (h : Stretches s t) (h' : Stretches t S) :
    Stretches s S := by
  obtain ⟨front, back, rfl, stretch⟩ := h
  obtain ⟨front', back', rfl, stretch'⟩ := h'
  have stretch'' := (List.forall₂_drop_append _ _ _ stretch'.flip).flip
  refine ⟨front' ++ back'.take front.length, back'.drop front.length, ?_, ?_⟩
  · rw [List.append_assoc, List.take_append_drop]
  · generalize back'.drop front.length = l at stretch''
    clear stretch'
    induction stretch generalizing l with
    | nil =>
      cases stretch''
      exact .nil
    | cons first _ ih =>
      obtain ⟨N, l, last, rest, rfl⟩ := List.forall₂_cons_left_iff.mp stretch''
      exact .cons (by omega) (ih l rest)

/-- The coordinates that are read along the axes that an operand has. -/
theorem project_append {p : List Nat} (length : p.length = s.length) :
    project s (i ++ p) = s.zipWith (fun n k => if n = 1 then 0 else k) p := by
  rw [project, List.length_append, length, Nat.add_sub_cancel, List.drop_left]

theorem zipWith_mem_box {back : Shape} {p : List Nat}
    (stretch : List.Forall₂ (fun n N => n = N ∨ n = 1) s back) (hp : p ∈ back.box) :
    s.zipWith (fun n k => if n = 1 then 0 else k) p ∈ s.box := by
  induction stretch generalizing p with
  | nil => simp
  | @cons n N s back first _ ih =>
    obtain ⟨k, q, hk, hq, rfl⟩ := List.forall₂_cons_right_iff.mp (mem_box.mp hp)
    rw [List.zipWith_cons_cons, cons_mem_box]
    refine ⟨?_, ih (mem_box.mpr hq)⟩
    split
    next one => omega
    next ne => omega

/-- A position of the result reads a position of the operand. -/
theorem Stretches.project_mem (h : Stretches s S) (hi : i ∈ S.box) : project s i ∈ s.box := by
  obtain ⟨front, back, rfl, stretch⟩ := h
  obtain ⟨p, -, q, hq, rfl⟩ := mem_box_append.mp hi
  rw [project_append ((length_of_mem_box hq).trans stretch.length_eq.symm)]
  exact zipWith_mem_box stretch hq

theorem zipWith_self (hi : i ∈ s.box) : s.zipWith (fun n k => if n = 1 then 0 else k) i = i := by
  induction mem_box.mp hi with
  | nil => rfl
  | @cons k n i s hk inside ih =>
    rw [List.zipWith_cons_cons, ih (mem_box.mpr inside)]
    split
    next one =>
      obtain rfl : k = 0 := by omega
      rfl
    next => rfl

/-- An operand that is not stretched is read where the result stands. -/
theorem project_self (hi : i ∈ s.box) : project s i = i := by
  have read := project_append (i := []) (length_of_mem_box hi)
  rw [List.nil_append] at read
  rw [read, zipWith_self hi]

/-- Along axes that are not stretched positions are kept. -/
theorem project_append_self {o p : List Nat} (hp : p ∈ t.box) (length : s.length ≤ o.length) :
    project (s ++ t) (o ++ p) = project s o ++ p := by
  have same := length_of_mem_box hp
  have drop : (o ++ p).drop ((o ++ p).length - (s ++ t).length) =
      o.drop (o.length - s.length) ++ p := by
    have shift : (o ++ p).length - (s ++ t).length = o.length - s.length := by
      simp only [List.length_append]
      omega
    rw [shift, List.drop_append_of_le_length (Nat.sub_le ..)]
  rw [project, drop, List.zipWith_append (by rw [List.length_drop]; omega), zipWith_self hp]
  rfl

/-- The length of an axis of the result, for the lengths of the operands. -/
def commonLength (p : Nat × Nat) : Option Nat :=
  if p.1 = p.2 then some p.1 else if p.1 = 1 then some p.2 else if p.2 = 1 then some p.1 else none

theorem stretches_of_mapM_commonLength : ∀ {a b s : Shape}, a.length = b.length →
    (a.zip b).mapM commonLength = some s →
      List.Forall₂ (fun n N => n = N ∨ n = 1) a s ∧ List.Forall₂ (fun n N => n = N ∨ n = 1) b s := by
  intro a
  induction a with
  | nil =>
    intro b s length run
    obtain rfl : b = [] := List.eq_nil_of_length_eq_zero length.symm
    cases run
    exact ⟨.nil, .nil⟩
  | cons x a ih =>
    intro b s length run
    cases b with
    | nil => cases length
    | cons y b =>
      rw [List.zip_cons_cons, List.mapM_cons] at run
      obtain ⟨n, first, run⟩ := Option.bind_eq_some_iff.mp run
      obtain ⟨s', rest, run⟩ := Option.bind_eq_some_iff.mp run
      cases run
      obtain ⟨left, right⟩ := ih (Nat.succ.inj length) rest
      simp only [commonLength] at first
      constructor
      · refine .cons ?_ left
        split at first <;> grind
      · refine .cons ?_ right
        split at first <;> grind

theorem mapM_commonLength {a s : Shape} (stretch : List.Forall₂ (fun n N => n = N ∨ n = 1) a s) :
    (a.zip s).mapM commonLength = some s ∧ (s.zip a).mapM commonLength = some s := by
  induction stretch with
  | nil => exact ⟨rfl, rfl⟩
  | @cons n N a s first _ ih =>
    have left : commonLength (n, N) = some N := by
      unfold commonLength
      grind
    have right : commonLength (N, n) = some N := by
      unfold commonLength
      grind
    simp only [List.zip_cons_cons, List.mapM_cons, left, right, ih.1, ih.2]
    exact ⟨rfl, rfl⟩

/-- Operands broadcast to their common shape. -/
theorem stretches_of_broadcast? (h : broadcast? s t = some S) : Stretches s S ∧ Stretches t S := by
  have pad : ∀ {n : Nat} {s : Shape},
      List.Forall₂ (fun n N => n = N ∨ n = 1) (List.replicate n 1 ++ s) S → Stretches s S := by
    intro n s stretch
    have back := List.forall₂_drop_append _ _ _ stretch.flip
    exact ⟨S.take n, S.drop n, (List.take_append_drop n S).symm, by simpa using back.flip⟩
  obtain ⟨left, right⟩ := stretches_of_mapM_commonLength (by simp) h
  exact ⟨pad left, pad right⟩

theorem length_of_broadcast? (h : broadcast? s t = some S) : S.length = max s.length t.length := by
  obtain ⟨left, -⟩ := stretches_of_mapM_commonLength (by simp) h
  have := left.length_eq
  simp only [List.length_append, List.length_replicate] at this
  omega

/-- An operand that broadcasts to the other gives the other's shape. -/
theorem Stretches.broadcast? (h : Stretches s S) :
    Shape.broadcast? s S = some S ∧ Shape.broadcast? S s = some S := by
  obtain ⟨front, back, rfl, stretch⟩ := h
  have length := stretch.length_eq
  have padded : List.Forall₂ (fun n N => n = N ∨ n = 1) (List.replicate front.length 1 ++ s)
      (front ++ back) := by
    refine List.rel_append ?_ stretch
    refine List.forall₂_iff_get.mpr ⟨by simp, fun k _ _ => .inr (by simp)⟩
  have short : max s.length (front ++ back).length = (front ++ back).length := by
    simp only [List.length_append]
    omega
  have missing : (front ++ back).length - s.length = front.length := by
    simp only [List.length_append]
    omega
  obtain ⟨left, right⟩ := mapM_commonLength padded
  unfold Shape.broadcast?
  dsimp only
  rw [Nat.max_comm (front ++ back).length, short, missing, Nat.sub_self]
  exact ⟨left, right⟩

theorem broadcast?_self (s : Shape) : Shape.broadcast? s s = some s := (Stretches.refl s).broadcast?.1

/-! ### Reducing -/

/-- Leaving out the first axes. -/
theorem without_range (e : Nat) (l : List Nat) : without (List.range e) l = l.drop e := by
  have go : ∀ (l : List Nat) (n : Nat), ((l.zipIdx n).filter fun p =>
      !(List.range e).contains p.2).map (·.1) = l.drop (e - n) := by
    intro l
    induction l with
    | nil => simp
    | cons x l ih =>
      intro n
      rw [List.zipIdx_cons, List.filter_cons]
      by_cases inner : n < e
      · have counted : (List.range e).contains n = true := by simpa using inner
        have next : e - n = e - (n + 1) + 1 := by omega
        rw [counted, next, List.drop_succ_cons, ← ih (n + 1)]
        rfl
      · have free : (List.range e).contains n = false := by simpa using inner
        have last : e - (n + 1) = 0 := by omega
        have here : e - n = 0 := by omega
        have rest := ih (n + 1)
        rw [last, List.drop_zero] at rest
        rw [free, here, List.drop_zero]
        exact congrArg (x :: ·) rest
  exact go l 0

/-! ### Moving entries -/

section
variable {α : Type} [CommSemiring α] {g h : List Nat → List Nat}

/-- Adding up entries at the positions that a map sends them to is the adjoint of reading along the
map. -/
theorem sum_push (inside : ∀ j ∈ S.box, g j ∈ s.box) (f u : List Nat → α) :
    ∑ i ∈ s.box, (∑ j ∈ S.box with g j = i, f j) * u i = ∑ j ∈ S.box, f j * u (g j) := by
  rw [← Finset.sum_fiberwise_of_maps_to inside]
  refine Finset.sum_congr rfl fun i _ => ?_
  rw [Finset.sum_mul]
  refine Finset.sum_congr rfl fun j hj => ?_
  rw [(Finset.mem_filter.mp hj).2]

/-- Entries that are moved twice. -/
theorem sum_push_push (inside : ∀ j ∈ S.box, g j ∈ t.box) (f : List Nat → α) (i : List Nat) :
    ∑ k ∈ t.box with h k = i, ∑ j ∈ S.box with g j = k, f j =
      ∑ j ∈ S.box with h (g j) = i, f j := by
  have maps : ∀ j ∈ S.box.filter (fun j => h (g j) = i), g j ∈ t.box.filter (fun k => h k = i) := by
    intro j hj
    obtain ⟨hj, there⟩ := Finset.mem_filter.mp hj
    exact Finset.mem_filter.mpr ⟨inside j hj, there⟩
  rw [← Finset.sum_fiberwise_of_maps_to maps]
  refine Finset.sum_congr rfl fun k hk => ?_
  rw [Finset.filter_filter]
  refine Finset.sum_congr (Finset.filter_congr fun j _ => ?_) fun _ _ => rfl
  have there := (Finset.mem_filter.mp hk).2
  constructor
  · rintro rfl
    exact ⟨there, rfl⟩
  · exact fun both => both.2

end

end Shape

/-! ### Entries of arrays -/

namespace Tensor

variable {α β : Type} {s : Shape} {i : List Nat}

/-- An array that is made from a function has its values. -/
theorem get_ofFn [Inhabited α] (f : List Nat → α) (h : i ∈ s.box) : (ofFn s f).get i = f i := by
  simp only [get, ofFn, List.getElem?_toArray, List.getElem?_map, Shape.getElem?_offset h,
    Option.map_some, Option.getD_some]

theorem get_gather [Inhabited α] (t : Tensor α) {g : List Nat → List Nat} (h : i ∈ s.box) :
    (t.gather s g).get i = t.get (g i) := get_ofFn _ h

theorem get_map [Inhabited α] [Inhabited β] (f : α → β) (t : Tensor α) (h : i ∈ t.shape.box) :
    (t.map f).get i = f (t.get i) := by
  have bound : t.shape.offset i < t.entries.size := by
    rw [t.size_eq]
    exact Shape.offset_lt h
  simp [get, map, bound]

/-- An entry of a sum along axes is the sum of the entries that are counted in it. -/
theorem get_sumAlong [AddCommMonoid α] [Inhabited α] (t : Tensor α) (axes : List Nat) (keep : Bool)
    (h : i ∈ Shape.box (t.shape.reduce axes keep)) :
    (t.sumAlong (· + ·) 0 axes keep).get i =
      ∑ j ∈ t.shape.box with Shape.reducePosition axes keep j = i, t.get j := by
  refine (get_ofFn _ h).trans ?_
  rw [get_ofFn _ h, ← List.sum_eq_foldl, Shape.sum_filter_box]

end Tensor

end Backprop
