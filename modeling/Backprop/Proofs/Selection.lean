import Mathlib
import Backprop.Tensor.Selection
import Backprop.Proofs.Arena
import Backprop.Proofs.Axes
/-!
# What an index selects lies within the array

* `Bounds.place_lt`: the places of a range, of any step, are places of the axis.
* `SelectionPart.Covers` says which axes resolved items stand for; `covers_resolveItems` that the items of
  an index stand for all of them.
* `Selection.source_mem`: every entry of a selection is read from a position of the array.
-/

namespace Backprop

/-! ### Ranges -/

section
variable {first last step : Int} {n k : Nat}

/-- Places that go up to an end within the axis. -/
theorem up_lt (low : 0 ≤ first) (high : last ≤ n) (up : ¬ step < 0)
    (hk : k < (if first < last then (last - first - 1) / step + 1 else 0).toNat) :
    (first + step * k).toNat < n := by
  split at hk
  next some =>
    have most : (k : Int) ≤ (last - first - 1) / step := by omega
    have within : step * k ≤ last - first - 1 := by
      rcases (not_lt.mp up).eq_or_lt with rfl | pos
      · rw [zero_mul]
        omega
      · rw [mul_comm]
        exact Int.mul_le_of_le_ediv pos most
    omega
  next => exact absurd hk (Nat.not_lt_zero k)

/-- Places that go down from a start within the axis. -/
theorem down_lt (low : -1 ≤ last) (high : first ≤ n - 1) (down : step < 0)
    (hk : k < (if last < first then (first - last - 1) / -step + 1 else 0).toNat) :
    (first + step * k).toNat < n := by
  split at hk
  next some =>
    have falling : step * k ≤ 0 := Int.mul_nonpos_of_nonpos_of_nonneg down.le (Int.natCast_nonneg k)
    omega
  next => exact absurd hk (Nat.not_lt_zero k)

end

theorem getD_between (low high : Int) {o : Option Int} {f : Int → Int} {d : Int}
    (each : ∀ x, low ≤ f x ∧ f x ≤ high) (default : low ≤ d ∧ d ≤ high) :
    low ≤ (o.map f).getD d ∧ (o.map f).getD d ≤ high := by
  cases o with
  | none => exact default
  | some x => exact each x

theorem Bounds.place_lt (n : Nat) (b : Bounds) : ∀ k < (b.stride n).length, (b.stride n).place k < n := by
  intro k hk
  obtain ⟨start, stop, step⟩ := b
  unfold stride at hk ⊢
  unfold Stride.place
  by_cases down : step < 0
  · simp only [down, if_true] at hk ⊢
    refine down_lt ?_ ?_ down hk
    · exact (getD_between (-1) (n - 1) (fun x => by omega) (by omega)).1
    · exact (getD_between (-1) (n - 1) (fun x => by omega) (by omega)).2
  · simp only [down, if_false] at hk ⊢
    refine up_lt ?_ ?_ down hk
    · exact (getD_between 0 n (fun x => by omega) (by omega)).1
    · exact (getD_between 0 n (fun x => by omega) (by omega)).2

/-! ### Parts and the axes they stand for -/

namespace SelectionPart

open Shape

/-- Resolved items and the axes that they stand for. Places that are fixed or strided lie within their
axis. -/
inductive Covers : List SelectionPart → Shape → Prop where
  | nil : Covers [] []
  | fixed {c n : Nat} {ps : List SelectionPart} {s : Shape} :
    c < n → Covers ps s → Covers (fixed c :: ps) (n :: s)
  | strided {r : Stride} {n : Nat} {ps : List SelectionPart} {s : Shape} :
    (∀ k < r.length, r.place k < n) → Covers ps s → Covers (strided r :: ps) (n :: s)
  | fresh {ps : List SelectionPart} {s : Shape} : Covers ps s → Covers (fresh :: ps) s
  | picked {n : Nat} {places : Tensor Int} {ps : List SelectionPart} {s : Shape} :
    Covers ps s → Covers (picked n places :: ps) (n :: s)
  | shaped {t : Shape} {ps : List SelectionPart} {s : Shape} : Covers ps s → Covers (shaped t :: ps) s

variable {ps : List SelectionPart} {s : Shape} {arrays own : List Nat}

/-- Whether the arrays of places name places of their axes at a position. -/
def Reads (arrays : List Nat) : SelectionPart → Prop
  | picked n places => (locate n (places.get (places.shape.project arrays))).isSome
  | _ => True

/-- Parts that cover axes lead to positions of them. -/
theorem Covers.source_mem (h : Covers ps s) (reads : ∀ p ∈ ps, p.Reads arrays)
    (ho : own ∈ box (ps.filterMap (·.ownLength?))) : source arrays ps own ∈ s.box := by
  induction h generalizing own with
  | nil => simp [source]
  | fixed bound _ ih =>
    have rest := List.forall_mem_cons.mp reads
    exact cons_mem_box.mpr ⟨bound, ih rest.2 ho⟩
  | @strided r n ps s bound _ ih =>
    have rest := List.forall_mem_cons.mp reads
    obtain ⟨k, i, hk, hi, rfl⟩ := List.forall₂_cons_right_iff.mp (mem_box.mp ho)
    exact cons_mem_box.mpr ⟨bound k hk, ih rest.2 (mem_box.mpr hi)⟩
  | fresh _ ih =>
    have rest := List.forall_mem_cons.mp reads
    obtain ⟨k, i, -, hi, rfl⟩ := List.forall₂_cons_right_iff.mp (mem_box.mp ho)
    exact ih rest.2 (mem_box.mpr hi)
  | @picked n places ps s _ ih =>
    have rest := List.forall_mem_cons.mp reads
    obtain ⟨k, place⟩ := Option.isSome_iff_exists.mp rest.1
    rw [source, place, Option.getD_some]
    exact cons_mem_box.mpr ⟨(locate_eq_some_iff.mp place).1, ih rest.2 ho⟩
  | shaped _ ih =>
    have rest := List.forall_mem_cons.mp reads
    exact ih rest.2 ho

/-- Whole axes in front. -/
theorem Covers.whole (h : Covers ps s) (front : Shape) :
    Covers (front.map (fun n => SelectionPart.strided ⟨0, 1, n⟩) ++ ps) (front ++ s) := by
  induction front with
  | nil => exact h
  | cons n front ih =>
    refine .strided (fun k hk => ?_) ih
    simpa [Stride.place] using hk

/-- Axes that run through arrays of places in front. -/
theorem Covers.zip (h : Covers ps s) : ∀ {front : Shape} {l : List (Tensor Int)},
    l.length = front.length →
      Covers ((front.zip l).map (fun (n, places) => SelectionPart.picked n places) ++ ps) (front ++ s) := by
  intro front
  induction front with
  | nil => exact fun _ => h
  | cons n front ih =>
    intro l length
    cases l with
    | nil => cases length
    | cons places l => exact .picked (ih (Nat.succ.inj length))

/-- The axes of a mask in front. -/
theorem Covers.mask (h : Covers ps s) (bs : Tensor Bool) :
    Covers (maskParts bs ++ ps) (bs.shape ++ s) := by
  unfold maskParts
  split
  next flat =>
    obtain flat := List.eq_nil_of_length_eq_zero flat
    rw [flat]
    exact .shaped h
  next =>
    exact h.zip (by simp [maskPlaces, Tensor.rank])

end SelectionPart

open SelectionPart

/-- The number of axes that an item stands for if `free` of them have no item of their own. -/
def IndexItem.spans (free : Nat) (i : IndexItem) : Nat := if i.isBetween then free else i.axes

/-- The items of an index are resolved against as many axes as they stand for. -/
theorem covers_resolveItems {free : Nat} {items : List IndexItem} : ∀ {s : Shape}
    {parts : List SelectionPart}, resolveItems free s items = .ok parts →
      masksFit free s items = true → (items.map (·.spans free)).sum = s.length → Covers parts s := by
  induction items with
  | nil =>
    intro s parts run _ total
    cases run
    obtain rfl := List.eq_nil_of_length_eq_zero total.symm
    exact .nil
  | cons i items ih =>
    intro s parts run fits total
    rw [List.map_cons, List.sum_cons] at total
    cases i with
    | newAxis =>
      obtain ⟨rest, others, same⟩ := ok_of_bind run
      cases same
      exact .fresh (ih others fits ((Nat.zero_add _).symm.trans total))
    | between =>
      obtain ⟨rest, others, same⟩ := ok_of_bind run
      cases same
      have total : free + (items.map (·.spans free)).sum = s.length := total
      have covers := ih others fits (by rw [List.length_drop]; omega)
      have whole := covers.whole (s.take free)
      rwa [List.take_append_drop] at whole
    | mask bs =>
      obtain ⟨rest, others, same⟩ := ok_of_bind run
      cases same
      have total : bs.rank + (items.map (·.spans free)).sum = s.length := total
      have fits : (bs.shape == s.take bs.rank && masksFit free (s.drop bs.rank) items) = true := fits
      obtain ⟨shape, fits⟩ := Bool.and_eq_true_iff.mp fits
      have covers := ih others fits (by rw [List.length_drop]; omega)
      have front := covers.mask bs
      rwa [eq_of_beq shape, List.take_append_drop] at front
    | place p =>
      cases s with
      | nil => cases run
      | cons n s =>
        have total : 1 + (items.map (·.spans free)).sum = s.length + 1 := total
        rw [resolveItems] at run
        split at run
        next c place =>
          obtain ⟨rest, others, same⟩ := ok_of_bind run
          cases same
          exact .fixed (locate_eq_some_iff.mp place).1 (ih others fits (by omega))
        next => cases run
    | range bounds =>
      cases s with
      | nil => cases run
      | cons n s =>
        have total : 1 + (items.map (·.spans free)).sum = s.length + 1 := total
        obtain ⟨b, -, resolved⟩ := ok_of_bind run
        obtain ⟨rest, others, same⟩ := ok_of_bind resolved
        cases same
        exact .strided (b.place_lt n) (ih others fits (by omega))
    | places is =>
      cases s with
      | nil => cases run
      | cons n s =>
        have total : 1 + (items.map (·.spans free)).sum = s.length + 1 := total
        obtain ⟨rest, others, same⟩ := ok_of_bind run
        cases same
        exact .picked (ih others fits (by omega))

theorem sum_spans (free : Nat) (items : List IndexItem) : (items.map (·.spans free)).sum =
    items.foldl (fun n i => n + i.axes) 0 + (items.filter (·.isBetween)).length * free := by
  have go : ∀ n, n + (items.map (·.spans free)).sum =
      items.foldl (fun n i => n + i.axes) n + (items.filter (·.isBetween)).length * free := by
    induction items with
    | nil => exact fun n => by simp
    | cons i items ih =>
      intro n
      have rest := ih (n + i.axes)
      rw [List.map_cons, List.sum_cons, List.foldl_cons, List.filter_cons, IndexItem.spans]
      split
      next between =>
        have none : i.axes = 0 := by cases i <;> first | rfl | cases between
        rw [List.length_cons, Nat.succ_mul]
        omega
      next => omega
  rw [← go 0, Nat.zero_add]

/-- One item stands for the axes that have no item of their own. -/
theorem covers_of_axes {free : Nat} {items : List IndexItem} {s : Shape} {parts : List SelectionPart}
    (run : resolveItems free s items = .ok parts) (fits : masksFit free s items = true)
    (one : (items.filter (·.isBetween)).length = 1)
    (axes : items.foldl (fun n i => n + i.axes) 0 + free = s.length) : Covers parts s := by
  refine covers_resolveItems run fits ?_
  rw [sum_spans, one, Nat.one_mul, axes]

/-- There is such an item, if need be at the end. -/
theorem one_le_betweens (items : List IndexItem) :
    1 ≤ ((if items.any (·.isBetween) then items else items ++ [.between]).filter
      (·.isBetween)).length := by
  split
  next some =>
    obtain ⟨i, hi, between⟩ := List.any_eq_true.mp some
    exact List.length_pos_of_mem (List.mem_filter.mpr ⟨hi, between⟩)
  next =>
    rw [List.filter_append, List.length_append]
    exact Nat.le_add_left 1 _

/-- Arrays of places are broadcast to the shape that they have in common. -/
theorem stretches_of_foldlM {shapes : List Shape} : ∀ {first common : Shape},
    shapes.foldlM Shape.broadcast? first = some common →
      Shape.Stretches first common ∧ ∀ t ∈ shapes, Shape.Stretches t common := by
  induction shapes with
  | nil =>
    intro first common run
    cases run
    exact ⟨.refl _, by simp⟩
  | cons t shapes ih =>
    intro first common run
    rw [List.foldlM_cons] at run
    obtain ⟨next, step, run⟩ := Option.bind_eq_some_iff.mp run
    obtain ⟨stretch, others⟩ := ih run
    obtain ⟨left, right⟩ := Shape.stretches_of_broadcast? step
    exact ⟨left.trans stretch, List.forall_mem_cons.mpr ⟨right.trans stretch, others⟩⟩

namespace Tensor

variable {α : Type} [Inhabited α] {t : Tensor α} {i : List Nat}

theorem get_mem_toList (h : i ∈ t.shape.box) : t.get i ∈ t.toList := by
  have bound : t.shape.offset i < t.entries.size := by
    rw [t.size_eq]
    exact Shape.offset_lt h
  simp [get, toList, bound]

end Tensor

namespace SelectionPart

open Shape

variable {parts : List SelectionPart} {s common : Shape} {i : List Nat}

/-- Places that fit are read at every position that they are broadcast to. -/
theorem reads_of_fits {p : SelectionPart} {arrays : List Nat} (fits : p.fits = true)
    (stretch : Stretches p.arrayShape common) (ha : arrays ∈ common.box) : p.Reads arrays := by
  cases p with
  | picked n places =>
    exact List.all_eq_true.mp fits _ (Tensor.get_mem_toList (stretch.project_mem ha))
  | _ => trivial

/-- Parts without arrays of places. -/
theorem Covers.source_mem_plain (h : Covers parts s) (plain : parts.any (·.isArray) ≠ true)
    (hi : i ∈ box (parts.filterMap (·.ownLength?))) : source [] parts i ∈ s.box := by
  refine h.source_mem (fun p hp => ?_) hi
  cases p with
  | picked n places => exact absurd (List.any_eq_true.mpr ⟨_, hp, rfl⟩) plain
  | _ => trivial

/-- Parts with arrays of places, whose axes stand after `split` axes of the result. -/
theorem Covers.source_mem_arrays (h : Covers parts s) {split : Nat}
    (shapes : (parts.map (·.arrayShape)).foldlM broadcast? [] = some common)
    (fits : common.size ≠ 0 → parts.all (·.fits) = true)
    (place : split ≤ (parts.filterMap (·.ownLength?)).length)
    (hi : i ∈ box ((parts.filterMap (·.ownLength?)).take split ++ common ++
      (parts.filterMap (·.ownLength?)).drop split)) :
    source ((i.drop split).take common.length) parts
      (i.take split ++ i.drop (split + common.length)) ∈ s.box := by
  obtain ⟨front, hfront, r, hr, rfl⟩ := mem_box_append.mp hi
  obtain ⟨p, hp, q, hq, rfl⟩ := mem_box_append.mp hfront
  have first : p.length = split := by
    rw [length_of_mem_box hp, List.length_take]
    omega
  have second := length_of_mem_box hq
  have arrays : ((p ++ q ++ r).drop split).take common.length = q := by
    rw [List.append_assoc, ← first, List.drop_left, ← second, List.take_left]
  have own : (p ++ q ++ r).take split ++ (p ++ q ++ r).drop (split + common.length) = p ++ r := by
    rw [← first, ← second, ← List.length_append, List.drop_left, List.append_assoc, List.take_left]
  have some : common.size ≠ 0 := Nat.ne_of_gt (Nat.zero_lt_of_lt (offset_lt hq))
  rw [arrays, own]
  refine h.source_mem (fun part mem => ?_) ?_
  · refine reads_of_fits (List.all_eq_true.mp (fits some) part mem) ?_ hq
    exact (stretches_of_foldlM shapes).2 _ (List.mem_map_of_mem mem)
  · rw [← List.take_append_drop split (parts.filterMap (·.ownLength?))]
    exact mem_box_append.mpr ⟨p, hp, r, hr, rfl⟩

end SelectionPart

namespace Selection

open Shape

variable {s : Shape} {items : List IndexItem} {sel : Selection} {i : List Nat}

/-- Every entry of a selection is read from a position of the array. -/
theorem source_mem (h : ofItems s items = .ok sel) (hi : i ∈ sel.shape.box) : sel.source i ∈ s.box := by
  unfold ofItems at h
  dsimp only at h
  have once := one_le_betweens items
  generalize (if items.any (·.isBetween) then items else items ++ [.between]) = items' at h once
  split at h
  · cases h
  next counts =>
  split at h
  · cases h
  next limits =>
  obtain ⟨parts, resolved, run⟩ := ok_of_bind h
  clear h
  have covers : Covers parts s := by
    simp only [Bool.or_eq_true, decide_eq_true_eq, not_or, not_lt, Bool.not_eq_true',
      Bool.not_eq_false] at counts limits
    exact covers_of_axes resolved limits.2 (by omega) (by omega)
  split at run
  next =>
    split at run
    next => cases run
    next common shapes =>
      split at run
      next => cases run
      next fits =>
        cases run
        refine covers.source_mem_arrays shapes (fun some => ?_) ?_ hi
        · by_contra unfit
          exact fits (by simp [some, unfit])
        · split
          · exact Nat.zero_le _
          · exact (List.takeWhile_sublist _).filterMap _ |>.length_le
  next plain =>
    cases run
    exact covers.source_mem_plain plain hi

end Selection

end Backprop
