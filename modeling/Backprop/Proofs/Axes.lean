import Mathlib
import Backprop.Kernel.Reduction
import Backprop.Proofs.Broadcasting
/-!
# Axes that are left out and put back

* `Shape.without_cons` and `Shape.insertIdx_without`: leaving axes out one by one, and putting them back.
  An axis is put back at its own number once all axes before it are there.
* `Shape.project_withAt`: a shape with some axes of length one is read with their coordinates zero.
* `Value.sumAxes_spec`: the axes that a sum runs along are distinct.
* `Kernel.axisNumbers_of_sumAxes`: kernels find the same axes where a plain value lists them;
  `Kernel.axisNumbers_of_not_listsAxes` says that they find none elsewhere.
-/

namespace Backprop

/-- The numbers that a machine word holds. -/
theorem fitsWord_iff {i : Int} : fitsWord i = true ↔ -2 ^ 63 ≤ i ∧ i < 2 ^ 63 := by
  have most : Int.pow 2 (Width.w64.bits - 1) = 2 ^ 63 := rfl
  simp only [fitsWord, ElementType.int64, ElementType.holds, most, Bool.and_eq_true, decide_eq_true_eq]

namespace Shape

/-- Leaves out axes, the first one being axis `n`. -/
def withoutFrom (n : Nat) (axes : List Nat) : List Nat → List Nat
  | [] => []
  | x :: l =>
    if axes.contains n then withoutFrom (n + 1) axes l else x :: withoutFrom (n + 1) axes l

theorem without_eq (axes l : List Nat) : without axes l = withoutFrom 0 axes l := by
  have go : ∀ (l : List Nat) (n : Nat),
      ((l.zipIdx n).filter fun p => !axes.contains p.2).map (·.1) = withoutFrom n axes l := by
    intro l
    induction l with
    | nil => exact fun _ => rfl
    | cons x l ih =>
      intro n
      rw [List.zipIdx_cons, List.filter_cons, withoutFrom, ← ih (n + 1)]
      cases left : axes.contains n with
      | true => rfl
      | false => rfl
  exact go l 0

variable {n k x : Nat} {axes axes' ks l i : List Nat} {s : Shape}

theorem withoutFrom_congr (same : ∀ j, n ≤ j → axes.contains j = axes'.contains j) :
    withoutFrom n axes l = withoutFrom n axes' l := by
  induction l generalizing n with
  | nil => rfl
  | cons x l ih =>
    rw [withoutFrom, withoutFrom, same n le_rfl, ih fun j hj => same j (by omega)]

theorem length_withoutFrom_le : (withoutFrom n axes l).length ≤ l.length := by
  induction l generalizing n with
  | nil => exact le_rfl
  | cons x l ih =>
    rw [withoutFrom]
    split
    · exact ih.trans (Nat.le_succ _)
    · exact Nat.succ_le_succ ih

theorem withoutFrom_mem_box (h : i ∈ s.box) : withoutFrom n axes i ∈ box (withoutFrom n axes s) := by
  induction mem_box.mp h generalizing n with
  | nil => simp [withoutFrom]
  | @cons k m i s hk inside ih =>
    rw [withoutFrom, withoutFrom]
    split
    · exact ih (mem_box.mpr inside)
    · exact cons_mem_box.mpr ⟨hk, ih (mem_box.mpr inside)⟩

theorem withoutFrom_withAt :
    withoutFrom n axes ((l.zipIdx n).map fun p => if axes.contains p.2 then x else p.1) =
      withoutFrom n axes l := by
  induction l generalizing n with
  | nil => rfl
  | cons y l ih =>
    rw [List.zipIdx_cons, List.map_cons, withoutFrom, withoutFrom, ih]
    split <;> rfl

/-- Axes from `n + 1` on leave the first one alone. -/
theorem withoutFrom_of_lt (later : ∀ j ∈ ks, n < j) :
    withoutFrom n ks (x :: l) = x :: withoutFrom (n + 1) ks l :=
  if_neg fun mem => absurd (later n (List.contains_iff_mem.mp mem)) (Nat.lt_irrefl n)

theorem withoutFrom_here : withoutFrom n (n :: ks) (x :: l) = withoutFrom (n + 1) ks l := by
  rw [withoutFrom, if_pos (by simp)]
  exact withoutFrom_congr fun j hj => by simp [show j ≠ n by omega]

section
variable (least : ∀ j ∈ ks, n + k < j)
include least

/-- Leaving out the least of the axes last. -/
theorem withoutFrom_cons :
    withoutFrom n ((n + k) :: ks) l = (withoutFrom n ks l).eraseIdx k := by
  induction k generalizing n l with
  | zero =>
    cases l with
    | nil => rfl
    | cons y l =>
      rw [Nat.add_zero, withoutFrom_here, withoutFrom_of_lt (Nat.add_zero n ▸ least)]
      rfl
  | succ k ih =>
    cases l with
    | nil => rfl
    | cons y l =>
      have later : ∀ j ∈ (n + (k + 1)) :: ks, n < j :=
        List.forall_mem_cons.mpr ⟨by omega, fun j hj => Nat.lt_of_le_of_lt (by omega) (least j hj)⟩
      have shift : n + (k + 1) = n + 1 + k := by omega
      rw [withoutFrom_of_lt later, withoutFrom_of_lt (List.forall_mem_cons.mp later).2,
        List.eraseIdx_cons_succ, shift, ih fun j hj => shift ▸ least j hj]

/-- Putting back the least of the axes first. -/
theorem insertIdx_withoutFrom (hk : k < l.length) :
    k ≤ (withoutFrom n ((n + k) :: ks) l).length ∧
      (withoutFrom n ((n + k) :: ks) l).insertIdx k x = withoutFrom n ks (l.set k x) := by
  induction k generalizing n l with
  | zero =>
    cases l with
    | nil => cases hk
    | cons y l =>
      refine ⟨Nat.zero_le _, ?_⟩
      rw [Nat.add_zero, withoutFrom_here, List.set_cons_zero,
        withoutFrom_of_lt (Nat.add_zero n ▸ least)]
      rfl
  | succ k ih =>
    cases l with
    | nil => cases hk
    | cons y l =>
      have later : ∀ j ∈ (n + (k + 1)) :: ks, n < j :=
        List.forall_mem_cons.mpr ⟨by omega, fun j hj => Nat.lt_of_le_of_lt (by omega) (least j hj)⟩
      have shift : n + (k + 1) = n + 1 + k := by omega
      obtain ⟨bound, rest⟩ := ih (n := n + 1) (l := l) (fun j hj => shift ▸ least j hj)
        (Nat.lt_of_succ_lt_succ hk)
      rw [withoutFrom_of_lt later, List.set_cons_succ,
        withoutFrom_of_lt (List.forall_mem_cons.mp later).2, shift]
      exact ⟨Nat.succ_le_succ bound, congrArg (y :: ·) rest⟩

end

theorem length_without_le : (without axes l).length ≤ l.length := by
  rw [without_eq]
  exact length_withoutFrom_le

theorem without_mem_box (h : i ∈ s.box) : without axes i ∈ box (without axes s) := by
  rw [without_eq, without_eq]
  exact withoutFrom_mem_box h

/-- What stands at axes does not matter once they are left out. -/
theorem without_withAt : without axes (withAt x axes l) = without axes l := by
  rw [without_eq, without_eq]
  exact withoutFrom_withAt

section
variable (least : ∀ j ∈ ks, k < j)
include least

theorem without_cons : without (k :: ks) l = (without ks l).eraseIdx k := by
  have least' : ∀ j ∈ ks, 0 + k < j := by simpa using least
  have last := withoutFrom_cons (l := l) least'
  rwa [Nat.zero_add, ← without_eq, ← without_eq] at last

theorem insertIdx_without (hk : k < l.length) : k ≤ (without (k :: ks) l).length ∧
    (without (k :: ks) l).insertIdx k x = without ks (l.set k x) := by
  have least' : ∀ j ∈ ks, 0 + k < j := by simpa using least
  have first := insertIdx_withoutFrom (l := l) (x := x) least' hk
  rwa [Nat.zero_add, ← without_eq, ← without_eq] at first

end

/-! ### Axes of length one in the place of others -/

@[simp] theorem length_withAt : (withAt x axes l).length = l.length := by simp [withAt]

theorem withAt_nil : withAt x [] l = l := by simp [withAt]

theorem withAt_cons : withAt x (k :: ks) l = withAt x ks (l.set k x) := by
  refine List.ext_getElem (by simp) fun j hj hj' => ?_
  simp only [getElem_withAt, List.get_eq_getElem, List.getElem_set, List.contains_cons]
  by_cases here : j = k
  · simp [here]
  · simp [here, Ne.symm here]

section
variable (same : axes.Perm axes')
include same

theorem without_perm : without axes l = without axes' l := by
  rw [without_eq, without_eq]
  exact withoutFrom_congr fun j _ => same.contains_eq

theorem withAt_perm : withAt x axes l = withAt x axes' l := by
  refine List.ext_getElem (by simp) fun j hj hj' => ?_
  rw [getElem_withAt, getElem_withAt, same.contains_eq]

end

theorem stretches_withAt : Stretches (withAt 1 axes s) s := by
  refine ⟨[], s, rfl, List.forall₂_iff_get.mpr ⟨length_withAt, fun j hj hj' => ?_⟩⟩
  rw [List.get_eq_getElem, List.get_eq_getElem, getElem_withAt]
  split
  · exact .inr rfl
  · exact .inl rfl

/-- Axes of length one are read at zero. -/
theorem project_withAt (h : i ∈ s.box) : project (withAt 1 axes s) i = withAt 0 axes i := by
  have length := length_of_mem_box h
  have read := project_append (i := []) (s := withAt 1 axes s) (p := i) (by simpa using length)
  rw [List.nil_append] at read
  rw [read]
  refine List.ext_getElem (by simp [length]) fun j hj hj' => ?_
  have ofI : j < i.length := by simpa using hj'
  have inside := (mem_box.mp h).get ofI (length ▸ ofI)
  rw [List.getElem_zipWith, getElem_withAt, getElem_withAt]
  simp only [List.get_eq_getElem] at inside ⊢
  split
  next => simp
  next kept =>
    split
    next single => omega
    next => rfl

theorem withAt_mem_box (h : i ∈ s.box) : withAt 0 axes i ∈ box (withAt 1 axes s) := by
  rw [← project_withAt h]
  exact stretches_withAt.project_mem h

end Shape

/-! ### Axes that values name -/

theorem locate_eq_some_iff {n k : Nat} {i : Int} :
    locate n i = some k ↔ k < n ∧ (i = k ∨ i = (k : Int) - n) := by
  unfold locate
  constructor
  · intro h
    split at h
    · split at h
      · cases h
        omega
      · cases h
    · split at h
      · cases h
        omega
      · cases h
  · rintro ⟨bound, rfl | rfl⟩
    · rw [if_pos (by omega), if_pos (by omega)]
      rfl
    · rw [if_neg (by omega), if_pos (by omega)]
      exact congrArg some (by omega)

/-- The place that a number names is the number modulo the length. -/
theorem emod_of_locate {n k : Nat} {i : Int} (h : locate n i = some k) : i % (n : Int) = k := by
  obtain ⟨bound, rfl | rfl⟩ := locate_eq_some_iff.mp h
  · exact Int.emod_eq_of_lt (Int.natCast_nonneg k) (by omega)
  · rw [Int.sub_emod_right]
    exact Int.emod_eq_of_lt (Int.natCast_nonneg k) (by omega)

theorem length_eraseDups_le {α : Type} [BEq α] [LawfulBEq α] :
    ∀ (n : Nat) (l : List α), l.length ≤ n → l.eraseDups.length ≤ l.length := by
  intro n
  induction n with
  | zero =>
    intro l short
    obtain rfl := List.eq_nil_of_length_eq_zero (Nat.le_zero.mp short)
    rfl
  | succ n ih =>
    intro l short
    cases l with
    | nil => rfl
    | cons a l =>
      have fewer : (l.filter fun b => !b == a).length ≤ l.length := List.length_filter_le ..
      have rest := ih _ (fewer.trans (Nat.le_of_succ_le_succ short))
      rw [List.eraseDups_cons, List.length_cons, List.length_cons]
      omega

theorem nodup_of_eraseDups {α : Type} [BEq α] [LawfulBEq α] {l : List α}
    (all : l.eraseDups.length = l.length) : l.Nodup := by
  induction l with
  | nil => exact List.nodup_nil
  | cons a l ih =>
    rw [List.eraseDups_cons, List.length_cons, List.length_cons, Nat.succ_inj] at all
    have fewer : (l.filter fun b => !b == a).length ≤ l.length := List.length_filter_le ..
    have rest := length_eraseDups_le _ (l.filter fun b => !b == a) le_rfl
    have every : l.filter (fun b => !b == a) = l :=
      List.filter_sublist.eq_of_length (by omega)
    have new : a ∉ l := fun mem => by
      have := List.filter_eq_self.mp every a mem
      simp at this
    rw [every] at all
    exact List.nodup_cons.mpr ⟨new, ih all⟩

namespace Value

variable {axis v : Value} {rank n : Nat} {axes : List Nat}

/-- The axes that a sum runs along are distinct axes of what is summed. -/
theorem sumAxes_spec (h : sumAxes rank axis = .ok axes) : axes.Nodup ∧ ∀ k ∈ axes, k < rank := by
  have one : ∀ v : Value, (do axisAmong rank (← v.axisNumber)) = .ok axes →
      axes.Nodup ∧ ∀ k ∈ axes, k < rank := by
    intro v h
    obtain ⟨i, -, h⟩ := ok_of_bind h
    unfold axisAmong at h
    split at h
    next k found =>
      cases h
      simpa using (locate_eq_some_iff.mp found).1
    next =>
      split at h
      · cases h
        simp
      · cases h
  unfold sumAxes at h
  split at h
  · cases h
    exact ⟨List.nodup_range, fun k hk => List.mem_range.mp hk⟩
  · obtain ⟨ks, named, h⟩ := ok_of_bind h
    split at h
    next distinct =>
      cases h
      refine ⟨nodup_of_eraseDups distinct, fun k hk => ?_⟩
      obtain ⟨v, -, found⟩ := forall₂_mem_right (forall₂_of_mapM named) k hk
      obtain ⟨i, -, found⟩ := ok_of_bind found
      split at found
      next place =>
        cases found
        exact (locate_eq_some_iff.mp place).1
      next => cases found
    next => cases h
  · exact one _ h

/-- What kernels find axes in: no axis, a plain number that names one, or a tuple. -/
inductive ListsAxes (rank : Nat) : Value → Prop where
  | all : ListsAxes rank .none
  | one (i : Int) : rank ≠ 0 → ListsAxes rank (.int i)
  | several (l : List Value) : ListsAxes rank (.tuple l)

/-- A value and the axes that it names: all of them, one, or distinct ones in any order. Negative numbers
count from the last axis. -/
inductive Names (rank : Nat) : Value → List Nat → Prop where
  | all : Names rank .none (List.range rank)
  | one {i : Int} {k : Nat} : locate rank i = some k → Names rank (.int i) [k]
  | several {is : List Int} {ks : List Nat} : List.Forall₂ (fun i k => locate rank i = some k) is ks →
    ks.Nodup → Names rank (.tuple (is.map .int)) ks

theorem Names.listsAxes (h : axis.Names rank axes) : axis.ListsAxes rank := by
  cases h with
  | all => exact .all
  | one place =>
    obtain ⟨bound, -⟩ := locate_eq_some_iff.mp place
    exact .one _ (Nat.ne_of_gt (Nat.zero_lt_of_lt bound))
  | several => exact .several _

/-- Numbers that name axes are within the range of half words. -/
theorem axisNumber_of_locate {i : Int} {k : Nat} (place : locate rank i = some k)
    (small : rank ≤ Shape.maximalRank) : (Value.int i).axisNumber = .ok i := by
  obtain ⟨bound, which⟩ := locate_eq_some_iff.mp place
  have limit : Shape.maximalRank = 64 := rfl
  have word : fitsWord i = true := fitsWord_iff.mpr (by omega)
  have half : fitsHalfWord i = true := by
    have most : Int.pow 2 (Width.w32.bits - 1) = 2147483648 := rfl
    simp only [fitsHalfWord, ElementType.holds, most, Bool.and_eq_true, decide_eq_true_eq]
    omega
  simp only [axisNumber, wholeNumber?, word, half, Bool.not_true, Bool.false_eq_true, if_false, if_true]

theorem Names.sumAxes (h : axis.Names rank axes) (small : rank ≤ Shape.maximalRank) :
    sumAxes rank axis = .ok axes := by
  cases h with
  | all => rfl
  | one place =>
    refine bind_eq_of_ok (axisNumber_of_locate place small) ?_
    rw [axisAmong, place]
  | @several is _ named distinct =>
    have every : axes.eraseDups.length = axes.length := by rw [eraseDups_of_nodup distinct]
    refine bind_eq_of_ok ?_ (if_pos every)
    clear distinct every
    induction named with
    | nil => rfl
    | cons place _ ih =>
      rw [List.map_cons, List.mapM_cons]
      refine bind_eq_of_ok (bind_eq_of_ok (axisNumber_of_locate place small) ?_)
        (bind_eq_of_ok ih rfl)
      rw [place]
      rfl

/-- Whole numbers that are not plain ones list nothing. -/
theorem items_of_wholeNumber? {n : Int} (h : v.wholeNumber? = some n) :
    v = .int n ∨ v.isTyped = true ∧ v.items = .error .operandType := by
  have rows : ∀ a : TypedArray, a.entries.rank = 0 →
      (Value.array a).isTyped = true ∧ (Value.array a).items = .error .operandType := by
    intro a flat
    refine ⟨rfl, ?_⟩
    have axes : (Cells.elements a).shape = [] := List.eq_nil_of_length_eq_zero flat
    rw [Value.items, rowsOf, axes]
  unfold wholeNumber? at h
  split at h
  · cases h
    exact .inl rfl
  · exact .inr ⟨rfl, rfl⟩
  · exact .inr ⟨rfl, rfl⟩
  · split at h
    next flat => exact .inr (rows _ flat)
    next => cases h
  · split at h
    next flat => exact .inr (rows _ flat)
    next => cases h
  · cases h

end Value

namespace Kernel

open Value

variable {axis : Value} {rank : Nat} {axes : List Nat}

theorem axisRemainder_of_wholeNumber? {v : Value} {n : Int} (h : v.wholeNumber? = some n) :
    axisRemainder rank v = .ok (some (n % (rank : Int))) := by
  cases v with
  | int m =>
    cases h
    rfl
  | scalar s =>
    obtain ⟨t, x⟩ := s
    cases t <;> cases h <;> rfl
  | array a => simp only [axisRemainder, index?, h]
  | _ => cases h

theorem wholeNumber?_of_axisNumber {v : Value} {n : Int} (h : v.axisNumber = .ok n) :
    v.wholeNumber? = some n := by
  unfold axisNumber at h
  split at h
  next m whole =>
    split at h
    · cases h
    · split at h
      · cases h
        exact whole
      · cases h
  next => cases h

/-- Kernels find the axes that a sum runs along. -/
theorem axisNumbers_of_sumAxes (lists : axis.ListsAxes rank) (named : sumAxes rank axis = .ok axes) :
    axisNumbers axis rank = .ok (axes.map fun k => some (Int.ofNat k)) := by
  -- where there are axes, a number that names one is it modulo their number
  have remainder : ∀ {v : Value} {i : Int} {k : Nat}, v.axisNumber = .ok i →
      locate rank i = some k →
      (if rank = 0 then .ok v.index? else axisRemainder rank v) = .ok (some (Int.ofNat k)) := by
    intro v i k number place
    obtain ⟨bound, -⟩ := locate_eq_some_iff.mp place
    rw [if_neg (Nat.ne_of_gt (Nat.zero_lt_of_lt bound)),
      axisRemainder_of_wholeNumber? (wholeNumber?_of_axisNumber number), emod_of_locate place]
    rfl
  cases lists with
  | all => cases named; rfl
  | one i pos =>
    obtain ⟨j, number, place⟩ := ok_of_bind named
    unfold axisAmong at place
    split at place
    next k found =>
      cases place
      change [Value.int i].mapM (fun item =>
        if rank = 0 then .ok item.index? else axisRemainder rank item) = _
      rw [List.mapM_cons]
      exact bind_eq_of_ok (remainder number found) rfl
    next =>
      rw [if_neg fun flat => pos flat.1] at place
      cases place
  | several l =>
    obtain ⟨ks, located, distinct⟩ := ok_of_bind named
    split at distinct
    next =>
      cases distinct
      refine mapM_map_of_mapM (fun v k located => ?_) located
      obtain ⟨i, number, place⟩ := ok_of_bind located
      split at place
      next found =>
        cases place
        exact remainder number found
      next => cases place
    next => cases distinct

/-- Kernels find no axes where a sum does but no plain value lists them. -/
theorem axisNumbers_of_not_listsAxes (lists : ¬ axis.ListsAxes rank)
    (named : sumAxes rank axis = .ok axes) :
    (rank = 0 ∧ ∃ i, axis = .int i) ∨ axisNumbers axis rank = .error .operandType := by
  have whole : ∃ n, axis.wholeNumber? = some n := by
    unfold sumAxes at named
    split at named
    · exact absurd .all lists
    · exact absurd (.several _) lists
    · obtain ⟨n, number, -⟩ := ok_of_bind named
      exact ⟨n, wholeNumber?_of_axisNumber number⟩
  obtain ⟨n, whole⟩ := whole
  rcases items_of_wholeNumber? whole with rfl | ⟨typed, items⟩
  · refine .inl ⟨?_, n, rfl⟩
    by_contra pos
    exact lists (.one n pos)
  · refine .inr ?_
    cases axis with
    | scalar | array | objects => exact congrArg (· >>= List.mapM _) items
    | _ => cases typed

end Kernel

end Backprop
