import Mathlib
import Backprop.Kernel.Arithmetic
import Backprop.Proofs.Arena
import Backprop.Proofs.Liveness
import Backprop.Proofs.Words
/-!
# Broadcasting and its adjoint

* `Kernel.unbroadcast_words`: undoing a broadcast adds up, for each entry of the operand, exactly the
  entries that were read from it.
* `Kernel.Entrywise` are sums, differences and products of broadcast operands.
  `Entrywise.backward_adjoint`: for arrays of words their backward kernels are the adjoints of what the
  operations do to small changes of the operands.
-/

namespace Backprop

namespace Shape

variable {s S : Shape}

/-- Entries that are not moved. -/
theorem sum_push_self {α : Type} [AddCommMonoid α] {g : List Nat → List Nat} {i : List Nat}
    (stay : ∀ j ∈ s.box, g j = j) (hi : i ∈ s.box) (f : List Nat → α) :
    ∑ j ∈ s.box with g j = i, f j = f i := by
  have one : s.box.filter (fun j => g j = i) = {i} := by
    ext j
    rw [Finset.mem_filter, Finset.mem_singleton]
    constructor
    · rintro ⟨hj, rfl⟩
      exact (stay j hj).symm
    · rintro rfl
      exact ⟨hi, stay j hi⟩
  rw [one, Finset.sum_singleton]

theorem getElem_withAt (x : Nat) (axes l : List Nat) (k : Nat) (hk : k < (withAt x axes l).length) :
    (withAt x axes l)[k] = if axes.contains k then x else l.get ⟨k, by simpa [withAt] using hk⟩ := by
  simp [withAt]

end Shape

/-- Small whole numbers are within the range of words and of half words. -/
theorem ElementType.holds_of_small {w : Width} (wide : 32 ≤ w.bits) {k : Nat} (small : k < 64) :
    (ElementType.int w).holds (Int.ofNat k) = true := by
  have high : (64 : Int) ≤ Int.pow 2 (w.bits - 1) := by
    change (64 : Int) ≤ 2 ^ (w.bits - 1)
    calc (64 : Int) = 2 ^ 6 := rfl
      _ ≤ 2 ^ (w.bits - 1) := pow_le_pow_right₀ (by norm_num) (by omega)
  unfold ElementType.holds
  simp only [Bool.and_eq_true, decide_eq_true_eq, Int.ofNat_eq_natCast]
  constructor <;> omega

namespace Value

/-- Distinct axes that an array has can be summed along. -/
theorem sumAxes_axisTuple {rank : Nat} {axes : List Nat} (nodup : axes.Nodup)
    (bound : ∀ k ∈ axes, k < rank) (small : rank ≤ Shape.maximalRank) :
    sumAxes rank (Kernel.axisTuple axes) = .ok axes := by
  unfold sumAxes Kernel.axisTuple
  dsimp only
  refine bind_eq_of_ok (mapM_map_of_eq_ok fun k hk => ?_) ?_
  · have low : k < 64 := Nat.lt_of_lt_of_le (bound k hk) small
    have word : fitsWord (Int.ofNat k) = true :=
      ElementType.holds_of_small (w := .w64) (by decide) low
    have half : fitsHalfWord (Int.ofNat k) = true :=
      ElementType.holds_of_small (w := .w32) (by decide) low
    have number : axisNumber (.int (Int.ofNat k)) = .ok (Int.ofNat k) := by
      simp only [axisNumber, wholeNumber?, word, half, Bool.not_true, Bool.false_eq_true, if_false,
        if_true]
    have place : locate rank (Int.ofNat k) = some k := by simp [locate, bound k hk]
    refine bind_eq_of_ok number ?_
    rw [place]
    rfl
  · exact if_pos (by rw [eraseDups_of_nodup nodup])

end Value

namespace Kernel

open Shape

variable {d : Value} {s S back : Shape} {f : List Nat → Word}

/-! ### Undoing a broadcast -/

theorem mem_stretchedAxes {k : Nat} : k ∈ stretchedAxes s S ↔
    ∃ n, s[k]? = some 1 ∧ S[k]? = some n ∧ n ≠ 1 := by
  unfold stretchedAxes
  rw [List.mem_filterMap]
  constructor
  · rintro ⟨⟨⟨m, n⟩, axis⟩, mem, found⟩
    have place := List.mk_mem_zipIdx_iff_getElem?.mp mem
    obtain ⟨hm, hn⟩ := List.getElem?_zip_eq_some.mp place
    simp only [Bool.and_eq_true, decide_eq_true_eq, bne_iff_ne] at found
    split at found
    next both =>
      cases found
      exact ⟨n, both.1 ▸ hm, hn, both.2⟩
    next => cases found
  · rintro ⟨n, hm, hn, ne⟩
    refine ⟨((1, n), k), List.mk_mem_zipIdx_iff_getElem?.mpr ?_, by simp [ne]⟩
    exact List.getElem?_zip_eq_some.mpr ⟨hm, hn⟩

theorem nodup_stretchedAxes (s S : Shape) : (stretchedAxes s S).Nodup := by
  have go : ∀ (l : List (Nat × Nat)) (first : Nat),
      ((l.zipIdx first).filterMap fun p =>
        if p.1.1 = 1 && p.1.2 != 1 then some p.2 else none).Sublist (List.range' first l.length) := by
    intro l
    induction l with
    | nil => exact fun _ => List.Sublist.slnil
    | cons p l ih =>
      intro first
      rw [List.zipIdx_cons, List.filterMap_cons, List.length_cons, List.range'_succ]
      split
      next => exact (ih (first + 1)).cons first
      next axis found =>
        obtain rfl : first = axis := by
          dsimp only at found
          split at found
          · exact Option.some.inj found
          · cases found
        exact (ih (first + 1)).cons_cons first
  exact (List.nodup_range' ..).sublist (go (s.zip S) 0)

section
variable (stretch : List.Forall₂ (fun n N => n = N ∨ n = 1) s back)
include stretch

/-- Reducing along the stretched axes gives the shape of the operand. -/
theorem withAt_stretchedAxes : withAt 1 (stretchedAxes s back) back = s := by
  have length := stretch.length_eq
  refine List.ext_getElem (by simpa [withAt] using length.symm) fun k hk hk' => ?_
  rw [getElem_withAt]
  have here := stretch.get hk' (by omega)
  simp only [List.get_eq_getElem] at here
  split
  next stretched =>
    obtain ⟨n, one, -⟩ := mem_stretchedAxes.mp (List.contains_iff_mem.mp stretched)
    rw [List.getElem?_eq_getElem hk'] at one
    exact (Option.some.inj one).symm
  next kept =>
    rcases here with same | one
    · exact same.symm
    · by_contra ne
      refine kept (List.contains_iff_mem.mpr (mem_stretchedAxes.mpr ⟨back[k], ?_, ?_, ?_⟩))
      · rw [List.getElem?_eq_getElem hk', one]
      · exact List.getElem?_eq_getElem _
      · rw [one] at ne
        exact ne

/-- An entry is counted where the operand is read. -/
theorem withAt_stretchedAxes_eq {i : List Nat} (hi : i ∈ back.box) :
    withAt 0 (stretchedAxes s back) i = s.zipWith (fun n k => if n = 1 then 0 else k) i := by
  have length := stretch.length_eq
  have length' := length_of_mem_box hi
  refine List.ext_getElem (by simp [withAt]; omega) fun k hk hk' => ?_
  have ofI : k < i.length := by simpa [withAt] using hk
  have ofBack : k < back.length := length' ▸ ofI
  have ofS : k < s.length := length ▸ ofBack
  have inside := (mem_box.mp hi).get ofI ofBack
  rw [getElem_withAt, List.getElem_zipWith]
  simp only [List.get_eq_getElem] at inside ⊢
  split
  next stretched =>
    obtain ⟨n, one, -⟩ := mem_stretchedAxes.mp (List.contains_iff_mem.mp stretched)
    rw [List.getElem?_eq_getElem ofS] at one
    rw [if_pos (Option.some.inj one)]
  next kept =>
    split
    next one =>
      by_contra ne
      refine kept (List.contains_iff_mem.mpr (mem_stretchedAxes.mpr ⟨back[k], ?_, ?_, ?_⟩))
      · rw [List.getElem?_eq_getElem ofS, one]
      · exact List.getElem?_eq_getElem _
      · intro single
        rw [single] at inside
        omega
    next => rfl

end

/-- Adding up the axes in front of those of the operand. -/
theorem dropAxes_words {front : Shape} (h : d.Words (front ++ back) f)
    (small : (front ++ back).length ≤ Shape.maximalRank) :
    ∃ r, (if front.length = 0 then pure d
        else d.sum (axisTuple (List.range front.length)) (.bool false)) = .ok r ∧
      r.Words back fun k => ∑ j ∈ box (front ++ back) with j.drop front.length = k, f j := by
  by_cases none : front.length = 0
  · obtain rfl := List.eq_nil_of_length_eq_zero none
    refine ⟨d, if_pos rfl, Value.Words.congr h fun i hi => ?_⟩
    exact (sum_push_self (fun _ _ => rfl) hi f).symm
  · have bound : ∀ k ∈ List.range front.length, k < (front ++ back).length := by
      intro k hk
      rw [List.length_append]
      have := List.mem_range.mp hk
      omega
    obtain ⟨r, run, words⟩ :=
      Value.sum_words h false (Value.sumAxes_axisTuple List.nodup_range bound small)
    refine ⟨r, by rw [if_neg none, run], ?_⟩
    have shape : (front ++ back).reduce (List.range front.length) false = back := by
      rw [Shape.reduce, if_neg Bool.false_ne_true, without_range, List.drop_left]
    rw [shape] at words
    refine words.congr fun i _ => Finset.sum_congr (Finset.filter_congr fun j _ => ?_) fun _ _ => rfl
    rw [reducePosition, if_neg Bool.false_ne_true, without_range]

/-- Adding up along stretched axes. -/
theorem shrinkAxes_words (h : d.Words back f)
    (stretch : List.Forall₂ (fun n N => n = N ∨ n = 1) s back)
    (small : back.length ≤ Shape.maximalRank) :
    ∃ r, (if (stretchedAxes s back).isEmpty then pure d
        else d.sum (axisTuple (stretchedAxes s back)) (.bool true)) = .ok r ∧
      r.Words s fun i =>
        ∑ j ∈ back.box with s.zipWith (fun n k => if n = 1 then 0 else k) j = i, f j := by
  have shape := withAt_stretchedAxes stretch
  by_cases none : stretchedAxes s back = []
  · have stay : ∀ l : List Nat, ∀ x, withAt x [] l = l := fun l x => by simp [withAt]
    rw [none, stay] at shape
    subst shape
    refine ⟨d, if_pos (by rw [none]; rfl), Value.Words.congr h fun i hi => ?_⟩
    exact (sum_push_self (fun _ hj => zipWith_self hj) hi f).symm
  · have bound : ∀ k ∈ stretchedAxes s back, k < back.length := by
      intro k hk
      obtain ⟨n, -, place, -⟩ := mem_stretchedAxes.mp hk
      exact (List.getElem?_eq_some_iff.mp place).1
    obtain ⟨r, run, words⟩ :=
      Value.sum_words h true (Value.sumAxes_axisTuple (nodup_stretchedAxes s back) bound small)
    refine ⟨r, by rw [if_neg (by simpa using none), run], ?_⟩
    rw [Shape.reduce, if_pos rfl, shape] at words
    refine words.congr fun i _ => Finset.sum_congr (Finset.filter_congr fun j hj => ?_) fun _ _ => rfl
    rw [reducePosition, if_pos rfl, withAt_stretchedAxes_eq stretch hj]

/-- Undoing a broadcast adds up the entries that were read from one entry of the operand. -/
theorem unbroadcast_words {like : Value} (h : d.Words S f) (shape : like.shape = s)
    (stretch : Stretches s S) (small : S.length ≤ Shape.maximalRank) :
    ∃ r, unbroadcast d like = .ok r ∧
      r.Words s fun i => ∑ j ∈ S.box with s.project j = i, f j := by
  unfold unbroadcast
  simp only [shape, h.shape]
  by_cases same : S = s
  · subst same
    refine ⟨d, if_pos rfl, Value.Words.congr h fun i hi => ?_⟩
    exact (sum_push_self (fun _ hj => project_self hj) hi f).symm
  · rw [if_neg same, if_neg (Nat.not_lt.mpr stretch.length_le)]
    obtain ⟨front, back, rfl, stretch⟩ := stretch
    have length := stretch.length_eq
    have extra : (front ++ back).length - s.length = front.length := by
      rw [List.length_append, length, Nat.add_sub_cancel]
    obtain ⟨d', first, words⟩ := dropAxes_words h small
    have small' : back.length ≤ Shape.maximalRank := by
      rw [List.length_append] at small
      omega
    obtain ⟨r, second, words'⟩ := shrinkAxes_words words stretch small'
    refine ⟨r, ?_, words'.congr fun i _ => ?_⟩
    · rw [← words.shape] at second
      rw [extra]
      exact bindIf_eq_of_ok first second
    · have inside : ∀ j ∈ (front ++ back).box, j.drop front.length ∈ back.box := by
        intro j hj
        obtain ⟨p, hp, q, hq, rfl⟩ := mem_box_append.mp hj
        rwa [← length_of_mem_box hp, List.drop_left]
      rw [sum_push_push inside]
      refine Finset.sum_congr (Finset.filter_congr fun j hj => ?_) fun _ _ => rfl
      obtain ⟨p, hp, q, hq, rfl⟩ := mem_box_append.mp hj
      rw [project_append ((length_of_mem_box hq).trans length.symm), ← length_of_mem_box hp,
        List.drop_left]

/-! ### Sums, differences and products -/

/-- A call with three positional arguments. -/
theorem ternaryKernel_eq (p q r : Parameter) (f : Value → Value → Value → Except Error Value)
    (x y z : Value) : ternaryKernel p q r f [x, y, z] [] = f x y z := rfl

/-- Operations on the entries of two operands, with a backward kernel each. -/
inductive Entrywise where
  | add | sub | mul

namespace Entrywise

def backward : Entrywise → Kernel
  | add => addBackward
  | sub => subBackward
  | mul => mulBackward

/-- How the result changes when the operands `a` and `b` change by little, to first order. -/
def differential : Entrywise → Value → Value → Value → Value → Except Error Value
  | add, _, _, u, v => u.add v
  | sub, _, _, u, v => u.sub v
  | mul, a, b, u, v => do (← u.mul b).add (← a.mul v)

/-- The factors that changes of entries of the operands get, for the entries themselves. -/
def factors : Entrywise → Word → Word → Word × Word
  | add, _, _ => (1, 1)
  | sub, _, _ => (1, -1)
  | mul, x, y => (y, x)

variable {a b dy u v : Value} {s t : Shape} {f g h k l : List Nat → Word}

section
variable (fits : Shape.broadcast? s t = some S)
include fits

/-- What backward kernels return: the derivative of the result times a factor, with the broadcast
undone. -/
theorem backward_words (op : Entrywise) (ha : a.Entries s f) (hb : b.Entries t g)
    (hdy : dy.Words S h) (small : S.length ≤ Shape.maximalRank) :
    ∃ da db, op.backward [a, b, dy] [] = .ok (.tuple [da, db]) ∧
      (da.Words s fun i => ∑ j ∈ S.box with s.project j = i,
        h j * (op.factors (f (s.project j)) (g (t.project j))).1) ∧
      (db.Words t fun i => ∑ j ∈ S.box with t.project j = i,
        h j * (op.factors (f (s.project j)) (g (t.project j))).2) := by
  obtain ⟨left, right⟩ := stretches_of_broadcast? fits
  cases op with
  | add =>
    have same : dy.Words S fun j => h j * 1 := hdy.congr fun j _ => (mul_one _).symm
    obtain ⟨da, first, words⟩ := unbroadcast_words same ha.shape left small
    obtain ⟨db, second, words'⟩ := unbroadcast_words same hb.shape right small
    refine ⟨da, db, (ternaryKernel_eq ..).trans ?_, words, words'⟩
    exact bind_eq_of_ok first (bind_eq_of_ok second rfl)
  | sub =>
    have same : dy.Words S fun j => h j * 1 := hdy.congr fun j _ => (mul_one _).symm
    obtain ⟨ny, negated, hny⟩ := Value.neg_words hdy
    have other : ny.Words S fun j => h j * -1 := hny.congr fun j _ => (mul_neg_one _).symm
    obtain ⟨da, first, words⟩ := unbroadcast_words same ha.shape left small
    obtain ⟨db, second, words'⟩ := unbroadcast_words other hb.shape right small
    refine ⟨da, db, (ternaryKernel_eq ..).trans ?_, words, words'⟩
    exact bind_eq_of_ok first (bind_eq_of_ok negated (bind_eq_of_ok second rfl))
  | mul =>
    obtain ⟨p, byRight, hp⟩ :=
      Value.mul_words hdy.entries hb (.inl hdy.words) right.broadcast?.2
    obtain ⟨q, byLeft, hq⟩ := Value.mul_words hdy.entries ha (.inl hdy.words) left.broadcast?.2
    have hp' : p.Words S fun j => h j * g (t.project j) :=
      hp.congr fun j hj => by rw [project_self hj]
    have hq' : q.Words S fun j => h j * f (s.project j) :=
      hq.congr fun j hj => by rw [project_self hj]
    obtain ⟨da, first, words⟩ := unbroadcast_words hp' ha.shape left small
    obtain ⟨db, second, words'⟩ := unbroadcast_words hq' hb.shape right small
    refine ⟨da, db, (ternaryKernel_eq ..).trans ?_, words, words'⟩
    refine bind_eq_of_ok byRight (bind_eq_of_ok first ?_)
    exact bind_eq_of_ok byLeft (bind_eq_of_ok second rfl)

/-- The change of the result adds up the changes of the entries that it is made of, times their
factors. -/
theorem differential_words (op : Entrywise) (ha : a.Entries s f) (hb : b.Entries t g)
    (hu : u.Words s k) (hv : v.Words t l) :
    ∃ D, op.differential a b u v = .ok D ∧ D.Words S fun j =>
      (op.factors (f (s.project j)) (g (t.project j))).1 * k (s.project j) +
        (op.factors (f (s.project j)) (g (t.project j))).2 * l (t.project j) := by
  cases op with
  | add =>
    obtain ⟨D, run, words⟩ := Value.add_words hu.entries hv.entries (.inl hu.words) fits
    exact ⟨D, run, words.congr fun j _ => by simp [factors]⟩
  | sub =>
    obtain ⟨D, run, words⟩ := Value.sub_words hu.entries hv.entries (.inl hu.words) fits
    exact ⟨D, run, words.congr fun j _ => by simp [factors, sub_eq_add_neg]⟩
  | mul =>
    obtain ⟨p, first, hp⟩ := Value.mul_words hu.entries hb (.inl hu.words) fits
    obtain ⟨q, second, hq⟩ := Value.mul_words ha hv.entries (.inr hv.words) fits
    obtain ⟨D, run, words⟩ :=
      Value.add_words hp.entries hq.entries (.inl hp.words) (broadcast?_self S)
    refine ⟨D, bind_eq_of_ok first (bind_eq_of_ok second run), words.congr fun j hj => ?_⟩
    rw [project_self hj, mul_comm (k _)]
    rfl

end

/-- For arrays of words, and plain whole numbers in the place of one of them, backward kernels return
derivatives in the shapes of the operands. Each of their entries adds up exactly the entries that were
read from it, and they are the adjoint of how the result changes with the operands. No array has more
than `Shape.maximalRank` axes. -/
theorem backward_adjoint (op : Entrywise) (ha : a.IsOperand) (hb : b.IsOperand)
    (ranka : a.shape.length ≤ Shape.maximalRank)
    (rankb : b.shape.length ≤ Shape.maximalRank)
    (fits : Shape.broadcast? a.shape b.shape = some S) (hdy : dy.IsWords) (shape : dy.shape = S) :
    ∃ da db, op.backward [a, b, dy] [] = .ok (.tuple [da, db]) ∧
      (da.Words a.shape fun i => ∑ j ∈ S.box with a.shape.project j = i, dy.wordAt j *
        (op.factors (a.wordAt (a.shape.project j)) (b.wordAt (b.shape.project j))).1) ∧
      (db.Words b.shape fun i => ∑ j ∈ S.box with b.shape.project j = i, dy.wordAt j *
        (op.factors (a.wordAt (a.shape.project j)) (b.wordAt (b.shape.project j))).2) ∧
      ∀ u v : Value, u.IsWords → u.shape = a.shape → v.IsWords → v.shape = b.shape →
        ∃ D x y, op.differential a b u v = .ok D ∧ D.shape = S ∧ dy.inner D = .ok (.word (x + y)) ∧
          da.inner u = .ok (.word x) ∧ db.inner v = .ok (.word y) := by
  have small : S.length ≤ Shape.maximalRank := by
    rw [length_of_broadcast? fits]
    omega
  have hdy' : dy.Words S dy.wordAt := shape ▸ hdy.entries
  obtain ⟨left, right⟩ := stretches_of_broadcast? fits
  obtain ⟨da, db, run, hda, hdb⟩ := backward_words fits op ha.entries hb.entries hdy' small
  refine ⟨da, db, run, hda, hdb, fun u v hu us hv vs => ?_⟩
  have hu' : u.Words a.shape u.wordAt := us ▸ hu.entries
  have hv' : v.Words b.shape v.wordAt := vs ▸ hv.entries
  obtain ⟨D, changed, hD⟩ := differential_words fits op ha.entries hb.entries hu' hv'
  have total := Value.inner_words hdy' hD
  have first := Value.inner_words hda hu'
  have second := Value.inner_words hdb hv'
  rw [sum_push fun _ hj => left.project_mem hj] at first
  rw [sum_push fun _ hj => right.project_mem hj] at second
  refine ⟨D, _, _, changed, hD.shape, ?_, first, second⟩
  rw [total, ← Finset.sum_add_distrib]
  simp only [mul_add, mul_assoc]

/-- A column times a row, both of which are stretched. -/
theorem backward_adjoint_outer :
    ∃ da db D x y, mulBackward [.counting [2, 1], .counting [3], .counting [2, 3]] [] =
        .ok (.tuple [da, db]) ∧ da.shape = [2, 1] ∧ db.shape = [3] ∧
      mul.differential (.counting [2, 1]) (.counting [3]) (.counting [2, 1]) (.counting [3]) = .ok D ∧
      Value.inner (.counting [2, 3]) D = .ok (.word (x + y)) ∧
      da.inner (.counting [2, 1]) = .ok (.word x) ∧ db.inner (.counting [3]) = .ok (.word y) := by
  have fits : Shape.broadcast? [2, 1] [3] = some [2, 3] := by decide
  obtain ⟨da, db, run, hda, hdb, adjoint⟩ :=
    backward_adjoint mul (.words (Value.counting_isWords [2, 1])) (.words (Value.counting_isWords [3]))
      (by decide) (by decide) fits (Value.counting_isWords [2, 3]) rfl
  obtain ⟨D, x, y, changed, -, total, first, second⟩ :=
    adjoint (.counting [2, 1]) (.counting [3]) (Value.counting_isWords _) rfl
      (Value.counting_isWords _) rfl
  exact ⟨da, db, D, x, y, run, hda.shape, hdb.shape, changed, total, first, second⟩

end Entrywise

end Kernel

end Backprop
