import Mathlib
import Backprop.Kernel.Reduction
import Backprop.Proofs.Axes
import Backprop.Proofs.Typed
/-!
# Reductions and their derivatives

* `Value.Stands.insertAxes` puts reduced axes back one by one, from the first to the last.
* `Kernel.expandReduced_eq`: stretched back, every entry is zero plus the entry that it was counted in.
* `Kernel.reduction_gradients`: what sums and means and their backward kernels return, for axes that are
  in range.
* `Kernel.reductions_accept`: which calls each of the four accepts, once the sum accepts its own.
-/

namespace Backprop

/-- What every array fulfils: it has not too many axes, and those that are not empty can be counted in
bytes. -/
structure TypedArray.Storable (a : TypedArray) : Prop where
  rank : a.shape.length ≤ Shape.maximalRank
  addressable : Value.isAddressable (.elements a) a.shape = true

/-- The number of entries that are reduced to one, at least one. -/
def Shape.reducedCount (axes : List Nat) (s : Shape) : Nat :=
  max ((axes.map fun k => s.getD k 0).foldl (· * ·) 1) 1

theorem ElementType.bytes_pos (t : ElementType) : 1 ≤ t.bytes := by
  cases t with
  | bool => exact le_rfl
  | int w => cases w <;> decide
  | uint w => cases w <;> decide
  | float p => cases p <;> decide
  | complex p => cases p <;> decide

namespace Shape

variable {s : Shape} {axes : List Nat}

theorem foldl_mul (l : List Nat) (n : Nat) : l.foldl (· * ·) n = n * l.prod := by
  induction l generalizing n with
  | nil => simp
  | cons x l ih => rw [List.foldl_cons, ih, List.prod_cons, mul_assoc]

theorem one_le_of_mem_filter {n : Nat} (mem : n ∈ s.filter (· != 0)) : 1 ≤ n := by
  have := (List.mem_filter.mp mem).2
  simp only [bne_iff_ne] at this
  omega

theorem one_le_prod_filter (s : Shape) : 1 ≤ (s.filter (· != 0)).prod :=
  List.one_le_prod_of_one_le fun _ mem => one_le_of_mem_filter mem

/-- Distinct axes have no more entries than all axes that are not empty. -/
theorem reducedCount_le (nodup : axes.Nodup) (bound : ∀ k ∈ axes, k < s.length) :
    reducedCount axes s ≤ (s.filter (· != 0)).prod := by
  rw [reducedCount, foldl_mul, one_mul]
  refine max_le ?_ (one_le_prod_filter s)
  by_cases empty : 0 ∈ axes.map fun k => s.getD k 0
  · rw [List.prod_eq_zero empty]
    exact Nat.zero_le _
  · have every : s = (List.range s.length).map fun k => s.getD k 0 := by
      refine List.ext_getElem (by simp) fun k hk hk' => ?_
      simp [hk]
    have part : (axes.map fun k => s.getD k 0).Subperm s := by
      obtain ⟨l, same, sub⟩ := nodup.subperm fun k hk => List.mem_range.mpr (bound k hk)
      have listed := sub.map fun k => s.getD k 0
      rw [← every] at listed
      exact ⟨_, same.map _, listed⟩
    have kept : (axes.map fun k => s.getD k 0).filter (· != 0) = axes.map fun k => s.getD k 0 := by
      refine List.filter_eq_self.mpr fun n hn => ?_
      simp only [bne_iff_ne]
      rintro rfl
      exact empty hn
    obtain ⟨l, same, sub⟩ := part.filter (· != 0)
    rw [kept] at same
    rw [← same.prod_eq]
    exact sub.prod_le_prod' fun _ mem => one_le_of_mem_filter mem

end Shape

namespace TypedArray.Storable

variable {a : TypedArray} (h : a.Storable)
include h

/-- The axes that are not empty have fewer entries than a machine word counts. -/
theorem prod_lt : (a.shape.filter (· != 0)).prod < 2 ^ 63 := by
  have bytes : 1 ≤ Value.entrySize (.elements a) := a.elementType.bytes_pos
  have word := h.addressable
  rw [Value.isAddressable, Shape.foldl_mul] at word
  have counted := (fitsWord_iff.mp word).2
  have := Nat.le_mul_of_pos_left (a.shape.filter (· != 0)).prod bytes
  omega

theorem reducedCount_lt {axes : List Nat} (nodup : axes.Nodup)
    (bound : ∀ k ∈ axes, k < a.shape.length) : Shape.reducedCount axes a.shape < 2 ^ 63 :=
  (Shape.reducedCount_le nodup bound).trans_lt h.prod_lt

end TypedArray.Storable

/-! ### Axes put back -/

namespace Value

open Shape

/-- A new axis of length one. -/
theorem Stands.insertAxis {v : Value} {t : ElementType} {e : Tensor t.Carrier} (h : v.Stands ⟨t, e⟩)
    {k : Nat} (bound : k ≤ e.shape.length) (room : e.shape.length < maximalRank) :
    v.insertAxis (Int.ofNat k) = .ok (.array ⟨t, e.insertAxis k⟩) := by
  have rank : (Cells.elements ⟨t, e⟩).rank = e.shape.length := rfl
  have place : locate (e.shape.length + 1) (Int.ofNat k) = some k :=
    locate_eq_some_iff.mpr ⟨Nat.lt_succ_of_le bound, .inl rfl⟩
  refine bind_eq_of_ok h.cells ?_
  simp only [rank, place, room, if_true]
  rfl

/-- Axes are put back from the first to the last, each at its own number. -/
theorem Stands.insertAxes {t : ElementType} {ks : List Nat} : ∀ {v : Value} {e : Tensor t.Carrier}
    {l : Shape}, ks.Pairwise (· < ·) → (∀ k ∈ ks, k < l.length) → l.length ≤ maximalRank →
      v.Stands ⟨t, e⟩ → e.shape = without ks l →
        ∃ v' e', ks.foldlM (fun d k => d.insertAxis (Int.ofNat k)) v = .ok v' ∧
          v'.Stands ⟨t, e'⟩ ∧ e'.shape = withAt 1 ks l ∧
          ∀ i ∈ box (withAt 1 ks l), e'.get i = e.get (without ks i) := by
  induction ks with
  | nil =>
    intro v e l _ _ _ h shape
    have all : ∀ m : List Nat, without [] m = m := fun m => by simp [without]
    refine ⟨v, e, rfl, h, ?_, fun i _ => by rw [all]⟩
    rw [shape, all, withAt_nil]
  | cons k ks ih =>
    intro v e l sorted bound small h shape
    obtain ⟨least, sorted⟩ := List.pairwise_cons.mp sorted
    obtain ⟨hk, bound⟩ := List.forall_mem_cons.mp bound
    obtain ⟨place, back⟩ := insertIdx_without (x := 1) least hk
    have room : e.shape.length < maximalRank := by
      have grown := congrArg List.length back
      have fewer : (without ks (l.set k 1)).length ≤ l.length := by
        have part : (without ks (l.set k 1)).length ≤ (l.set k 1).length := length_without_le
        rwa [List.length_set] at part
      rw [List.length_insertIdx_of_le_length place] at grown
      rw [shape]
      omega
    have shape' : (e.insertAxis k).shape = without ks (l.set k 1) := by
      rw [← back, ← shape]
      rfl
    obtain ⟨v', e', run, stands, result, entries⟩ :=
      ih sorted (by simpa using bound) (by simpa using small) (.carries (.array ⟨t, e.insertAxis k⟩)) shape'
    have whole : withAt 1 (k :: ks) l = withAt 1 ks (l.set k 1) := withAt_cons
    rw [whole]
    refine ⟨v', e', ?_, stands, result, fun i hi => ?_⟩
    · rw [List.foldlM_cons]
      exact bind_eq_of_ok (h.insertAxis (shape ▸ place) room) run
    · have inside : without ks i ∈ box (e.shape.insertIdx k 1) := by
        rw [shape, back, ← without_withAt (x := 1)]
        exact without_mem_box hi
      rw [entries i hi, Tensor.insertAxis, Tensor.get_gather e inside, without_cons least]

end Value

/-! ### Stretching back -/

namespace Tensor

theorem ofFn_congr {α : Type} {s : Shape} {f g : List Nat → α} (same : ∀ i ∈ s.box, f i = g i) :
    ofFn s f = ofFn s g := by
  have entries : s.positions.map f = s.positions.map g :=
    List.map_congr_left fun i hi => same i (Shape.mem_box.mpr (Shape.mem_positions.mp hi))
  simp only [ofFn, entries]

end Tensor

namespace TypedArray

variable {t u : ElementType} {d e : Tensor t.Carrier}

@[simp] theorem shape_convertTo (a : TypedArray) : (a.convertTo u).shape = a.shape := by
  obtain ⟨t, e⟩ := a
  unfold convertTo
  dsimp only
  split
  next same =>
    cases same
    rfl
  next => rfl

/-- Entries that are equal are converted to equal ones. -/
theorem get_convertTo {i j : List Nat} (hi : i ∈ d.shape.box) (hj : j ∈ e.shape.box)
    (same : d.get i = e.get j) : (convertTo u ⟨t, d⟩).get i = (convertTo u ⟨t, e⟩).get j := by
  unfold convertTo
  dsimp only
  split
  next eq =>
    cases eq
    exact same
  next => rw [Tensor.get_map _ d hi, Tensor.get_map _ e hj, same]

theorem get_convertTo_zero {s : Shape} {i : List Nat} (zero : t.convert u t.zero = u.zero)
    (hi : i ∈ s.box) : (convertTo u ⟨t, .ofFn s fun _ => t.zero⟩).get i = u.zero := by
  unfold convertTo
  dsimp only
  split
  next eq =>
    cases eq
    exact Tensor.get_ofFn _ hi
  next =>
    refine (Tensor.get_map _ _ hi).trans ?_
    rw [Tensor.get_ofFn _ hi, zero]

end TypedArray

@[simp] theorem Precision.max_double (p : Precision) : p.max .double = .double := by
  cases p <;> rfl

@[simp] theorem Precision.double_max (p : Precision) : Precision.double.max p = .double := by
  cases p <;> rfl

namespace ElementType

/-- Doubles, and complex numbers made of them. -/
def IsDouble (t : ElementType) : Prop := t = .float64 ∨ t = .complex128

theorem isDouble_join (t : ElementType) : (t.join .float64).IsDouble := by
  cases t <;> simp [join, precision, float64, complex128, IsDouble, Precision.ofComplex]

/-- What holds the elements of such a type does not lose any of their digits. -/
theorem IsDouble.join {t : ElementType} (h : t.IsDouble) (r : ElementType) :
    (t.join r).IsDouble ∧ t.convert (t.join r) t.zero = (t.join r).zero := by
  rcases h with rfl | rfl
  · cases r with
    | bool => exact ⟨.inl rfl, rfl⟩
    | int size | uint size | float size => cases size <;> exact ⟨.inl rfl, rfl⟩
    | complex size => cases size <;> exact ⟨.inr rfl, rfl⟩
  · cases r with
    | bool => exact ⟨.inr rfl, rfl⟩
    | int size | uint size | float size | complex size => cases size <;> exact ⟨.inr rfl, rfl⟩

end ElementType

namespace Kernel

open Shape Value

variable {v dy axis keep : Value} {a d : TypedArray} {axes : List Nat} {k : Bool}

/-- The derivative of a sum: every entry is zero plus the entry that it was counted in. -/
def expanded (a d : TypedArray) (axes : List Nat) (keep : Bool) : TypedArray where
  elementType := (a.elementType.join .float64).join d.elementType
  entries := .ofFn a.shape fun i =>
    ElementType.add _ (ElementType.zero _) ((d.convertTo _).get (reducePosition axes keep i))

@[simp] theorem shape_expanded : (expanded a d axes k).shape = a.shape := rfl

/-- Zeros with entries added to them that stand at the same place apart from axes of length one. -/
theorem zeros_add {t r : ElementType} {s : Shape} {e : Tensor r.Carrier} (double : t.IsDouble)
    (h : v.Carries ⟨r, e⟩) (shape : e.shape = withAt 1 axes s) :
    Value.add (.array ⟨t, .ofFn s fun _ => t.zero⟩) v = .ok (TypedArray.collapse
      ⟨t.join r, .ofFn s fun i => ElementType.add _ (ElementType.zero _)
        ((TypedArray.convertTo _ ⟨r, e⟩).get (withAt 0 axes i))⟩) := by
  have zeros : Meets (.array ⟨t, .ofFn s fun _ => t.zero⟩) (.typed ⟨t, .ofFn s fun _ => t.zero⟩) :=
    .typed (.array _)
  have fits : Shape.broadcast?
      (TypedArray.convertTo (t.join r) ⟨t, .ofFn s fun _ => t.zero⟩).shape
      (TypedArray.convertTo (t.join r) ⟨r, e⟩).shape = some s := by
    rw [TypedArray.shape_convertTo, TypedArray.shape_convertTo]
    change Shape.broadcast? s e.shape = some s
    rw [shape]
    exact stretches_withAt.broadcast?.2
  refine (Operator.apply_eq (Operator.sequences_add zeros v) zeros (.typed h) rfl).trans ?_
  refine (Operator.entrywise_eq (ElementType.add (t.join r)) rfl rfl fits).trans ?_
  refine congrArg Except.ok (congrArg TypedArray.collapse (congrArg (TypedArray.mk _) ?_))
  refine Tensor.ofFn_congr fun i hi => ?_
  have zero := TypedArray.get_convertTo_zero (double.join r).2 hi
  rw [TypedArray.shape_convertTo, TypedArray.shape_convertTo]
  change ElementType.add _ ((TypedArray.convertTo (t.join r) ⟨t, _⟩).get (s.project i))
    ((TypedArray.convertTo (t.join r) ⟨r, e⟩).get (e.shape.project i)) = _
  rw [project_self hi, zero, shape, project_withAt hi]

theorem reducePosition_mem_box {s : Shape} {i : List Nat} (hi : i ∈ s.box) :
    reducePosition axes k i ∈ box (s.reduce axes k) := by
  cases k with
  | true => exact withAt_mem_box hi
  | false => exact without_mem_box hi

/-- The axes of a reduction in the order in which they are put back. -/
theorem sorted_axes (nodup : axes.Nodup) : ∃ ks, axes.Perm ks ∧ ks.Pairwise (· < ·) ∧
    (axes.map Int.ofNat).mergeSort (fun a b => a ≤ b) = ks.map Int.ofNat := by
  have total : (axes.mergeSort fun a b => decide (a ≤ b)).Pairwise fun a b => decide (a ≤ b) = true :=
    List.pairwise_mergeSort (fun a b c => by simpa using le_trans) (fun a b => by simpa using le_total a b) axes
  have perm := List.mergeSort_perm axes fun a b => decide (a ≤ b)
  refine ⟨_, perm.symm, ?_, ?_⟩
  · refine (total.and (perm.nodup_iff.mpr nodup)).imp fun both => ?_
    have := of_decide_eq_true both.1
    have := both.2
    omega
  · exact (List.map_mergeSort fun a _ b _ => by simp).symm

section
variable {r : ElementType} {e : Tensor r.Carrier} (shape : e.shape = a.shape.reduce axes k)
include shape

/-- A derivative whose reduced axes are there, with length one, is added to zeros. -/
theorem zeros_add_expanded {e' : Tensor r.Carrier} (h : v.Carries ⟨r, e'⟩)
    (shape' : e'.shape = withAt 1 axes a.shape)
    (entries : ∀ i ∈ a.shape.box, e'.get (withAt 0 axes i) = e.get (reducePosition axes k i)) :
    Value.add (.array ⟨a.elementType.join .float64,
      .ofFn a.shape fun _ => (a.elementType.join .float64).zero⟩) v =
        .ok (expanded a ⟨r, e⟩ axes k).collapse := by
  refine (zeros_add a.elementType.isDouble_join h shape').trans ?_
  refine congrArg Except.ok (congrArg TypedArray.collapse (congrArg (TypedArray.mk _) ?_))
  refine Tensor.ofFn_congr fun i hi => ?_
  have there : withAt 0 axes i ∈ e'.shape.box := shape' ▸ withAt_mem_box hi
  have counted : reducePosition axes k i ∈ e.shape.box := shape ▸ reducePosition_mem_box hi
  rw [TypedArray.get_convertTo there counted (entries i hi)]

/-- Where there is nothing to put back, the reduced axes are there. -/
theorem reduced_axes_there (hdy : dy.Stands ⟨r, e⟩) (bound : ∀ j ∈ axes, j < a.shape.length)
    (single : a.shape = [] → dy.Carries ⟨r, e⟩) (there : ¬ (k = false ∧ a.shape ≠ [])) :
    dy.Carries ⟨r, e⟩ ∧ e.shape = withAt 1 axes a.shape ∧
      ∀ i, withAt 0 axes i = reducePosition axes k i := by
  by_cases flat : a.shape = []
  · obtain rfl : axes = [] := by
      refine List.eq_nil_iff_forall_not_mem.mpr fun j hj => ?_
      have := bound j hj
      rw [flat] at this
      exact absurd this (Nat.not_lt_zero j)
    refine ⟨single flat, ?_, fun i => ?_⟩
    · rw [shape, flat]
      cases k <;> rfl
    · cases k with
      | true => simp [reducePosition, withAt]
      | false => simp [reducePosition, withAt, without]
  · obtain rfl : k = true := by
      by_contra other
      exact there ⟨by simpa using other, flat⟩
    have shape' : e.shape = withAt 1 axes a.shape := shape
    have axes' : e.shape ≠ [] := by
      rw [shape']
      simpa [withAt] using flat
    obtain rfl := hdy.array axes'
    exact ⟨.array _, shape', fun _ => rfl⟩

end

/-- The reduced axes are put back one by one. -/
theorem insertReduced {r : ElementType} {e : Tensor r.Carrier}
    (shape : e.shape = a.shape.reduce axes false) (hdy : dy.Stands ⟨r, e⟩) (nodup : axes.Nodup)
    (bound : ∀ j ∈ axes, j < a.shape.length) (small : a.shape.length ≤ maximalRank)
    (some : a.shape ≠ []) : ∃ w e', ((axes.map Int.ofNat).mergeSort fun a b => a ≤ b).foldlM
        (fun d j => d.insertAxis j) dy = .ok w ∧ w.Carries ⟨r, e'⟩ ∧
      e'.shape = withAt 1 axes a.shape ∧
      ∀ i ∈ a.shape.box, e'.get (withAt 0 axes i) = e.get (reducePosition axes false i) := by
  obtain ⟨ks, perm, sorted, order⟩ := sorted_axes nodup
  have shape' : e.shape = without ks a.shape := by
    rw [← without_perm perm]
    exact shape
  obtain ⟨w, e', run, stands, result, entries⟩ := Stands.insertAxes sorted
    (fun j hj => bound j (perm.mem_iff.mpr hj)) small hdy shape'
  have axes' : e'.shape ≠ [] := by
    rw [result]
    simpa [withAt] using some
  obtain rfl := stands.array axes'
  refine ⟨_, e', ?_, .array _, by rw [result, withAt_perm perm], fun i hi => ?_⟩
  · rw [order, List.foldlM_map]
    exact run
  · have there : withAt 0 axes i ∈ box (withAt 1 ks a.shape) := by
      rw [← withAt_perm perm]
      exact withAt_mem_box hi
    rw [entries _ there, ← without_perm perm, without_withAt]
    rfl

section
variable {z w : Value} (zeros : v.zerosLike = .ok z)
include zeros

/-- A derivative with the reduced axes put back is added to zeros. -/
theorem expandReduced_insert (flag : keep.truth = .ok false) (axes' : v.shape ≠ [])
    (lists : axisNumbers axis v.shape.length = .ok (axes.map fun j => some (Int.ofNat j)))
    (insert : ((axes.map Int.ofNat).mergeSort fun a b => a ≤ b).foldlM (fun d j => d.insertAxis j) dy =
      .ok w) : expandReduced dy v axis keep = z.add w := by
  have pos : v.shape.length ≠ 0 := by simpa using axes'
  have named : (axes.map fun j => some (Int.ofNat j)).mapM namedAxis = .ok (axes.map Int.ofNat) := by
    have each : ((axes.map Int.ofNat).map some).mapM namedAxis = .ok (axes.map Int.ofNat) :=
      mapM_map_of_eq_ok fun _ _ => rfl
    rwa [List.map_map] at each
  refine bind_eq_of_ok flag ?_
  rw [if_pos (by simp [pos])]
  exact bind_eq_of_ok lists (bind_eq_of_ok named (bind_eq_of_ok insert (bind_eq_of_ok zeros rfl)))

/-- Where no axis is put back, the derivative itself is. -/
theorem expandReduced_keep (flag : keep.truth = .ok k) (there : ¬ (k = false ∧ v.shape ≠ [])) :
    expandReduced dy v axis keep = z.add dy := by
  have skip : ¬ (!k && v.shape.length != 0) = true := by
    intro both
    simp only [Bool.and_eq_true, Bool.not_eq_true', bne_iff_ne] at both
    exact there ⟨both.1, fun flat => both.2 (by rw [flat]; rfl)⟩
  refine bind_eq_of_ok flag ?_
  rw [if_neg skip]
  exact bind_eq_of_ok rfl (bind_eq_of_ok zeros rfl)

end

/-- The derivative of a reduction in the shape of what was reduced. -/
theorem expandReduced_eq (hv : v.Stands a) (hdy : dy.Stands d) (flag : keep.truth = .ok k)
    (nodup : axes.Nodup) (bound : ∀ j ∈ axes, j < a.shape.length)
    (lists : k = false → a.shape ≠ [] →
      axisNumbers axis a.shape.length = .ok (axes.map fun j => some (Int.ofNat j)))
    (small : a.shape.length ≤ maximalRank) (shape : d.shape = a.shape.reduce axes k)
    (single : a.shape = [] → dy.Carries d) :
    expandReduced dy v axis keep = .ok (expanded a d axes k).collapse := by
  obtain ⟨r, e⟩ := d
  by_cases insert : k = false ∧ a.shape ≠ []
  · obtain ⟨rfl, some⟩ := insert
    obtain ⟨w, e', run, carries, result, entries⟩ := insertReduced shape hdy nodup bound small some
    rw [← hv.shape] at some lists
    rw [expandReduced_insert hv.zerosLike flag some (lists rfl some) run]
    exact zeros_add_expanded shape carries result entries
  · obtain ⟨carries, result, still⟩ := reduced_axes_there shape hdy bound single insert
    rw [expandReduced_keep hv.zerosLike flag (hv.shape ▸ insert)]
    exact zeros_add_expanded shape carries result fun i _ => by rw [still]

end Kernel

/-! ### Sums and counts -/

namespace Value

variable {v axis keep s : Value} {a : TypedArray} {k : Bool} {axes : List Nat}

/-- Whole numbers are true unless they are zero. -/
theorem truth_of_wholeNumber? {v : Value} {n : Int} (h : v.wholeNumber? = some n) :
    v.truth = .ok (n != 0) := by
  have signed : ∀ {w : Nat} (x : BitVec w), (x != 0) = (x.toInt != 0) := fun x => by
    rw [Bool.eq_iff_iff, bne_iff_ne, bne_iff_ne, ne_eq, ne_eq, ← BitVec.toInt_inj]
    simp
  have unsigned : ∀ {w : Nat} (x : BitVec w), (x != 0) = ((x.toNat : Int) != 0) := fun x => by
    rw [Bool.eq_iff_iff, bne_iff_ne, bne_iff_ne, ne_eq, ne_eq, ← BitVec.toNat_inj]
    simp
  cases v with
  | int m =>
    cases h
    rfl
  | scalar s =>
    obtain ⟨t, x⟩ := s
    cases t with
    | int w =>
      cases h
      exact congrArg Except.ok (signed x)
    | uint w =>
      cases h
      exact congrArg Except.ok (unsigned x)
    | _ => cases h
  | array a =>
    obtain ⟨t, s, entries, size⟩ := a
    have flat : s = [] := by
      by_contra axes
      have rank : s.length ≠ 0 := by simpa using axes
      cases t <;> simp [wholeNumber?, Tensor.rank, rank] at h
    subst flat
    obtain ⟨x, rfl⟩ := Array.size_eq_one_iff.mp size
    cases t with
    | int w =>
      cases h
      exact congrArg Except.ok (signed x)
    | uint w =>
      cases h
      exact congrArg Except.ok (unsigned x)
    | _ => cases h
  | _ => cases h

/-- A flag counts as true if it is one. -/
theorem truth_of_flag (h : keep.flag = .ok k) : keep.truth = .ok k := by
  have bool : ∀ b : Bool, (Value.bool b).truth = .ok ((if b then 1 else 0 : Int) != 0) := by
    intro b
    cases b <;> rfl
  unfold flag at h
  split at h
  · cases h
    rfl
  · split at h
    next n index =>
      split at h
      · cases h
        unfold index? at index
        split at index
        · cases index
          exact bool _
        · exact truth_of_wholeNumber? index
      · cases h
    next => cases h

theorem shape_sumElements : (sumElements a axes k).shape = a.shape.reduce axes k := by
  have converted := a.shape_convertTo (u := a.elementType.accumulator)
  unfold sumElements TypedArray.shape
  rw [apply_ite Tensor.shape]
  change (if _ then Shape.reduce axes k (a.convertTo _).shape else
    Shape.reduce axes k (a.convertTo _).shape) = _
  rw [ite_self, converted]
  rfl

/-- A sum fails only if its arguments are no flag or no axes. -/
theorem Stands.sum_eq_ok_iff (h : v.Stands a) : v.sum axis keep = .ok s ↔ ∃ k axes,
    keep.flag = .ok k ∧ sumAxes a.shape.length axis = .ok axes ∧ s = (sumElements a axes k).collapse := by
  constructor
  · intro run
    obtain ⟨k, flag, run⟩ := ok_of_bind run
    obtain ⟨c, cells, run⟩ := ok_of_bind run
    cases h.cells.symm.trans cells
    obtain ⟨axes, named, run⟩ := ok_of_bind run
    cases run
    exact ⟨k, axes, flag, named, rfl⟩
  · rintro ⟨k, axes, flag, named, rfl⟩
    exact bind_eq_of_ok flag (bind_eq_of_ok h.cells (bind_eq_of_ok named rfl))

end Value

namespace ElementType

/-- Sums are held in a type that takes every count of entries. -/
theorem holds_count {t : ElementType} (sums : t.accumulator = t) {n : Nat} (small : n < 2 ^ 63) :
    t.withWhole.holds n = true := by
  have finite : (doubleOfInt n).isFinite = true := isFinite_doubleOfInt (by simp; omega)
  have word : ∀ {w : Width}, Width.w64 = w → 2 ^ 63 ≤ Int.pow 2 (w.bits - 1) := by
    rintro _ rfl
    decide
  cases t with
  | bool => cases sums
  | int w =>
    have most := word (ElementType.int.inj sums)
    simp only [withWhole, holds, Bool.and_eq_true, decide_eq_true_eq]
    omega
  | uint w =>
    obtain rfl := ElementType.uint.inj sums
    have most : Int.pow 2 Width.w64.bits = 2 ^ 64 := rfl
    simp only [withWhole, holds, most, Bool.and_eq_true, decide_eq_true_eq]
    omega
  | float p => exact finite
  | complex p => exact finite

theorem accumulator_accumulator (t : ElementType) : t.accumulator.accumulator = t.accumulator := by
  cases t <;> rfl

theorem IsDouble.accumulator {t : ElementType} (h : t.IsDouble) : t.accumulator = t := by
  rcases h with rfl | rfl <;> rfl

end ElementType

namespace Kernel

open Shape Value

variable {v dy axis keep : Value} {a d : TypedArray} {axes : List Nat} {k : Bool}

/-- The number of reduced entries is that of the axes that are named. -/
theorem reducedSize_eq {s : Shape}
    (named : axisNumbers axis s.length = .ok (axes.map fun j => some (Int.ofNat j)))
    (bound : ∀ j ∈ axes, j < s.length) : reducedSize s axis = .ok (reducedCount axes s) := by
  refine bind_eq_of_ok named (bind_eq_of_ok (a := axes.map fun j => s.getD j 0) ?_ rfl)
  rw [List.mapM_map]
  refine mapM_eq_ok fun j hj => ?_
  have place : locate s.length (Int.ofNat j) = some j :=
    locate_eq_some_iff.mpr ⟨bound j hj, .inl rfl⟩
  refine bind_eq_of_ok rfl ?_
  simp only [place, Option.bind_some, List.getElem?_eq_getElem (bound j hj), List.getD_eq_getElem?_getD]
  rfl

section
variable {n : Nat} (small : n < 2 ^ 63)
include small

/-- A sum is divided by a number of entries. -/
theorem sum_div : ∃ m b, (sumElements a axes k).collapse.div (.int n) = .ok m ∧ m.Carries b ∧
    b.shape = a.shape.reduce axes k := by
  have range := ElementType.holds_count (t := (sumElements a axes k).elementType)
    a.elementType.accumulator_accumulator small
  obtain ⟨m, b, run, carries, shape⟩ := (carries_collapse (sumElements a axes k)).div_count range
    (by simp; omega)
  exact ⟨m, b, run, carries, shape.trans shape_sumElements⟩

/-- So is the derivative of a sum. -/
theorem expanded_div : ∃ m b, (expanded a d axes k).collapse.div (.int n) = .ok m ∧ m.Carries b ∧
    b.shape = a.shape := by
  have double := a.elementType.isDouble_join.join d.elementType
  have range := ElementType.holds_count (t := (expanded a d axes k).elementType)
    double.1.accumulator small
  exact (carries_collapse (expanded a d axes k)).div_count range (by simp; omega)

end

/-- A call with four positional arguments. -/
theorem quaternaryKernel_eq (p q r s : Parameter)
    (f : Value → Value → Value → Value → Except Error Value) (w x y z : Value) :
    quaternaryKernel p q r s f [w, x, y, z] [] = f w x y z := rfl

/-- Along axes in range, the derivative of a sum has at each position zero plus the derivative at the
position that it was counted in. A mean and its derivative are the sum and its derivative, divided by the
number of entries that are reduced to one. -/
theorem reduction_gradients (keep : Bool) (storable : a.Storable) (some : a.shape ≠ [])
    (named : axis.Names a.shape.length axes) :
    ∃ s m, sumForward [.array a, axis, .bool keep] [] = .ok s ∧
      s.shape = a.shape.reduce axes keep ∧
      meanForward [.array a, axis, .bool keep] [] = .ok m ∧
      s.div (.int (reducedCount axes a.shape)) = .ok m ∧
      ∀ dy d, dy.Stands d → d.shape = s.shape → ∃ db,
        sumBackward [.array a, dy, axis, .bool keep] [] =
          .ok (derivatives [.array (expanded a d axes keep)]) ∧
        meanBackward [.array a, dy, axis, .bool keep] [] = .ok (derivatives [db]) ∧
        Value.div (.array (expanded a d axes keep)) (.int (reducedCount axes a.shape)) = .ok db ∧
        db.shape = a.shape := by
  have hv : Stands (.array a) a := .carries (.array a)
  have flag : Value.flag (.bool keep) = .ok keep := by cases keep <;> rfl
  have summed := named.sumAxes storable.rank
  have listed := axisNumbers_of_sumAxes named.listsAxes summed
  obtain ⟨nodup, bound⟩ := sumAxes_spec summed
  have counted := reducedSize_eq listed bound
  have small := storable.reducedCount_lt nodup bound
  have sum := hv.sum_eq_ok_iff.mpr ⟨keep, axes, flag, summed, rfl⟩
  obtain ⟨m, -, divided, -, -⟩ := @sum_div a axes keep _ small
  have shape : (sumElements a axes keep).collapse.shape = a.shape.reduce axes keep :=
    (carries_collapse _).shape.trans shape_sumElements
  have mean : meanForward [.array a, axis, .bool keep] [] = .ok m := by
    refine (ternaryKernel_eq ..).trans (bind_eq_of_ok counted ?_)
    exact bind_eq_of_ok sum divided
  refine ⟨_, m, (ternaryKernel_eq ..).trans sum, shape, mean, divided, ?_⟩
  intro dy d hdy fits
  have expand := expandReduced_eq hv hdy (truth_of_flag flag) nodup bound (fun _ _ => listed)
    storable.rank (fits.trans shape) (fun flat => absurd flat some)
  obtain ⟨db, b, divided', carries, shape'⟩ := @expanded_div a d axes keep _ small
  rw [collapse_of_axes (a := expanded a d axes keep) some] at expand divided'
  refine ⟨db, ?_, ?_, divided', carries.shape.trans shape'⟩
  · exact (quaternaryKernel_eq ..).trans (bind_eq_of_ok expand rfl)
  · refine (quaternaryKernel_eq ..).trans (bind_eq_of_ok counted ?_)
    exact bind_eq_of_ok expand (bind_eq_of_ok divided' rfl)

/-- Negative axes in a tuple, the last one first. -/
theorem reduction_gradients_table : ∃ s m,
    sumForward [.counting [2, 3], .tuple [.int (-1), .int 0], .bool false] [] = .ok s ∧
      meanForward [.counting [2, 3], .tuple [.int (-1), .int 0], .bool false] [] = .ok m ∧
      s.div (.int 6) = .ok m ∧ ∃ da db,
        sumBackward [.counting [2, 3], .float 1, .tuple [.int (-1), .int 0], .bool false] [] =
          .ok (derivatives [da]) ∧
        meanBackward [.counting [2, 3], .float 1, .tuple [.int (-1), .int 0], .bool false] [] =
          .ok (derivatives [db]) ∧
        da.shape = [2, 3] ∧ da.div (.int 6) = .ok db := by
  have named : Names 2 (.tuple [.int (-1), .int 0]) [1, 0] :=
    @Names.several 2 [-1, 0] [1, 0] (.cons rfl (.cons rfl .nil)) (by decide)
  obtain ⟨s, m, sum, shape, mean, divided, backward⟩ := reduction_gradients
    (a := ⟨.int .w64, .ofFn [2, 3] fun i => BitVec.ofNat _ (Shape.offset [2, 3] i)⟩)
    false ⟨by decide, by decide⟩ (by decide) named
  obtain ⟨db, first, second, divided', -⟩ := backward (.float 1) _ (.float 1) shape.symm
  exact ⟨s, m, sum, mean, divided, _, db, first, second, rfl, divided'⟩

/-- Entries are counted where axes are listed. -/
theorem reducedSize_isOk_iff {s : Shape} (summed : sumAxes s.length axis = .ok axes) :
    (∃ n, reducedSize s axis = .ok n) ↔ axis.ListsAxes s.length := by
  constructor
  · rintro ⟨n, counted⟩
    by_contra other
    obtain ⟨numbers, found, sized⟩ := ok_of_bind counted
    rcases axisNumbers_of_not_listsAxes other summed with ⟨flat, i, rfl⟩ | refused
    · -- a number is no axis of something without axes
      rw [flat] at found sized
      have single : axisNumbers (.int i) 0 = .ok [some i] := rfl
      cases single.symm.trans found
      have none : locate 0 i = Option.none := by
        refine Option.eq_none_iff_forall_ne_some.mpr fun j place => ?_
        exact absurd (locate_eq_some_iff.mp place).1 (Nat.not_lt_zero j)
      obtain ⟨sizes, refused, -⟩ := ok_of_bind sized
      rw [List.mapM_cons] at refused
      obtain ⟨size, refused, -⟩ := ok_of_bind refused
      obtain ⟨j, number, refused⟩ := ok_of_bind refused
      cases number
      rw [none] at refused
      cases refused
    · cases refused.symm.trans found
  · intro lists
    exact ⟨_, reducedSize_eq (axisNumbers_of_sumAxes lists summed) (sumAxes_spec summed).2⟩

section
variable (hv : v.Stands a) (flag : keep.flag = .ok k)
  (summed : sumAxes a.shape.length axis = .ok axes) (small : a.shape.length ≤ maximalRank)
include hv flag summed small

/-- A derivative of a sum is stretched back if there is no axis to put back, or axes are listed. -/
theorem expandReduced_isOk_iff (hdy : dy.Carries d) (shape : d.shape = a.shape.reduce axes k) :
    (∃ r, expandReduced dy v axis keep = .ok r) ↔
      keep.truth = .ok true ∨ a.shape = [] ∨ axis.ListsAxes a.shape.length := by
  have truth := truth_of_flag flag
  obtain ⟨nodup, bound⟩ := sumAxes_spec summed
  constructor
  · rintro ⟨r, run⟩
    by_contra other
    obtain ⟨kept, axes', lists⟩ : keep.truth ≠ .ok true ∧ a.shape ≠ [] ∧
        ¬ axis.ListsAxes a.shape.length := by simpa only [not_or] using other
    obtain rfl : k = false := by
      cases k with
      | true => exact absurd truth kept
      | false => rfl
    have pos : a.shape.length ≠ 0 := by simpa using axes'
    have refused := (axisNumbers_of_not_listsAxes lists summed).resolve_left fun flat => pos flat.1
    unfold expandReduced at run
    obtain ⟨t, counts, run⟩ := ok_of_bind run
    cases truth.symm.trans counts
    rw [hv.shape, if_pos (by simp [pos])] at run
    obtain ⟨numbers, found, -⟩ := ok_of_bind run
    cases refused.symm.trans found
  · intro accepted
    refine ⟨_, expandReduced_eq hv (.carries hdy) truth nodup bound (fun drop axes' => ?_) small shape
      fun _ => hdy⟩
    rcases accepted with kept | flat | lists
    · rw [truth, drop] at kept
      cases kept
    · exact absurd flat axes'
    · exact axisNumbers_of_sumAxes lists summed

end

/-- Which calls are accepted, once the sum accepts its own. A mean is, unless the axis is a typed number
or names an axis of something without axes; the backward kernel of the sum refuses typed numbers only,
and only where it puts axes back. The backward kernel of a mean accepts what the mean does. -/
theorem reductions_accept {s : Value} (hv : v.Stands a) (storable : a.Storable)
    (sum : sumForward [v, axis, keep] [] = .ok s) :
    ((∃ m, meanForward [v, axis, keep] [] = .ok m) ↔ axis.ListsAxes a.shape.length) ∧
    (∀ dy d, dy.Carries d → dy.shape = s.shape →
      ((∃ g, sumBackward [v, dy, axis, keep] [] = .ok g) ↔
        keep.truth = .ok true ∨ a.shape = [] ∨ axis.ListsAxes a.shape.length)) ∧
    (∀ m, meanForward [v, axis, keep] [] = .ok m → ∀ dy d, dy.Carries d → dy.shape = m.shape →
      ∃ g, meanBackward [v, dy, axis, keep] [] = .ok g) := by
  have summed := (ternaryKernel_eq ..).symm.trans sum
  obtain ⟨k, axes, flag, named, rfl⟩ := hv.sum_eq_ok_iff.mp summed
  obtain ⟨nodup, bound⟩ := sumAxes_spec named
  have small := storable.reducedCount_lt nodup bound
  obtain ⟨m, b, divided, carries, shape'⟩ := @sum_div a axes k _ small
  have shape : (sumElements a axes k).collapse.shape = a.shape.reduce axes k :=
    (carries_collapse _).shape.trans shape_sumElements
  have counted : axis.ListsAxes a.shape.length →
      reducedSize v.shape axis = .ok (reducedCount axes a.shape) := fun lists => by
    rw [hv.shape]
    exact reducedSize_eq (axisNumbers_of_sumAxes lists named) bound
  have mean : axis.ListsAxes a.shape.length → meanForward [v, axis, keep] [] = .ok m := by
    intro lists
    refine (ternaryKernel_eq ..).trans (bind_eq_of_ok (counted lists) ?_)
    exact bind_eq_of_ok summed divided
  have lists : ∀ {m}, meanForward [v, axis, keep] [] = .ok m → axis.ListsAxes a.shape.length := by
    intro m run
    obtain ⟨n, found, -⟩ := ok_of_bind ((ternaryKernel_eq ..).symm.trans run)
    exact (reducedSize_isOk_iff named).mp ⟨n, hv.shape ▸ found⟩
  refine ⟨⟨fun ⟨_, run⟩ => lists run, fun listed => ⟨m, mean listed⟩⟩, ?_, ?_⟩
  · intro dy d hdy fits
    have expand := expandReduced_isOk_iff hv flag named storable.rank hdy
      (hdy.shape.symm.trans (fits.trans shape))
    rw [← expand]
    constructor
    · rintro ⟨g, run⟩
      obtain ⟨r, expanded, -⟩ := ok_of_bind ((quaternaryKernel_eq ..).symm.trans run)
      exact ⟨r, expanded⟩
    · rintro ⟨r, expanded⟩
      exact ⟨_, (quaternaryKernel_eq ..).trans (bind_eq_of_ok expanded rfl)⟩
  · intro m' run dy d hdy fits
    have listed := lists run
    cases (mean listed).symm.trans run
    have fits' : d.shape = a.shape.reduce axes k :=
      hdy.shape.symm.trans (fits.trans (carries.shape.trans shape'))
    have expand := expandReduced_eq hv (.carries hdy) (truth_of_flag flag) nodup bound
      (fun _ _ => axisNumbers_of_sumAxes listed named) storable.rank fits' fun _ => hdy
    obtain ⟨db, -, divided', -⟩ := @expanded_div a d axes k _ small
    refine ⟨derivatives [db], (quaternaryKernel_eq ..).trans (bind_eq_of_ok (counted listed) ?_)⟩
    exact bind_eq_of_ok expand (bind_eq_of_ok divided' rfl)

/-- Along the last axis of a table. -/
theorem reductions_accept_table :
    (∃ s, sumForward [.counting [2, 3], .int (-1), .bool false] [] = .ok s) ∧
      (∃ m, meanForward [.counting [2, 3], .int (-1), .bool false] [] = .ok m) ∧
      ∃ g, sumBackward [.counting [2, 3], .counting [2], .int (-1), .bool false] [] = .ok g := by
  have carries : ∀ s, Carries (.counting s) ⟨.int .w64, .ofFn s fun i => BitVec.ofNat _ (offset s i)⟩ :=
    fun s => .array _
  have storable : TypedArray.Storable
      ⟨.int .w64, .ofFn [2, 3] fun i => BitVec.ofNat _ (offset [2, 3] i)⟩ := ⟨by decide, by decide⟩
  have hv := Stands.carries (carries [2, 3])
  have named : Names 2 (.int (-1)) [1] := .one rfl
  have sum : Value.sum (.counting [2, 3]) (.int (-1)) (.bool false) = .ok _ :=
    hv.sum_eq_ok_iff.mpr ⟨false, [1], rfl, named.sumAxes (by decide), rfl⟩
  obtain ⟨mean, backward, -⟩ := reductions_accept hv storable ((ternaryKernel_eq ..).trans sum)
  refine ⟨⟨_, sum⟩, mean.mpr named.listsAxes, ?_⟩
  exact (backward _ _ (carries [2]) rfl).mpr (.inr (.inr named.listsAxes))

/-- A typed number names an axis to a sum, and none to a mean. -/
theorem mean_refuses_typed_axis :
    (∃ s, sumForward [.counting [3], word 0, .bool false] [] = .ok s) ∧
      meanForward [.counting [3], word 0, .bool false] [] = .error .operandType := by
  have hv := Stands.carries (.array ⟨.int .w64, .ofFn [3] fun i => BitVec.ofNat _ (offset [3] i)⟩)
  have sum : Value.sum (.counting [3]) (word 0) (.bool false) = .ok _ :=
    hv.sum_eq_ok_iff.mpr ⟨false, [0], rfl, rfl, rfl⟩
  exact ⟨⟨_, (ternaryKernel_eq ..).trans sum⟩, rfl⟩

end Kernel

end Backprop
