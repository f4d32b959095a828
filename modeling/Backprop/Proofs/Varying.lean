import Mathlib
import Backprop.Proofs.Reductions
/-!
# Values that vary

* `Value.Factor` is how elements of any type and plain numbers take part in arithmetic.
* `Value.Varies` says that a value is a derivative in a shape: elements of a floating-point type, or a
  plain real number where there are no axes.
* `Operator.Floats.apply_varies`: sums, differences, products and quotients of something that varies.
* `Value.Varies.neg` and `Value.Varies.sum`: so do its negative and its sums.
* `Kernel.unbroadcast_varies`: undoing a broadcast leads to every shape that can be reached.
-/

namespace Backprop

namespace ElementType

/-- A floating-point type, real or complex. -/
def IsInexact (t : ElementType) : Prop := t.inexact = t

variable {t : ElementType}

theorem inexact_inexact (t : ElementType) : t.inexact.IsInexact := by
  cases t <;> rfl

theorem withReal_isInexact (t : ElementType) : t.withReal.IsInexact := by
  cases t <;> rfl

theorem IsDouble.isInexact (h : t.IsDouble) : t.IsInexact := by
  rcases h with rfl | rfl <;> rfl

namespace IsInexact

theorem join (h : t.IsInexact) (u : ElementType) : (t.join u).IsInexact ∧ (u.join t).IsInexact := by
  cases t with
  | bool | int | uint => cases h
  | float | complex => cases u <;> exact ⟨rfl, rfl⟩

theorem withWhole (h : t.IsInexact) : t.withWhole.IsInexact := by
  cases t with
  | bool | int | uint => cases h
  | float | complex => rfl

theorem accumulator (h : t.IsInexact) : t.accumulator = t := by
  cases t with
  | bool | int | uint => cases h
  | float | complex => rfl

theorem quotient (h : t.IsInexact) : t.quotient.IsInexact := by
  cases t with
  | bool | int | uint => cases h
  | float | complex => rfl

theorem sub? (h : t.IsInexact) : ∃ f, t.sub? = some f := by
  cases t with
  | bool | int | uint => cases h
  | float | complex => exact ⟨_, rfl⟩

theorem neg? (h : t.IsInexact) : ∃ f, t.neg? = some f := by
  cases t with
  | bool | int | uint => cases h
  | float | complex => exact ⟨_, rfl⟩

/-- Floating-point types take whole numbers that are finite as doubles. -/
theorem holds (h : t.IsInexact) {n : Int} (finite : (doubleOfInt n).isFinite = true) :
    t.holds n = true := by
  cases t with
  | bool | int | uint => cases h
  | float | complex => exact finite

end IsInexact

end ElementType

namespace Operand

/-- An operand that varies. -/
inductive IsInexact : Operand → Prop where
  | typed {a : TypedArray} : a.elementType.IsInexact → IsInexact (.typed a)
  | real (x : Float) : IsInexact (.real x)

end Operand

namespace Value

/-- How elements of any type take part in arithmetic, and plain numbers that are finite as doubles if
they are whole. -/
inductive Factor : Value → Operand → Prop where
  | elements {v : Value} {a : TypedArray} : v.Carries a → Factor v (.typed a)
  | real (x : Float) : Factor (.float x) (.real x)
  | whole {n : Int} : (doubleOfInt n).isFinite = true → Factor (.int n) (.whole n)

/-- A factor that is no plain zero, and whose square is in range. -/
inductive Divisor : Value → Operand → Prop where
  | elements {v : Value} {a : TypedArray} : v.Carries a → Divisor v (.typed a)
  | real {x : Float} : (x == 0) = false → Divisor (.float x) (.real x)
  | whole {n : Int} : (doubleOfInt n).isFinite = true → (doubleOfInt n == 0) = false →
    (doubleOfInt (n * n)).isFinite = true → Divisor (.int n) (.whole n)

/-- A derivative in a shape: elements of a floating-point type, or a plain real number. -/
inductive Varies (d : Value) (s : Shape) : Prop where
  | elements {a : TypedArray} : d.Carries a → a.elementType.IsInexact → a.shape = s → Varies d s
  | real (x : Float) : d = .float x → s = [] → Varies d s

variable {v w d : Value} {x y : Operand} {a : TypedArray} {t : ElementType} {s S : Shape}

theorem Divisor.factor (h : v.Divisor x) : v.Factor x := by
  cases h with
  | elements h => exact .elements h
  | real => exact .real _
  | whole finite => exact .whole finite

namespace Factor

theorem meets (h : v.Factor x) : v.Meets x := by
  cases h with
  | elements h => exact .typed h
  | real x => exact .real x
  | whole => exact .whole _

theorem within (h : v.Factor x) (inexact : t.IsInexact) : x.Within t := by
  cases h with
  | elements | real => trivial
  | whole finite => exact inexact.holds finite

theorem isWithin (h : v.Factor x) (inexact : t.IsInexact) : x.isWithin t = true := by
  cases h with
  | elements | real => rfl
  | whole finite => simp [Operand.isWithin, inexact.holds finite]

/-- Where one operand varies and one is made of elements, the other one is brought to a
floating-point type. -/
theorem common_isInexact (hx : v.Factor x) (hy : w.Factor y) (inexact : x.IsInexact ∨ y.IsInexact)
    (typed : (v.isTyped || w.isTyped) = true) : (x.common y).IsInexact := by
  cases hx with
  | elements =>
    cases hy with
    | elements =>
      rcases inexact with ⟨⟨h⟩⟩ | ⟨⟨h⟩⟩
      · exact (h.join _).1
      · exact (h.join _).2
    | real => exact ElementType.withReal_isInexact _
    | whole =>
      rcases inexact with ⟨⟨h⟩⟩ | ⟨⟨⟩⟩
      exact h.withWhole
  | real =>
    cases hy with
    | elements => exact ElementType.withReal_isInexact _
    | real | whole => cases typed
  | whole =>
    cases hy with
    | elements =>
      rcases inexact with ⟨⟨⟩⟩ | ⟨⟨h⟩⟩
      exact h.withWhole
    | real | whole => cases typed

/-- A plain number is brought to a double. -/
theorem pair (h : v.Factor x) (z : Float) (plain : v.isTyped = false) :
    ∃ n q, v.number? = some n ∧ Number.pair (.float z) n = .ok (.float z q) := by
  cases h with
  | elements h => exact absurd h.isTyped (by simp [plain])
  | real q => exact ⟨_, q, rfl, rfl⟩
  | @whole n finite => exact ⟨_, doubleOfInt n, rfl, congrArg (Except.map _) (if_pos finite)⟩

end Factor

namespace Varies

theorem factor (h : d.Varies s) : ∃ x, d.Factor x ∧ x.IsInexact ∧ x.shape = s := by
  cases h with
  | elements h inexact shape => exact ⟨_, .elements h, .typed inexact, shape⟩
  | real x h flat =>
    subst h
    exact ⟨_, .real x, .real x, flat.symm⟩

theorem stands (h : d.Varies s) : ∃ a, d.Stands a ∧ a.elementType.IsInexact ∧ a.shape = s := by
  cases h with
  | elements h inexact shape => exact ⟨_, .carries h, inexact, shape⟩
  | real x h flat =>
    subst h
    exact ⟨_, .float x, rfl, flat.symm⟩

theorem shape (h : d.Varies s) : d.shape = s := by
  obtain ⟨a, stands, -, shape⟩ := h.stands
  exact stands.shape.trans shape

/-- What varies counts as a derivative. -/
theorem isZero (h : d.Varies s) : d.isZero = false := by
  cases h with
  | elements h => cases h <;> rfl
  | real x h =>
    rw [h]
    rfl

/-- What has axes is made of elements. -/
theorem carries (h : d.Varies s) (axes : s ≠ []) :
    ∃ a, d.Carries a ∧ a.elementType.IsInexact ∧ a.shape = s := by
  cases h with
  | elements h inexact shape => exact ⟨_, h, inexact, shape⟩
  | real x h flat => exact absurd flat axes

end Varies

end Value

/-! ### Arithmetic -/

namespace Operator

open Value

/-- An operation that floating-point types have, and that plain real numbers have with the plain
numbers among the operands `P`. -/
structure Floats (op : Operator) (P : Value → Operand → Prop) : Prop where
  factor : ∀ {w y}, P w y → Factor w y
  sequences : ∀ {v w x y}, Meets v x → Meets w y → op.sequences v w = Option.none
  typed : ∀ (points : Bool) {v w x y}, Factor v x → Factor w y → (x.common y).IsInexact →
    ∃ (t : ElementType) (f : t.Carrier → t.Carrier → t.Carrier), t.IsInexact ∧
      op.typed points x y = entrywise f x y
  plain : ∀ {w y z n} (x : Float), P w y → w.number? = some n → Number.pair (.float x) n = .ok (.float x z) →
    ∃ q, op.plain (.float x) n = .ok (.float q)

variable {op : Operator} {P : Value → Operand → Prop} {v w d : Value} {x y : Operand} {s S : Shape}

/-- Operands that are brought to a floating-point type. -/
theorem Floats.apply_typed (floats : op.Floats P) (hv : v.Factor x) (hw : w.Factor y)
    (typed : (v.isTyped || w.isTyped) = true) (inexact : (x.common y).IsInexact)
    (fits : Shape.broadcast? x.shape y.shape = some S) :
    ∃ r a, op.apply v w = .ok r ∧ r.Carries a ∧ a.elementType.IsInexact ∧ a.shape = S := by
  obtain ⟨t, f, inexact', run⟩ := floats.typed (v.isPoint && w.isPoint) hv hw inexact
  obtain ⟨p, left, shapeP⟩ := (hv.within inexact').convertTo
  obtain ⟨q, right, shapeQ⟩ := (hw.within inexact').convertTo
  rw [← shapeP, ← shapeQ] at fits
  refine ⟨_, _, (apply_eq (floats.sequences hv.meets hw.meets) hv.meets hw.meets typed).trans
    (run.trans (entrywise_eq f left right fits)), carries_collapse _, inexact', rfl⟩

/-- An operation on a plain real number and a plain number. -/
theorem apply_plain {z : Float} {n : Number} (plain : op.sequences (.float z) w = Option.none)
    (untyped : w.isTyped = false) (number : w.number? = some n) :
    op.apply (.float z) w = (op.plain (.float z) n).map Number.toValue := by
  have real : (Value.float z).isTyped = false ∧ (Value.float z).number? = some (.float z) := ⟨rfl, rfl⟩
  unfold apply applyWithin
  simp only [plain, real, untyped, Bool.or_self, Bool.false_eq_true, if_false, number]

/-- With an element in it, an operation on something that varies. -/
theorem Floats.apply_varies_typed (floats : op.Floats P) (hd : d.Varies s) (hw : w.Factor y)
    (typed : (d.isTyped || w.isTyped) = true) (fits : Shape.broadcast? s y.shape = some S) :
    ∃ r, op.apply d w = .ok r ∧ r.isTyped = true ∧ r.Varies S := by
  obtain ⟨x, hx, inexact, rfl⟩ := hd.factor
  obtain ⟨r, a, run, carries, inexact', shape⟩ :=
    floats.apply_typed hx hw typed (hx.common_isInexact hw (.inl inexact) typed) fits
  exact ⟨r, run, carries.isTyped, .elements carries inexact' shape⟩

theorem Floats.apply_varies (floats : op.Floats P) (hd : d.Varies s) (hw : P w y)
    (fits : Shape.broadcast? s y.shape = some S) : ∃ r, op.apply d w = .ok r ∧ r.Varies S := by
  have hy := floats.factor hw
  by_cases typed : (d.isTyped || w.isTyped) = true
  · obtain ⟨r, run, -, varies⟩ := floats.apply_varies_typed hd hy typed fits
    exact ⟨r, run, varies⟩
  · obtain ⟨x, hx, inexact, rfl⟩ := hd.factor
    simp only [Bool.or_eq_true, not_or, Bool.not_eq_true] at typed
    cases hx with
    | elements h => exact absurd h.isTyped (by simp [typed.1])
    | whole => cases inexact
    | real x =>
      obtain ⟨n, z, number, pair⟩ := hy.pair x typed.2
      obtain ⟨q, run⟩ := floats.plain x hw number pair
      refine ⟨_, (apply_plain (floats.sequences (.real x) hy.meets) typed.2 number).trans
        (congrArg (Except.map Number.toValue) run), .real q rfl ?_⟩
      cases hy with
      | elements h => exact absurd h.isTyped (by simp [typed.2])
      | real | whole => exact (Option.some.inj fits).symm

theorem floats_add : add.Floats Factor where
  factor h := h
  sequences hv _ := sequences_add hv _
  typed _ _ _ _ _ _ _ inexact := ⟨_, _, inexact, rfl⟩
  plain _ _ _ pair := ⟨_, bind_eq_of_ok pair rfl⟩

theorem floats_sub : sub.Floats Factor where
  factor h := h
  sequences _ _ := rfl
  typed _ _ _ _ _ _ _ inexact := by
    obtain ⟨f, found⟩ := inexact.sub?
    exact ⟨_, f, inexact, by simp only [sub, found, entrywise?]⟩
  plain _ _ _ pair := ⟨_, bind_eq_of_ok pair rfl⟩

theorem floats_mul : mul.Floats Factor where
  factor h := h
  sequences hv hw := sequences_mul hv hw
  typed _ _ _ _ _ _ _ inexact := ⟨_, _, inexact, rfl⟩
  plain _ _ _ pair := ⟨_, bind_eq_of_ok pair rfl⟩

theorem floats_div : div.Floats Divisor where
  factor := Divisor.factor
  sequences _ _ := rfl
  typed points _ _ x y hx hy inexact := by
    obtain ⟨f, found⟩ := (x.common y).exists_div?
    refine ⟨_, f, inexact.quotient, ?_⟩
    simp only [div, hx.isWithin inexact, hy.isWithin inexact, Bool.and_self, Bool.not_true, Bool.and_false,
      Bool.false_eq_true, if_false, found, entrywise?]
  plain x hw number pair := by
    refine ⟨_, bind_eq_of_ok pair (if_neg ?_)⟩
    rw [Bool.not_eq_true]
    cases hw with
    | elements h => cases h <;> cases number
    | real nonzero =>
      cases number
      cases pair
      exact nonzero
    | whole finite nonzero =>
      cases number
      cases pair.symm.trans (congrArg (Except.map _) (if_pos finite))
      exact nonzero

end Operator

namespace Value

variable {v d : Value} {x : Operand} {a : TypedArray} {s S : Shape}

theorem Varies.neg (h : d.Varies s) : ∃ r, d.neg = .ok r ∧ r.Varies s := by
  cases h with
  | @elements a h inexact shape =>
    obtain ⟨f, found⟩ := inexact.neg?
    have run : negEntries a = .ok ⟨a.elementType, a.entries.map f⟩ := by
      simp only [negEntries, found]
    refine ⟨_, ?_, .elements (carries_collapse ⟨a.elementType, a.entries.map f⟩) inexact shape⟩
    cases h <;> exact congrArg (Except.map TypedArray.collapse) run
  | real x h flat =>
    subst h
    exact ⟨_, rfl, .real (-x) rfl flat⟩

/-- Sums are held in the same floating-point type. -/
theorem Varies.sum (h : d.Varies s) {axis keep : Value} {axes : List Nat} {k : Bool}
    (flag : keep.flag = .ok k) (named : sumAxes s.length axis = .ok axes) :
    ∃ r, d.sum axis keep = .ok r ∧ r.Varies (s.reduce axes k) := by
  obtain ⟨a, stands, inexact, rfl⟩ := h.stands
  refine ⟨_, stands.sum_eq_ok_iff.mpr ⟨k, axes, flag, named, rfl⟩, ?_⟩
  refine .elements (carries_collapse _) ?_ shape_sumElements
  change a.elementType.accumulator.IsInexact
  rwa [inexact.accumulator]

/-- Zeros in the shape of elements. -/
theorem Carries.zeros_vary (h : v.Carries a) :
    ∃ z, v.zerosLike = .ok z ∧ z.isTyped = true ∧ z.Varies a.shape :=
  ⟨_, (Stands.carries h).zerosLike, rfl,
    .elements (.array _) a.elementType.isDouble_join.isInexact rfl⟩

/-- Zeros with something added to them that stretches to their shape. -/
theorem Varies.zeros_add {z : Value} (hz : z.Varies S) (typed : z.isTyped = true) (h : d.Varies s)
    (stretch : Shape.Stretches s S) : ∃ r, z.add d = .ok r ∧ r.isTyped = true ∧ r.Varies S := by
  obtain ⟨x, factor, -, rfl⟩ := h.factor
  exact Operator.floats_add.apply_varies_typed hz factor (by rw [typed, Bool.true_or])
    stretch.broadcast?.2

end Value

/-! ### Undoing a broadcast -/

namespace Kernel

open Shape Value

/-- Undoing a broadcast leads from a shape to another one if that is stretched to it, or has more axes and
it is stretched to that. -/
def Reaches (S s : Shape) : Prop := Stretches s S ∨ S.length < s.length ∧ Stretches S s

theorem Reaches.of_nil (s : Shape) : Reaches [] s := by
  cases s with
  | nil => exact .inl (.refl [])
  | cons n s => exact .inr ⟨Nat.succ_pos _, .nil _⟩

variable {v d : Value} {x : Operand} {s S : Shape}

/-- Axes in front are summed away. -/
theorem sum_front {front back : Shape} (h : d.Varies (front ++ back))
    (small : (front ++ back).length ≤ maximalRank) :
    ∃ r, (if front.length = 0 then pure d
      else d.sum (axisTuple (List.range front.length)) (.bool false)) = .ok r ∧ r.Varies back := by
  by_cases none : front.length = 0
  · obtain rfl := List.eq_nil_of_length_eq_zero none
    exact ⟨d, if_pos rfl, h⟩
  · have bound : ∀ k ∈ List.range front.length, k < (front ++ back).length := by
      intro k hk
      rw [List.length_append]
      have := List.mem_range.mp hk
      omega
    have flag : Value.flag (.bool false) = .ok false := rfl
    obtain ⟨r, run, varies⟩ := h.sum flag (sumAxes_axisTuple List.nodup_range bound small)
    rw [Shape.reduce, if_neg Bool.false_ne_true, without_range, List.drop_left] at varies
    exact ⟨r, by rw [if_neg none, run], varies⟩

/-- Axes that were stretched are summed up. -/
theorem sum_stretched (h : d.Varies S) (stretch : List.Forall₂ (fun n m => n = m ∨ n = 1) s S)
    (small : S.length ≤ maximalRank) :
    ∃ r, (if (stretchedAxes s S).isEmpty then pure d
      else d.sum (axisTuple (stretchedAxes s S)) (.bool true)) = .ok r ∧ r.Varies s := by
  have shrunk := withAt_stretchedAxes stretch
  by_cases none : stretchedAxes s S = []
  · rw [none, withAt_nil] at shrunk
    exact ⟨d, if_pos (by rw [none]; rfl), shrunk ▸ h⟩
  · have bound : ∀ k ∈ stretchedAxes s S, k < S.length := by
      intro k hk
      obtain ⟨n, -, place, -⟩ := mem_stretchedAxes.mp hk
      exact (List.getElem?_eq_some_iff.mp place).1
    have flag : Value.flag (.bool true) = .ok true := rfl
    obtain ⟨r, run, varies⟩ := h.sum flag (sumAxes_axisTuple (nodup_stretchedAxes s S) bound small)
    rw [Shape.reduce, if_pos rfl, shrunk] at varies
    exact ⟨r, by rw [if_neg (by simpa using none), run], varies⟩

/-- Summing down to a shape that was stretched. -/
theorem unbroadcast_down (h : d.Varies S) (shape : v.shape = s) (stretch : Stretches s S)
    (small : S.length ≤ maximalRank) : ∃ r, unbroadcast d v = .ok r ∧ r.Varies s := by
  unfold unbroadcast
  simp only [shape, h.shape]
  by_cases same : S = s
  · exact ⟨d, if_pos same, same ▸ h⟩
  · rw [if_neg same, if_neg (Nat.not_lt.mpr stretch.length_le)]
    obtain ⟨front, back, rfl, stretch⟩ := stretch
    have extra : (front ++ back).length - s.length = front.length := by
      rw [List.length_append, stretch.length_eq, Nat.add_sub_cancel]
    have small' : back.length ≤ maximalRank := by
      rw [List.length_append] at small
      omega
    obtain ⟨d', first, varies⟩ := sum_front h small
    obtain ⟨r, second, varies'⟩ := sum_stretched varies stretch small'
    refine ⟨r, ?_, varies'⟩
    rw [← varies.shape] at second
    rw [extra]
    exact bindIf_eq_of_ok first second

/-- Undoing a broadcast leads to every shape that can be reached. -/
theorem unbroadcast_varies (h : d.Varies S) (like : v.Factor x) (reaches : Reaches S x.shape)
    (small : S.length ≤ maximalRank) : ∃ r, unbroadcast d v = .ok r ∧ r.Varies x.shape := by
  have shape := like.meets.shape
  rcases reaches with stretch | ⟨fewer, stretch⟩
  · exact unbroadcast_down h shape stretch small
  · cases like with
    | elements carries =>
      obtain ⟨z, zeros, typed, varies⟩ := carries.zeros_vary
      obtain ⟨r, run, -, varies'⟩ := varies.zeros_add typed h stretch
      refine ⟨r, ?_, varies'⟩
      unfold unbroadcast
      simp only [shape, h.shape]
      rw [if_neg fun same => absurd (congrArg List.length same) (Nat.ne_of_lt fewer), if_pos fewer]
      exact bind_eq_of_ok zeros run
    | real | whole => exact absurd fewer (Nat.not_lt_zero _)

end Kernel

end Backprop
