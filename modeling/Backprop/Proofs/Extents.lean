import Mathlib
import Backprop.Kernel.Elementary
import Backprop.Proofs.Varying
/-!
# Shapes of entrywise derivatives

* `Operator.Aligned`: the result of an operation on elements has the common shape of its operands.
* `Kernel.Returns` says that a backward kernel returns, for each argument, nothing or a derivative in the
  shape of the argument.
* A derivative either has the shape of the result, or has no axes and is stretched by the kernel: sums,
  differences, powers and functions of one argument stretch it, products and quotients where each operand
  can be reached from the other.
-/

namespace Backprop

namespace Operand

theorem shape_of_convertTo {x : Operand} {t : ElementType} {p : Tensor t.Carrier}
    (run : x.convertTo t = .ok p) : p.shape = x.shape := by
  cases x with
  | typed a =>
    cases run
    exact a.shape_convertTo
  | whole n =>
    by_cases range : t.holds n = true
    · cases (if_pos range).symm.trans run
      rfl
    · cases (if_neg range).symm.trans run
  | real | complex =>
    cases run
    rfl
  | texts | values => cases run

end Operand

namespace Operator

open Value

variable {op : Operator} {v w : Value} {x y : Operand} {r : Value} {S : Shape} {points : Bool}

/-- The result of an operation on elements has the common shape of the operands. -/
def Aligned (op : Operator) : Prop :=
  ∀ {points x y r}, op.typed points x y = .ok r → Shape.broadcast? x.shape y.shape = some r.shape

theorem shape_of_entrywise {t u : ElementType} {f : t.Carrier → t.Carrier → u.Carrier}
    (run : entrywise f x y = .ok r) : Shape.broadcast? x.shape y.shape = some r.shape := by
  obtain ⟨p, left, run⟩ := ok_of_bind run
  obtain ⟨q, right, run⟩ := ok_of_bind run
  rw [← Operand.shape_of_convertTo left, ← Operand.shape_of_convertTo right]
  cases fits : Shape.broadcast? p.shape q.shape with
  | none =>
    rw [Tensor.zipWith?, fits] at run
    cases run
  | some S =>
    rw [Tensor.zipWith?, fits] at run
    cases run
    exact congrArg some (carries_collapse ⟨u, .ofFn S _⟩).shape.symm

theorem shape_of_entrywise? {t : ElementType} {f : Option (t.Carrier → t.Carrier → t.Carrier)}
    (run : entrywise? f x y = .ok r) : Shape.broadcast? x.shape y.shape = some r.shape := by
  cases f with
  | none => cases run
  | some f => exact shape_of_entrywise run

theorem aligned_add : add.Aligned := fun run => shape_of_entrywise run

theorem aligned_sub : sub.Aligned := fun run => shape_of_entrywise? run

theorem aligned_mul : mul.Aligned := fun run => shape_of_entrywise run

theorem aligned_div : div.Aligned := by
  intro points x y r run
  simp only [div] at run
  split at run
  · cases run
  · exact shape_of_entrywise? run

/-- A power that is taken by a simpler operation has a plain exponent. -/
theorem shape_of_shortPower {a b : TypedArray} (short : shortPower a y = some b) :
    b.shape = a.shape ∧ y.shape = [] := by
  unfold shortPower at short
  split at short
  all_goals
    repeat' split at short
    all_goals
      cases short
      try exact ⟨rfl, rfl⟩

theorem shape_of_powEntries (run : powEntries points x y = .ok r) :
    Shape.broadcast? x.shape y.shape = some r.shape := by
  obtain ⟨p, -, run⟩ := ok_of_bind run
  obtain ⟨q, -, run⟩ := ok_of_bind run
  dsimp only at run
  split at run
  · split at run
    · cases run
    · exact shape_of_entrywise? run
  · cases run

theorem aligned_pow : pow.Aligned := by
  intro points x y r run
  cases x with
  | typed a =>
    simp only [pow] at run
    split at run
    next b short =>
      cases run
      split at short
      · cases short
      · obtain ⟨shape, flat⟩ := shape_of_shortPower short
        rw [(carries_collapse b).shape, shape, flat]
        exact (Shape.Stretches.nil _).broadcast?.2
    next => exact shape_of_powEntries run
  | _ => exact shape_of_powEntries run

theorem Aligned.shape (aligned : op.Aligned) (plain : op.sequences v w = Option.none) (hv : v.Meets x)
    (hw : w.Meets y) (typed : (v.isTyped || w.isTyped) = true) (run : op.apply v w = .ok r) :
    Shape.broadcast? x.shape y.shape = some r.shape :=
  aligned ((apply_eq plain hv hw typed).symm.trans run)

end Operator

/-- Every type that takes plain whole numbers takes one, and has differences. -/
theorem ElementType.withWhole_sub (t : ElementType) :
    t.withWhole.holds 1 = true ∧ ∃ f, t.withWhole.sub? = some f := by
  have finite : (doubleOfInt 1).isFinite = true := isFinite_doubleOfInt (by decide)
  cases t with
  | bool => exact ⟨by decide, _, rfl⟩
  | int w | uint w => exact ⟨by cases w <;> decide, _, rfl⟩
  | float | complex => exact ⟨finite, _, rfl⟩

namespace ElementType.IsInexact

variable {t : ElementType}

theorem powType (h : t.IsInexact) : Operator.powType t = t := by
  cases t with
  | bool | int | uint => cases h
  | float | complex => rfl

theorem join_withWhole {u : ElementType} (h : (t.join u).IsInexact) : (t.join u.withWhole).IsInexact := by
  cases u with
  | bool =>
    cases t with
    | bool | int | uint => cases h
    | float | complex => rfl
  | _ => exact h

/-- Every exponent will do. -/
theorem isExponent (h : t.IsInexact) (x : t.Carrier) : t.isExponent x = true := by
  cases t with
  | bool | int | uint => cases h
  | float | complex => rfl

theorem power (h : t.IsInexact) (steady : Bool) :
    ∃ f, (if steady then t.steadyPow? else t.pow?) = some f := by
  cases t with
  | bool | int | uint => cases h
  | float p => cases steady <;> cases p <;> exact ⟨_, rfl⟩
  | complex => cases steady <;> exact ⟨_, rfl⟩

end ElementType.IsInexact

namespace Operator

open Value

variable {v w : Value} {x y : Operand} {S : Shape}

/-- Operands that are brought to a type which has the operation. -/
theorem entrywise_carries {t u : ElementType} (f : t.Carrier → t.Carrier → u.Carrier) (hx : x.Within t)
    (hy : y.Within t) (fits : Shape.broadcast? x.shape y.shape = some S) :
    ∃ r a, entrywise f x y = .ok r ∧ r.Carries a ∧ a.elementType = u ∧ a.shape = S := by
  obtain ⟨p, left, shapeP⟩ := hx.convertTo
  obtain ⟨q, right, shapeQ⟩ := hy.convertTo
  rw [← shapeP, ← shapeQ] at fits
  exact ⟨_, _, entrywise_eq f left right fits, carries_collapse _, rfl, rfl⟩

theorem powEntries_eq (points : Bool) (hv : v.Factor x) (hw : w.Factor y)
    (inexact : (x.common y).IsInexact) (fits : Shape.broadcast? x.shape y.shape = some S) :
    ∃ r a, powEntries points x y = .ok r ∧ r.Carries a ∧ a.shape = S := by
  obtain ⟨p, left, shapeP⟩ := (hv.within inexact).convertTo
  obtain ⟨q, right, shapeQ⟩ := (hw.within inexact).convertTo
  have fits' : Shape.broadcast? p.shape q.shape = some S := by rw [shapeP, shapeQ, fits]
  have every : q.toList.all (x.common y).isExponent = true :=
    List.all_eq_true.mpr fun z _ => inexact.isExponent z
  obtain ⟨f, found⟩ := inexact.power (!points && isSteady p.shape q.shape)
  obtain ⟨r, a, entries, carries, -, shape⟩ :=
    entrywise_carries f (hv.within inexact) (hw.within inexact) fits
  refine ⟨r, a, ?_, carries, shape⟩
  unfold powEntries
  dsimp only
  rw [inexact.powType]
  refine bind_eq_of_ok left (bind_eq_of_ok right ?_)
  simp only [fits', every, Bool.not_true, Bool.and_false, Bool.false_eq_true, if_false, found]
  exact entries

/-- Powers in a floating-point type. -/
theorem pow_apply (hv : v.Factor x) (hw : w.Factor y) (typed : (v.isTyped || w.isTyped) = true)
    (inexact : (x.common y).IsInexact) (fits : Shape.broadcast? x.shape y.shape = some S) :
    ∃ r a, v.pow w = .ok r ∧ r.Carries a ∧ a.shape = S := by
  obtain ⟨r, a, run, carries, shape⟩ := powEntries_eq (v.isPoint && w.isPoint) hv hw inexact fits
  have apply : v.pow w = pow.typed (v.isPoint && w.isPoint) x y := apply_eq rfl hv.meets hw.meets typed
  rw [apply]
  cases hv with
  | elements hv =>
    simp only [pow]
    split
    next c short =>
      split at short
      · cases short
      · obtain ⟨shape', flat⟩ := shape_of_shortPower short
        rw [flat] at fits
        refine ⟨_, c, rfl, carries_collapse c, shape'.trans ?_⟩
        exact Option.some.inj ((Shape.Stretches.nil _).broadcast?.2.symm.trans fits)
    next => exact ⟨r, a, run, carries, shape⟩
  | real | whole => exact ⟨r, a, run, carries, shape⟩

end Operator

/-! ### Derivatives of arithmetic -/

namespace Value

/-- What is returned for an argument: nothing, or a derivative in its shape. -/
def Answers (v d : Value) : Prop := d = .none ∨ d.Varies v.shape

/-- An exponent that can be lowered by one. -/
inductive Exponent : Value → Operand → Prop where
  | elements {v : Value} {a : TypedArray} : v.Carries a → Exponent v (.typed a)
  | real (x : Float) : Exponent (.float x) (.real x)
  | whole {n : Int} : (doubleOfInt n).isFinite = true → (doubleOfInt (n - 1)).isFinite = true →
    Exponent (.int n) (.whole n)

variable {v w d : Value} {x y : Operand} {s S : Shape}

theorem Varies.answers (h : d.Varies x.shape) (hv : v.Factor x) : v.Answers d :=
  .inr (hv.meets.shape ▸ h)

theorem Exponent.factor (h : w.Exponent y) : w.Factor y := by
  cases h with
  | elements h => exact .elements h
  | real x => exact .real x
  | whole finite => exact .whole finite

/-- An exponent less one takes part in arithmetic as the exponent does. -/
theorem Exponent.lowered (h : w.Exponent y) : ∃ w' y', w.sub (.int 1) = .ok w' ∧ w'.Factor y' ∧
    y'.shape = y.shape ∧ (w.isTyped = true → w'.isTyped = true) ∧
    ∀ {v x}, Factor v x → (x.common y).IsInexact → (x.common y').IsInexact := by
  cases h with
  | @elements w b h =>
    obtain ⟨one, f, found⟩ := b.elementType.withWhole_sub
    obtain ⟨r, c, run, carries, type, shape⟩ :=
      Operator.entrywise_carries (x := .typed b) (y := .whole 1) f trivial one
        (Shape.Stretches.nil _).broadcast?.2
    have typed : (w.isTyped || (Value.int 1).isTyped) = true := by rw [h.isTyped, Bool.true_or]
    have apply : w.sub (.int 1) = Operator.entrywise f (.typed b) (.whole 1) := by
      have plain : Operator.sub.sequences w (.int 1) = Option.none := rfl
      refine (Operator.apply_eq plain (.typed h) (.whole 1) typed).trans ?_
      simp only [Operator.sub, Operand.common, found, Operator.entrywise?]
    refine ⟨r, _, apply.trans run, .elements carries, shape, fun _ => carries.isTyped, ?_⟩
    intro v x hx inexact
    cases hx with
    | real => exact ElementType.withReal_isInexact _
    | @elements _ a =>
      change (a.elementType.join c.elementType).IsInexact
      rw [type]
      exact ElementType.IsInexact.join_withWhole inexact
    | whole =>
      change c.elementType.withWhole.IsInexact
      rw [type]
      exact ElementType.IsInexact.withWhole inexact
  | real z =>
    refine ⟨_, _, rfl, .real (z - doubleOfInt 1), rfl, id, fun hx inexact => ?_⟩
    cases hx <;> exact inexact
  | whole finite lowered =>
    refine ⟨_, _, rfl, .whole lowered, rfl, id, fun hx inexact => ?_⟩
    cases hx <;> exact inexact

/-- The square of a divisor is a factor. -/
theorem Divisor.square (h : w.Divisor y) : ∃ w' y', w.mul w = .ok w' ∧ w'.Factor y' ∧
    y'.shape = y.shape ∧ (w.isTyped = true → w'.isTyped = true) := by
  cases h with
  | @elements w b h =>
    have typed : (w.isTyped || w.isTyped) = true := by rw [h.isTyped, Bool.true_or]
    have meets : w.Meets (.typed b) := .typed h
    obtain ⟨r, c, run, carries, -, shape⟩ := Operator.entrywise_carries (x := .typed b) (y := .typed b)
      (if w.isPoint && w.isPoint then ElementType.mul _ else ElementType.arrayMul _) trivial trivial
      (Shape.broadcast?_self b.shape)
    refine ⟨r, _, ?_, .elements carries, shape, fun _ => carries.isTyped⟩
    exact (Operator.apply_eq (Operator.sequences_mul meets meets) meets meets typed).trans run
  | @real z => exact ⟨_, _, rfl, .real (z * z), rfl, id⟩
  | whole _ _ square => exact ⟨_, _, rfl, .whole square, rfl, id⟩

end Value

namespace Kernel

open Shape Value

/-- A call with one positional argument. -/
theorem unaryKernel_eq (p : Parameter) (f : Value → Except Error Value) (x : Value) :
    unaryKernel p f [x] [] = f x := rfl

/-- A call with two positional arguments. -/
theorem binaryKernel_eq (p q : Parameter) (f : Value → Value → Except Error Value) (x y : Value) :
    binaryKernel p q f [x, y] [] = f x y := rfl

/-- For every argument the kernel returns nothing, or a derivative in the shape of the argument. -/
def Returns (k : Kernel) (args : List Value) (kw : Keywords) (dy : Value) : Prop :=
  ∃ ders, k (args ++ [dy]) kw = .ok (derivatives ders) ∧ List.Forall₂ Answers args ders

section
variable {a b dy : Value} {x y : Operand} {D P Q : Shape}

theorem addBackward_returns (ha : a.Factor x) (hb : b.Factor y) (hd : dy.Varies D)
    (toA : Reaches D x.shape) (toB : Reaches D y.shape) (small : D.length ≤ maximalRank) :
    Returns addBackward [a, b] [] dy := by
  obtain ⟨da, left, va⟩ := unbroadcast_varies hd ha toA small
  obtain ⟨db, right, vb⟩ := unbroadcast_varies hd hb toB small
  exact ⟨[da, db], (ternaryKernel_eq ..).trans (bind_eq_of_ok left (bind_eq_of_ok right rfl)),
    .cons (va.answers ha) (.cons (vb.answers hb) .nil)⟩

theorem subBackward_returns (ha : a.Factor x) (hb : b.Factor y) (hd : dy.Varies D)
    (toA : Reaches D x.shape) (toB : Reaches D y.shape) (small : D.length ≤ maximalRank) :
    Returns subBackward [a, b] [] dy := by
  obtain ⟨da, left, va⟩ := unbroadcast_varies hd ha toA small
  obtain ⟨n, neg, hn⟩ := hd.neg
  obtain ⟨db, right, vb⟩ := unbroadcast_varies hn hb toB small
  exact ⟨[da, db], (ternaryKernel_eq ..).trans
      (bind_eq_of_ok left (bind_eq_of_ok neg (bind_eq_of_ok right rfl))),
    .cons (va.answers ha) (.cons (vb.answers hb) .nil)⟩

theorem mulBackward_returns (ha : a.Factor x) (hb : b.Factor y) (hd : dy.Varies D)
    (withB : Shape.broadcast? D y.shape = some P) (toA : Reaches P x.shape)
    (withA : Shape.broadcast? D x.shape = some Q) (toB : Reaches Q y.shape)
    (smallP : P.length ≤ maximalRank) (smallQ : Q.length ≤ maximalRank) :
    Returns mulBackward [a, b] [] dy := by
  obtain ⟨p, timesB, hp⟩ := Operator.floats_mul.apply_varies hd hb withB
  obtain ⟨da, left, va⟩ := unbroadcast_varies hp ha toA smallP
  obtain ⟨q, timesA, hq⟩ := Operator.floats_mul.apply_varies hd ha withA
  obtain ⟨db, right, vb⟩ := unbroadcast_varies hq hb toB smallQ
  exact ⟨[da, db], (ternaryKernel_eq ..).trans
      (bind_eq_of_ok timesB (bind_eq_of_ok left (bind_eq_of_ok timesA (bind_eq_of_ok right rfl)))),
    .cons (va.answers ha) (.cons (vb.answers hb) .nil)⟩

/-- A product with an operand, divided by the square of the other one. -/
theorem mul_div_square (ha : a.Factor x) (hb : b.Divisor y) (hd : dy.Varies D)
    (typed : (a.isTyped || b.isTyped) = true) (withA : Shape.broadcast? D x.shape = some Q)
    (withB : Shape.broadcast? Q y.shape = some P) :
    ∃ p q r, dy.mul a = .ok p ∧ b.mul b = .ok q ∧ p.div q = .ok r ∧ r.Varies P := by
  obtain ⟨q, z, square, hq, shape, typedQ⟩ := hb.square
  have product : ∃ p, dy.mul a = .ok p ∧ p.Varies Q ∧ (p.isTyped || q.isTyped) = true := by
    by_cases elements : (dy.isTyped || a.isTyped) = true
    · obtain ⟨p, run, typedP, hp⟩ := Operator.floats_mul.apply_varies_typed hd ha elements withA
      exact ⟨p, run, hp, by rw [typedP, Bool.true_or]⟩
    · obtain ⟨p, run, hp⟩ := Operator.floats_mul.apply_varies hd ha withA
      have typedB : b.isTyped = true := by
        simp only [Bool.or_eq_true, not_or, Bool.not_eq_true] at elements
        simpa [elements.2] using typed
      exact ⟨p, run, hp, by rw [typedQ typedB, Bool.or_true]⟩
  obtain ⟨p, run, hp, typedP⟩ := product
  obtain ⟨r, quotient, -, hr⟩ :=
    Operator.floats_div.apply_varies_typed hp hq typedP (shape ▸ withB)
  exact ⟨p, q, r, run, square, quotient, hr⟩

theorem divBackward_returns {P' : Shape} (ha : a.Factor x) (hb : b.Divisor y) (hd : dy.Varies D)
    (typed : (a.isTyped || b.isTyped) = true) (withB : Shape.broadcast? D y.shape = some P)
    (toA : Reaches P x.shape) (withA : Shape.broadcast? D x.shape = some Q)
    (withB' : Shape.broadcast? Q y.shape = some P') (toB : Reaches P' y.shape)
    (smallP : P.length ≤ maximalRank) (smallP' : P'.length ≤ maximalRank) :
    Returns divBackward [a, b] [] dy := by
  obtain ⟨p, overB, hp⟩ := Operator.floats_div.apply_varies hd hb withB
  obtain ⟨da, left, va⟩ := unbroadcast_varies hp ha toA smallP
  obtain ⟨n, neg, hn⟩ := hd.neg
  obtain ⟨q, z, r, timesA, square, quotient, hr⟩ := mul_div_square ha hb hn typed withA withB'
  obtain ⟨db, right, vb⟩ := unbroadcast_varies hr hb.factor toB smallP'
  exact ⟨[da, db], (ternaryKernel_eq ..).trans
      (bind_eq_of_ok overB (bind_eq_of_ok left (bind_eq_of_ok neg (bind_eq_of_ok timesA
        (bind_eq_of_ok square (bind_eq_of_ok quotient (bind_eq_of_ok right rfl))))))),
    .cons (va.answers ha) (.cons (vb.answers hb.factor) .nil)⟩

theorem powBackward_returns (ha : a.Factor x) (hb : b.Exponent y) (hd : dy.Varies D)
    (typed : (a.isTyped || b.isTyped) = true) (inexact : (x.common y).IsInexact)
    (fits : Shape.broadcast? x.shape y.shape = some Q) (withB : Shape.broadcast? D y.shape = some P)
    (within : Stretches P Q) (small : Q.length ≤ maximalRank) :
    Returns powBackward [a, b] [] dy := by
  obtain ⟨scaled, times, hs⟩ := Operator.floats_mul.apply_varies hd hb.factor withB
  obtain ⟨low, z, less, hl, shape, typedL, common⟩ := hb.lowered
  have typed' : (a.isTyped || low.isTyped) = true := by
    rw [Bool.or_eq_true] at typed ⊢
    exact typed.imp_right typedL
  obtain ⟨r, c, power, carries, shape'⟩ :=
    Operator.pow_apply ha hl typed' (common ha inexact) (shape ▸ fits)
  obtain ⟨q, product, hq⟩ := Operator.floats_mul.apply_varies hs (.elements carries)
    (show Shape.broadcast? P c.shape = some Q from shape' ▸ within.broadcast?.1)
  obtain ⟨da, left, va⟩ := unbroadcast_varies hq ha (.inl (stretches_of_broadcast? fits).1) small
  exact ⟨[da, .none], (ternaryKernel_eq ..).trans (bind_eq_of_ok times (bind_eq_of_ok less
      (bind_eq_of_ok power (bind_eq_of_ok product (bind_eq_of_ok left rfl))))),
    .cons (va.answers ha) (.cons (.inl rfl) .nil)⟩

theorem negBackward_returns (ha : a.Factor x) (hd : dy.Varies x.shape) :
    Returns negBackward [a] [] dy := by
  obtain ⟨n, neg, hn⟩ := hd.neg
  exact ⟨[n], (binaryKernel_eq ..).trans (bind_eq_of_ok neg rfl), .cons (hn.answers ha) .nil⟩

end

end Kernel

/-! ### Derivatives of functions of one argument -/

namespace Value

variable {v r : Value} {a : TypedArray}

theorem Carries.applyElementary (h : v.Carries a) (f : Elementary) : ∃ r c,
    applyElementary f v = .ok r ∧ r.Carries c ∧ c.elementType.IsInexact ∧ c.shape = a.shape := by
  refine ⟨_, _, bind_eq_of_ok h.cells rfl, carries_collapse _, a.elementType.inexact_inexact, ?_⟩
  exact a.shape_convertTo

theorem Carries.sign (h : v.Carries a) (signed : a.elementType ≠ .bool) : ∃ r c,
    v.sign = .ok r ∧ r.Carries c ∧ c.shape = a.shape := by
  have found : ∃ f, a.elementType.sign? = some f := by
    cases type : a.elementType with
    | bool => exact absurd type signed
    | int | uint | float | complex => exact ⟨_, rfl⟩
  obtain ⟨f, found⟩ := found
  refine ⟨_, ⟨a.elementType, a.entries.map f⟩, bind_eq_of_ok h.cells ?_, carries_collapse _, rfl⟩
  simp only [found]
  rfl

theorem Carries.isPositive (h : v.Carries a) : ∃ r c,
    v.isPositive = .ok r ∧ r.Carries c ∧ c.shape = a.shape := by
  refine ⟨_, ⟨.bool, a.entries.map a.elementType.isPositive⟩, ?_, carries_collapse _, rfl⟩
  cases h <;> rfl

theorem Carries.neg (h : v.Carries a) (run : v.neg = .ok r) : ∃ c, r.Carries c ∧ c.shape = a.shape := by
  have run' : (negEntries a).map TypedArray.collapse = .ok r := by
    cases h <;> exact run
  cases negated : negEntries a with
  | error e =>
    rw [negated] at run'
    cases run'
  | ok c =>
    rw [negated] at run'
    cases run'
    refine ⟨c, carries_collapse c, ?_⟩
    unfold negEntries at negated
    split at negated
    · cases negated
      rfl
    · cases negated

theorem Carries.abs (h : v.Carries a) (run : v.abs = .ok r) : r.shape = a.shape := by
  have run' : (Except.ok (absEntries a).collapse : Except Error Value) = .ok r := by
    cases h <;> exact run
  cases run'
  obtain ⟨t, e⟩ := a
  cases t <;> exact (carries_collapse _).shape

end Value

namespace Kernel

open Shape Value

variable {a dy r d : Value} {b : TypedArray} {D : Shape}

theorem chain_returns {f : Value → Value → Except Error Value} (h : a.Carries b) (run : f a dy = .ok d)
    (hd : d.Varies b.shape) : Returns (chain f) [a] [] dy :=
  ⟨[d], (binaryKernel_eq ..).trans (bind_eq_of_ok run rfl), .cons (hd.answers (.elements h)) .nil⟩

/-- Something that varies, times elements. -/
theorem times_varies {v : Value} {c : TypedArray} (hd : dy.Varies D) (h : v.Carries c)
    (within : Stretches D c.shape) : ∃ r, dy.mul v = .ok r ∧ r.Varies c.shape :=
  Operator.floats_mul.apply_varies hd (.elements h) within.broadcast?.1

theorem expBackward_returns (h : a.Carries b) (run : expForward [a] [] = .ok r) (hd : dy.Varies D)
    (within : Stretches D r.shape) : Returns expBackward [a] [] dy := by
  obtain ⟨e, c, exp, carries, -, shape⟩ := h.applyElementary .exp
  cases exp.symm.trans run
  rw [carries.shape] at within
  obtain ⟨d, times, varies⟩ := times_varies hd carries within
  exact chain_returns h (bind_eq_of_ok exp times) (shape ▸ varies)

theorem logBackward_returns (h : a.Carries b) (run : logForward [a] [] = .ok r) (hd : dy.Varies D)
    (within : Stretches D r.shape) : Returns logBackward [a] [] dy := by
  obtain ⟨l, c, log, carries, -, shape⟩ := h.applyElementary .log
  cases log.symm.trans run
  rw [carries.shape, shape] at within
  obtain ⟨d, quotient, varies⟩ :=
    Operator.floats_div.apply_varies hd (.elements h) within.broadcast?.1
  exact chain_returns h quotient varies

theorem sqrtBackward_returns (h : a.Carries b) (run : sqrtForward [a] [] = .ok r) (hd : dy.Varies D)
    (within : Stretches D r.shape) : Returns sqrtBackward [a] [] dy := by
  obtain ⟨s, c, sqrt, carries, -, shape⟩ := h.applyElementary .sqrt
  cases sqrt.symm.trans run
  rw [carries.shape] at within
  obtain ⟨half, times, hh⟩ :=
    Operator.floats_mul.apply_varies hd (.real 0.5) (Stretches.nil D).broadcast?.2
  obtain ⟨d, quotient, varies⟩ :=
    Operator.floats_div.apply_varies hh (.elements carries) within.broadcast?.1
  exact chain_returns h (bind_eq_of_ok times (bind_eq_of_ok sqrt quotient)) (shape ▸ varies)

theorem absBackward_returns (h : a.Carries b) (signed : b.elementType ≠ .bool)
    (run : absForward [a] [] = .ok r) (hd : dy.Varies D) (within : Stretches D r.shape) :
    Returns absBackward [a] [] dy := by
  rw [h.abs run] at within
  obtain ⟨s, c, sign, carries, shape⟩ := h.sign signed
  obtain ⟨d, times, varies⟩ := times_varies hd carries (shape ▸ within)
  exact chain_returns h (bind_eq_of_ok sign times) (shape ▸ varies)

theorem reluBackward_returns (h : a.Carries b) (run : reluForward [a] [] = .ok r) (hd : dy.Varies D)
    (within : Stretches D r.shape) : Returns reluBackward [a] [] dy := by
  obtain ⟨p, c, positive, carries, shape⟩ := h.isPositive
  obtain ⟨q, found, product⟩ := ok_of_bind ((unaryKernel_eq ..).symm.trans run)
  cases positive.symm.trans found
  have fits := Operator.aligned_mul.shape (Operator.sequences_mul (.typed h) (.typed carries))
    (.typed h) (.typed carries) (by rw [h.isTyped, Bool.true_or]) product
  have same : r.shape = b.shape := by
    have fits' : Shape.broadcast? b.shape c.shape = some r.shape := fits
    rw [shape, Shape.broadcast?_self] at fits'
    exact (Option.some.inj fits').symm
  obtain ⟨d, times, varies⟩ := times_varies hd carries (shape ▸ same ▸ within)
  exact chain_returns h (bind_eq_of_ok positive times) (shape ▸ varies)

/-- An operation on one and floating-point elements. -/
theorem with_one {op : Operator} {P : Value → Operand → Prop} (floats : op.Floats P) {v : Value}
    {c : TypedArray} (h : v.Carries c) (inexact : c.elementType.IsInexact) : ∃ u e,
    op.apply (.int 1) v = .ok u ∧ u.Carries e ∧ e.elementType.IsInexact ∧ e.shape = c.shape := by
  have one : Factor (.int 1) (.whole 1) := .whole (isFinite_doubleOfInt (by decide))
  have typed : ((Value.int 1).isTyped || v.isTyped) = true := by rw [h.isTyped, Bool.or_true]
  exact floats.apply_typed one (.elements h) typed
    (show (Operand.common (.whole 1) (.typed c)).IsInexact from inexact.withWhole)
    (Stretches.nil c.shape).broadcast?.1

theorem tanhBackward_returns (h : a.Carries b) (run : tanhForward [a] [] = .ok r) (hd : dy.Varies D)
    (within : Stretches D r.shape) : Returns tanhBackward [a] [] dy := by
  obtain ⟨t, c, tanh, carries, inexact, shape⟩ := h.applyElementary .tanh
  cases tanh.symm.trans run
  rw [carries.shape, shape] at within
  obtain ⟨q, e, square, carries', inexact', shape'⟩ := Operator.floats_mul.apply_typed
    (.elements carries) (.elements carries) (by rw [carries.isTyped, Bool.true_or]) (inexact.join _).1
    (Shape.broadcast?_self c.shape)
  obtain ⟨u, e', rest, carries'', -, shape''⟩ := with_one Operator.floats_sub carries' inexact'
  have same : e'.shape = b.shape := shape''.trans (shape'.trans shape)
  obtain ⟨d, times, varies⟩ := times_varies hd carries'' (same ▸ within)
  exact chain_returns h (bind_eq_of_ok tanh (bind_eq_of_ok square (bind_eq_of_ok rest times)))
    (same ▸ varies)

/-- The logistic function of elements that have a negative. -/
theorem logistic_carries (h : a.Carries b) (run : logistic a = .ok r) :
    ∃ c, r.Carries c ∧ c.elementType.IsInexact ∧ c.shape = b.shape := by
  obtain ⟨n, neg, run⟩ := ok_of_bind run
  obtain ⟨m, hn, shapeN⟩ := h.neg neg
  obtain ⟨e, c, exp, he, inexactE, shapeE⟩ := hn.applyElementary .exp
  obtain ⟨p, c', sum, hp, inexactP, shapeP⟩ := with_one Operator.floats_add he inexactE
  obtain ⟨q, c'', quotient, hq, inexactQ, shapeQ⟩ := with_one Operator.floats_div hp inexactP
  cases run.symm.trans (bind_eq_of_ok exp (bind_eq_of_ok sum quotient))
  exact ⟨c'', hq, inexactQ, shapeQ.trans (shapeP.trans (shapeE.trans shapeN))⟩

theorem sigmoidBackward_returns (h : a.Carries b) (run : sigmoidForward [a] [] = .ok r)
    (hd : dy.Varies D) (within : Stretches D r.shape) : Returns sigmoidBackward [a] [] dy := by
  have run' : logistic a = .ok r := run
  obtain ⟨c, carries, inexact, shape⟩ := logistic_carries h run'
  rw [carries.shape] at within
  obtain ⟨m, times, hm⟩ := times_varies hd carries within
  obtain ⟨u, e, rest, carries', -, shape'⟩ := with_one Operator.floats_sub carries inexact
  obtain ⟨d, times', varies⟩ := times_varies hm carries' (shape' ▸ .refl _)
  exact chain_returns h (bind_eq_of_ok run' (bind_eq_of_ok times (bind_eq_of_ok rest times')))
    (shape ▸ shape' ▸ varies)

end Kernel

end Backprop
