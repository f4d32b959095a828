import Mathlib
import Backprop.Kernel.Builtin
import Backprop.Proofs.LinearExtents
/-!
# What backward kernels return

* `Kernel.sumBackward_returns` and `Kernel.meanBackward_returns`: the derivatives of reductions, for
  arguments given by name.
* `Kernel.Takes` says of a call of a built-in operation which derivatives its backward kernel takes: those in
  the shape of the result, and by `Kernel.Expands` one without axes where that is stretched.
* `Kernel.Takes.returns`: such a derivative is sent back to every operand, in the shape of the operand.
-/

namespace Backprop

namespace Kernel

open Shape Value

variable {a dy r axis keep : Value} {A : TypedArray} {D : Shape} {axes : List Nat} {k : Bool}
  {kw : Keywords}

/-! ### Reductions -/

section
variable {p : Parameter} {ps : List Parameter} {as args rest : List Value}

/-- A positional argument is not given by name, too. -/
theorem bindArguments_cons_eq_ok_iff : bindArguments (p :: ps) (a :: as) kw = .ok args ↔
    (kw.lookup p.name).isSome = false ∧ ∃ rest, bindArguments ps as kw = .ok rest ∧ args = a :: rest := by
  have whole : bindArguments (p :: ps) (a :: as) kw = if (kw.lookup p.name).isSome then .error .badCall
      else (do return a :: (← bindArguments ps as kw)) := by
    rw [bindArguments]
    rfl
  rw [whole]
  constructor
  · intro bound
    split at bound
    · cases bound
    next free =>
      obtain ⟨rest, named, same⟩ := ok_of_bind bound
      cases same
      exact ⟨Bool.eq_false_iff.mpr free, rest, named, rfl⟩
  · rintro ⟨free, rest, named, rfl⟩
    rw [if_neg (by simp [free])]
    exact bind_eq_of_ok named rfl

/-- Only the axis and the flag of a reduction are given by name. -/
theorem bindArguments_reduction (bound : bindArguments [axisParameter, keepParameter] [] kw = .ok rest) :
    rest = [(kw.lookup "axis").getD .none, (kw.lookup "keepdims").getD (.bool false)] ∧
      kw.lookup "dy" = .none := by
  have keys : (kw.all fun entry => [axisParameter, keepParameter].any (·.name == entry.1)) = true := by
    by_contra strange
    have refused : bindArguments [axisParameter, keepParameter] [] kw = .error .badCall :=
      if_neg strange
    cases refused.symm.trans bound
  have values : bindArguments [axisParameter, keepParameter] [] kw =
      .ok [(kw.lookup "axis").getD .none, (kw.lookup "keepdims").getD (.bool false)] := by
    refine (if_pos keys).trans ?_
    cases first : kw.lookup "axis" <;> cases second : kw.lookup "keepdims" <;>
      simp [axisParameter, keepParameter, optional, first, second] <;> rfl
  cases values.symm.trans bound
  refine ⟨rfl, List.lookup_eq_none_iff.mpr fun entry member => ?_⟩
  have key := List.all_eq_true.mp keys entry member
  simp only [axisParameter, keepParameter, optional, List.any_cons, List.any_nil, Bool.or_false,
    Bool.or_eq_true, beq_iff_eq] at key
  rcases key with key | key <;> rw [← key] <;> decide

end

/-- A reduction that gets its axis and its flag by name is called backward in the same way. -/
theorem reduction_call {f : Value → Value → Value → Except Error Value}
    (run : ternaryKernel operandA axisParameter keepParameter f [a] kw = .ok r) : ∃ axis keep,
      (kw.lookup "axis").getD .none = axis ∧ (kw.lookup "keepdims").getD (.bool false) = keep ∧
      f a axis keep = .ok r ∧
      ∀ (g : Value → Value → Value → Value → Except Error Value) dy,
        quaternaryKernel operandA derivative axisParameter keepParameter g [a, dy] kw =
          g a dy axis keep := by
  obtain ⟨args, bound, run⟩ := ok_of_bind run
  obtain ⟨free, rest, named, rfl⟩ := bindArguments_cons_eq_ok_iff.mp bound
  obtain ⟨rfl, unnamed⟩ := bindArguments_reduction named
  refine ⟨_, _, rfl, rfl, run, fun g dy => ?_⟩
  have free' : (kw.lookup derivative.name).isSome = false := congrArg Option.isSome unnamed
  have inner : bindArguments [derivative, axisParameter, keepParameter] [dy] kw = .ok (dy :: _) :=
    bindArguments_cons_eq_ok_iff.mpr ⟨free', _, named, rfl⟩
  have outer : bindArguments [operandA, derivative, axisParameter, keepParameter] [a, dy] kw =
      .ok (a :: _) := bindArguments_cons_eq_ok_iff.mpr ⟨free, _, inner, rfl⟩
  unfold quaternaryKernel
  rw [outer]
  rfl

/-- Axes that were dropped are put back. -/
theorem insert_dropped {l : Shape} (hd : dy.Varies (without axes l)) (nodup : axes.Nodup)
    (bound : ∀ j ∈ axes, j < l.length) (small : l.length ≤ maximalRank) :
    ∃ w, ((axes.map Int.ofNat).mergeSort fun a b => a ≤ b).foldlM (fun d j => d.insertAxis j) dy = .ok w ∧
      w.Varies (withAt 1 axes l) := by
  by_cases flat : l = []
  · subst flat
    obtain rfl : axes = [] :=
      List.eq_nil_iff_forall_not_mem.mpr fun j hj => absurd (bound j hj) (Nat.not_lt_zero j)
    exact ⟨dy, by simp; rfl, hd⟩
  · obtain ⟨⟨t, e⟩, stands, inexact, shape⟩ := hd.stands
    obtain ⟨ks, perm, sorted, order⟩ := sorted_axes nodup
    have shape' : e.shape = without ks l := by
      rw [← without_perm perm]
      exact shape
    obtain ⟨w, e', run, stands', result, -⟩ :=
      Stands.insertAxes sorted (fun j hj => bound j (perm.mem_iff.mpr hj)) small stands shape'
    have axes' : e'.shape ≠ [] := by
      rw [result]
      simpa [withAt] using flat
    obtain rfl := stands'.array axes'
    rw [order, List.foldlM_map, withAt_perm perm]
    exact ⟨_, run, .elements (.array _) inexact result⟩

/-- A derivative of a reduction in the shape of what was reduced, if it can be stretched once the axes
that were dropped are put back. -/
theorem expandReduced_varies (ha : a.Carries A) (flag : keep.truth = .ok k) (nodup : axes.Nodup)
    (lists : axisNumbers axis A.shape.length = .ok (axes.map fun j => some (Int.ofNat j)))
    (small : A.shape.length ≤ maximalRank) (hd : dy.Varies D)
    (there : k = true ∨ A.shape = [] → Stretches D A.shape)
    (dropped : k = false → ∃ l, D = without axes l ∧ l.length ≤ A.shape.length ∧
      (∀ j ∈ axes, j < l.length) ∧ Stretches (withAt 1 axes l) A.shape) :
    ∃ w, expandReduced dy a axis keep = .ok w ∧ w.isTyped = true ∧ w.Varies A.shape := by
  obtain ⟨z, zeros, typed, hz⟩ := ha.zeros_vary
  by_cases insert : k = false ∧ A.shape ≠ []
  · obtain ⟨rfl, some⟩ := insert
    obtain ⟨l, rfl, short, bound, stretch⟩ := dropped rfl
    obtain ⟨w, inserted, hw⟩ := insert_dropped hd nodup bound (short.trans small)
    obtain ⟨r, sum, typed', hr⟩ := hz.zeros_add typed hw stretch
    rw [← ha.shape] at some lists
    exact ⟨r, (expandReduced_insert zeros flag some lists inserted).trans sum, typed', hr⟩
  · have kept : k = true ∨ A.shape = [] := by
      cases k with
      | true => exact .inl rfl
      | false => exact .inr (by_contra fun some => insert ⟨rfl, some⟩)
    obtain ⟨r, sum, typed', hr⟩ := hz.zeros_add typed hd (there kept)
    exact ⟨r, (expandReduced_keep zeros flag (ha.shape ▸ insert)).trans sum, typed', hr⟩

/-- A derivative has the shape of the result, or has no axes and is stretched. -/
def Expands (r : Value) (D : Shape) (stretched : Prop) : Prop := D = r.shape ∨ D = [] ∧ stretched

theorem Expands.stretches {stretched : Prop} (h : Expands r D stretched) : Stretches D r.shape := by
  rcases h with rfl | ⟨rfl, -⟩
  · exact .refl _
  · exact .nil _

/-- Undoing a broadcast leads from the derivative to an operand. -/
theorem Expands.reaches {stretched : Prop} {s : Shape} (h : Expands r D stretched)
    (fits : Stretches s r.shape) : Reaches D s := by
  rcases h with rfl | ⟨rfl, -⟩
  · exact .inl fits
  · exact .of_nil s

/-- Ones stretch to every shape that has as many axes. -/
theorem stretches_replicate {m : Nat} {S : Shape} (short : m ≤ S.length) :
    Stretches (List.replicate m 1) S := by
  have length : (S.drop (S.length - m)).length = m := by simp; omega
  refine ⟨S.take (S.length - m), S.drop (S.length - m), (List.take_append_drop ..).symm, ?_⟩
  refine List.forall₂_iff_get.mpr ⟨by simp [length], fun i hi _ => .inr ?_⟩
  simp

/-- Leading axes are reduced, or axes that stay. -/
def Leading (axes : List Nat) (keep : Bool) : Prop := keep = true ∨ ∃ m, axes.Perm (List.range m)

/-- A reduction of something of shape `S` that has no axes to put back but leading ones. -/
def LeadingCall (S : Shape) (kw : Keywords) : Prop :=
  ∀ axes k, ((kw.lookup "keepdims").getD (.bool false)).flag = .ok k →
    sumAxes S.length ((kw.lookup "axis").getD .none) = .ok axes → Leading axes k

theorem Leading.expands (leading : Leading axes false) {S : Shape} (bound : ∀ j ∈ axes, j < S.length) :
    ∃ l, [] = without axes l ∧ l.length ≤ S.length ∧ (∀ j ∈ axes, j < l.length) ∧
      Stretches (withAt 1 axes l) S := by
  obtain ⟨m, perm⟩ := leading.resolve_left Bool.false_ne_true
  have short : m ≤ S.length := by
    by_contra long
    have last := bound (m - 1) (perm.mem_iff.mpr (List.mem_range.mpr (by omega)))
    omega
  have ones : withAt 1 axes (List.replicate m 1) = List.replicate m 1 := by
    refine List.eq_replicate_iff.mpr ⟨by simp [withAt], fun x hx => ?_⟩
    obtain ⟨⟨y, k⟩, hy, rfl⟩ := List.mem_map.mp hx
    obtain rfl : y = 1 := List.eq_of_mem_replicate (List.fst_mem_of_mem_zipIdx hy)
    simp
  refine ⟨List.replicate m 1, ?_, by simpa using short, fun j hj => ?_, ?_⟩
  · rw [without_perm perm, without_range, List.drop_replicate, Nat.sub_self]
    rfl
  · simpa using perm.mem_iff.mp hj
  · rw [ones]
    exact stretches_replicate short

/-- What a reduction needs to send a derivative back. -/
theorem reduction_expands (ha : a.Carries A) (small : A.shape.length ≤ maximalRank)
    (flag : keep.flag = .ok k) (summed : sumAxes A.shape.length axis = .ok axes)
    (lists : axis.ListsAxes A.shape.length) (hd : dy.Varies D)
    (shape : D = A.shape.reduce axes k ∨ D = [] ∧ Leading axes k) :
    ∃ w, expandReduced dy a axis keep = .ok w ∧ w.isTyped = true ∧ w.Varies A.shape := by
  obtain ⟨nodup, bound⟩ := sumAxes_spec summed
  refine expandReduced_varies ha (truth_of_flag flag) nodup (axisNumbers_of_sumAxes lists summed) small hd
    (fun kept => ?_) fun dropped => ?_
  · rcases shape with rfl | ⟨rfl, -⟩
    · rcases kept with rfl | flat
      · exact stretches_withAt
      · rw [flat]
        cases k <;> exact .nil []
    · exact .nil _
  · subst dropped
    rcases shape with rfl | ⟨rfl, leading⟩
    · exact ⟨A.shape, rfl, le_rfl, bound, stretches_withAt⟩
    · exact leading.expands bound

theorem sumBackward_returns (ha : a.Carries A) (small : A.shape.length ≤ maximalRank)
    (lists : ((kw.lookup "axis").getD .none).ListsAxes A.shape.length)
    (run : sumForward [a] kw = .ok r) (hd : dy.Varies D)
    (expands : Expands r D (LeadingCall A.shape kw)) :
    Returns sumBackward [a] kw dy := by
  obtain ⟨axis, keep, rfl, rfl, run, call⟩ := reduction_call run
  obtain ⟨k, axes, flag, summed, rfl⟩ := (Stands.carries ha).sum_eq_ok_iff.mp run
  have result : (sumElements A axes k).collapse.shape = A.shape.reduce axes k :=
    (carries_collapse _).shape.trans shape_sumElements
  obtain ⟨w, expand, -, hw⟩ := reduction_expands ha small flag summed lists hd
    (expands.imp (fun same => same.trans result) fun ⟨flat, leading⟩ => ⟨flat, leading axes k flag summed⟩)
  exact ⟨[w], (call _ dy).trans (bind_eq_of_ok expand rfl), .cons (hw.answers (.elements ha)) .nil⟩

theorem meanBackward_returns (ha : a.Carries A) (storable : A.Storable)
    (run : meanForward [a] kw = .ok r) (hd : dy.Varies D)
    (expands : Expands r D (LeadingCall A.shape kw)) :
    Returns meanBackward [a] kw dy := by
  obtain ⟨axis, keep, rfl, rfl, run, call⟩ := reduction_call run
  obtain ⟨n, counted, run⟩ := ok_of_bind run
  obtain ⟨s, sum, divided⟩ := ok_of_bind run
  obtain ⟨k, axes, flag, summed, rfl⟩ := (Stands.carries ha).sum_eq_ok_iff.mp sum
  obtain ⟨nodup, bound⟩ := sumAxes_spec summed
  have lists := (reducedSize_isOk_iff summed).mp ⟨n, ha.shape ▸ counted⟩
  have size := reducedSize_eq (axisNumbers_of_sumAxes lists summed) bound
  have few := storable.reducedCount_lt nodup bound
  obtain rfl : n = reducedCount axes A.shape := by
    rw [ha.shape] at counted
    exact Except.ok.inj (counted.symm.trans size)
  obtain ⟨m, b, quotient, carries, shape'⟩ := @sum_div A axes k _ few
  cases quotient.symm.trans divided
  obtain ⟨w, expand, typed, hw⟩ := reduction_expands ha storable.rank flag summed lists hd
    (expands.imp (fun same => same.trans (carries.shape.trans shape'))
      fun ⟨flat, leading⟩ => ⟨flat, leading axes k flag summed⟩)
  have count : Factor (.int (reducedCount axes A.shape)) (.whole (reducedCount axes A.shape)) :=
    .whole (isFinite_doubleOfInt (by simp; omega))
  obtain ⟨q, run, -, hq⟩ := Operator.floats_div.apply_varies_typed hw count (by rw [typed, Bool.true_or])
    (Stretches.nil A.shape).broadcast?.2
  exact ⟨[q], (call _ dy).trans (bind_eq_of_ok counted (bind_eq_of_ok expand (bind_eq_of_ok run rfl))),
    .cons (hq.answers (.elements ha)) .nil⟩

/-! ### Built-in operations -/

/-- An operation of one output that has a derivative. -/
def differentiated (kind : String) (forward backward : Kernel) : Operation :=
  ⟨kind, forward, some backward, .none, 1⟩

/-- The operations that apply a function to every entry. -/
def elementary : List Operation := [
  differentiated "exp" expForward expBackward, differentiated "log" logForward logBackward,
  differentiated "sqrt" sqrtForward sqrtBackward, differentiated "tanh" tanhForward tanhBackward,
  differentiated "sigmoid" sigmoidForward sigmoidBackward, differentiated "relu" reluForward reluBackward]

/-- A call of a built-in operation with result `r` whose backward kernel takes a derivative of shape `D`.

The operands are positional: elements, and plain numbers that are finite as doubles. No array has too many
axes. A divisor is no plain zero, and powers are taken in a floating-point type. All kernels take a
derivative in the shape of the result, if it has axes where these are rearranged. One without axes is
stretched by sums, differences, powers, indexing and functions of every entry, by products and quotients
of operands that can be reached from each other, and by reductions along leading axes. -/
inductive Takes (r : Value) (D : Shape) : Operation → List Value → Keywords → Prop where
  | add {a b : Value} {x y : Operand} : a.Factor x → b.Factor y → (a.isTyped || b.isTyped) = true →
      r.shape.length ≤ maximalRank → Expands r D True →
      Takes r D (differentiated "add" addForward addBackward) [a, b] []
  | sub {a b : Value} {x y : Operand} : a.Factor x → b.Factor y → (a.isTyped || b.isTyped) = true →
      r.shape.length ≤ maximalRank → Expands r D True →
      Takes r D (differentiated "sub" subForward subBackward) [a, b] []
  | mul {a b : Value} {x y : Operand} : a.Factor x → b.Factor y → (a.isTyped || b.isTyped) = true →
      r.shape.length ≤ maximalRank → Expands r D (Reaches y.shape x.shape ∧ Reaches x.shape y.shape) →
      Takes r D (differentiated "mul" mulForward mulBackward) [a, b] []
  | div {a b : Value} {x y : Operand} : a.Factor x → b.Divisor y → (a.isTyped || b.isTyped) = true →
      r.shape.length ≤ maximalRank → Expands r D (Reaches y.shape x.shape) →
      Takes r D (differentiated "div" divForward divBackward) [a, b] []
  | pow {a b : Value} {x y : Operand} : a.Factor x → b.Exponent y → (a.isTyped || b.isTyped) = true →
      (x.common y).IsInexact → r.shape.length ≤ maximalRank → Expands r D True →
      Takes r D (differentiated "pow" powForward powBackward) [a, b] []
  | neg {a : Value} {A : TypedArray} : a.Carries A → D = r.shape →
      Takes r D (differentiated "neg" negForward negBackward) [a] []
  | matmul {a b : Value} {A B : TypedArray} : a.Carries A → b.Carries B →
      A.shape.length ≤ maximalRank → B.shape.length ≤ maximalRank → D = r.shape →
      Takes r D (differentiated "matmul" matmulForward matmulBackward) [a, b] []
  | transpose {a : Value} {A : TypedArray} : a.Carries A → r.shape ≠ [] → D = r.shape →
      Takes r D (differentiated "transpose" transposeForward transposeBackward) [a] []
  | reshape {a : Value} {A : TypedArray} (s : Value) : a.Carries A → A.shape.Storable → r.shape ≠ [] →
      D = r.shape → Takes r D (differentiated "reshape" reshapeForward reshapeBackward) [a, s] []
  | getitem {a : Value} {A : TypedArray} (i : Value) : a.Carries A → Expands r D True →
      Takes r D (differentiated "getitem" getitemForward getitemBackward) [a, i] []
  | sum {a : Value} {A : TypedArray} {kw : Keywords} : a.Carries A → A.shape.length ≤ maximalRank →
      ((kw.lookup "axis").getD .none).ListsAxes A.shape.length → Expands r D (LeadingCall A.shape kw) →
      Takes r D (differentiated "sum" sumForward sumBackward) [a] kw
  | mean {a : Value} {A : TypedArray} {kw : Keywords} : a.Carries A → A.Storable →
      Expands r D (LeadingCall A.shape kw) → Takes r D (differentiated "mean" meanForward meanBackward) [a] kw
  | abs {a : Value} {A : TypedArray} : a.Carries A → A.elementType ≠ .bool → Expands r D True →
      Takes r D (differentiated "abs" absForward absBackward) [a] []
  | elementary {op : Operation} {a : Value} {A : TypedArray} : op ∈ Kernel.elementary → a.Carries A →
      Expands r D True → Takes r D op [a] []

theorem Takes.builtin {op : Operation} {args : List Value} (takes : Takes r D op args kw) :
    op ∈ Registry.builtin.entries := by
  cases takes with
  | elementary among =>
    simp only [Kernel.elementary, List.mem_cons, List.not_mem_nil, or_false] at among
    rcases among with rfl | rfl | rfl | rfl | rfl | rfl <;> simp [Registry.builtin, differentiated]
  | _ => simp [Registry.builtin, differentiated]

section
variable {b : Value} {x y : Operand} (ha : a.Factor x)
  (small : r.shape.length ≤ maximalRank) (hd : dy.Varies D)
include ha small hd

/-- Products send back what they are given, times the other operand. -/
theorem mul_returns (hb : b.Factor y) (fits : Shape.broadcast? x.shape y.shape = some r.shape)
    (expands : Expands r D (Reaches y.shape x.shape ∧ Reaches x.shape y.shape)) :
    Returns mulBackward [a, b] [] dy := by
  obtain ⟨toA, toB⟩ := stretches_of_broadcast? fits
  rcases expands with rfl | ⟨rfl, fromB, fromA⟩
  · exact mulBackward_returns ha hb hd toB.broadcast?.2 (.inl toA) toA.broadcast?.2 (.inl toB) small small
  · exact mulBackward_returns ha hb hd (Stretches.nil _).broadcast?.1 fromB
      (Stretches.nil _).broadcast?.1 fromA (toB.length_le.trans small) (toA.length_le.trans small)

theorem div_returns (hb : b.Divisor y) (typed : (a.isTyped || b.isTyped) = true)
    (fits : Shape.broadcast? x.shape y.shape = some r.shape)
    (expands : Expands r D (Reaches y.shape x.shape)) : Returns divBackward [a, b] [] dy := by
  obtain ⟨toA, toB⟩ := stretches_of_broadcast? fits
  rcases expands with rfl | ⟨rfl, fromB⟩
  · exact divBackward_returns ha hb hd typed toB.broadcast?.2 (.inl toA) toA.broadcast?.2
      toB.broadcast?.2 (.inl toB) small small
  · exact divBackward_returns ha hb hd typed (Stretches.nil _).broadcast?.1 fromB
      (Stretches.nil _).broadcast?.1 fits (.inl toB) (toB.length_le.trans small) small

theorem pow_returns (hb : b.Exponent y) (typed : (a.isTyped || b.isTyped) = true)
    (inexact : (x.common y).IsInexact) (fits : Shape.broadcast? x.shape y.shape = some r.shape)
    (expands : Expands r D True) : Returns powBackward [a, b] [] dy := by
  obtain ⟨-, toB⟩ := stretches_of_broadcast? fits
  rcases expands with rfl | ⟨rfl, -⟩
  · exact powBackward_returns ha hb hd typed inexact fits toB.broadcast?.2 (.refl _) small
  · exact powBackward_returns ha hb hd typed inexact fits (Stretches.nil _).broadcast?.1 toB small

end

/-- Functions of every entry stretch a derivative. -/
theorem elementary_returns {op : Operation} (among : op ∈ elementary) (ha : a.Carries A)
    (run : op.forward [a] [] = .ok r) (hd : dy.Varies D) (within : Stretches D r.shape) :
    ∃ b, op.backward = some b ∧ Returns b [a] [] dy := by
  simp only [elementary, List.mem_cons, List.not_mem_nil, or_false] at among
  rcases among with rfl | rfl | rfl | rfl | rfl | rfl
  · exact ⟨_, rfl, expBackward_returns ha run hd within⟩
  · exact ⟨_, rfl, logBackward_returns ha run hd within⟩
  · exact ⟨_, rfl, sqrtBackward_returns ha run hd within⟩
  · exact ⟨_, rfl, tanhBackward_returns ha run hd within⟩
  · exact ⟨_, rfl, sigmoidBackward_returns ha run hd within⟩
  · exact ⟨_, rfl, reluBackward_returns ha run hd within⟩

/-- The backward kernel sends a derivative of a shape that it takes back to every operand, in the shape of
the operand. -/
theorem Takes.returns {op : Operation} {args : List Value} (takes : Takes r D op args kw)
    (run : op.forward args kw = .ok r) (hd : dy.Varies D) :
    ∃ b, op.backward = some b ∧ Returns b args kw dy := by
  cases takes with
  | add ha hb typed small expands =>
    have fits := Operator.aligned_add.shape (Operator.sequences_add ha.meets _) ha.meets hb.meets typed run
    obtain ⟨toA, toB⟩ := stretches_of_broadcast? fits
    exact ⟨_, rfl, addBackward_returns ha hb hd (expands.reaches toA) (expands.reaches toB)
      (expands.stretches.length_le.trans small)⟩
  | sub ha hb typed small expands =>
    have fits := Operator.aligned_sub.shape rfl ha.meets hb.meets typed run
    obtain ⟨toA, toB⟩ := stretches_of_broadcast? fits
    exact ⟨_, rfl, subBackward_returns ha hb hd (expands.reaches toA) (expands.reaches toB)
      (expands.stretches.length_le.trans small)⟩
  | mul ha hb typed small expands =>
    have fits := Operator.aligned_mul.shape (Operator.sequences_mul ha.meets hb.meets) ha.meets hb.meets
      typed run
    exact ⟨_, rfl, mul_returns ha small hd hb fits expands⟩
  | div ha hb typed small expands =>
    have fits := Operator.aligned_div.shape rfl ha.meets hb.factor.meets typed run
    exact ⟨_, rfl, div_returns ha small hd hb typed fits expands⟩
  | pow ha hb typed inexact small expands =>
    have fits := Operator.aligned_pow.shape rfl ha.meets hb.factor.meets typed run
    exact ⟨_, rfl, pow_returns ha small hd hb typed inexact fits expands⟩
  | neg ha same =>
    subst same
    obtain ⟨c, carries, shape⟩ := ha.neg run
    have same : r.shape = (Operand.typed _).shape := carries.shape.trans shape
    exact ⟨_, rfl, negBackward_returns (.elements ha) (same ▸ hd)⟩
  | matmul ha hb ranka rankb same =>
    subst same
    exact ⟨_, rfl, matmulBackward_returns ha hb ranka rankb run hd⟩
  | transpose ha axes same =>
    subst same
    exact ⟨_, rfl, transposeBackward_returns ha run axes hd⟩
  | reshape s ha storable axes same =>
    subst same
    exact ⟨_, rfl, reshapeBackward_returns ha storable run axes hd⟩
  | getitem i ha expands => exact ⟨_, rfl, getitemBackward_returns ha run hd expands.stretches⟩
  | sum ha small lists expands =>
    exact ⟨_, rfl, sumBackward_returns ha small lists run hd expands⟩
  | mean ha storable expands =>
    exact ⟨_, rfl, meanBackward_returns ha storable run hd expands⟩
  | abs ha signed expands => exact ⟨_, rfl, absBackward_returns ha signed run hd expands.stretches⟩
  | elementary among ha expands => exact elementary_returns among ha run hd expands.stretches

end Kernel

end Backprop
