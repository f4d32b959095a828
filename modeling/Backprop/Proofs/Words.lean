import Mathlib
import Backprop.Value.Axis
import Backprop.Proofs.Positions
/-!
# Arithmetic on arrays of machine words

Entries of 64 bits wrap around, so arrays of them compute in a commutative ring.

* `Value.Words` says of a value that it is an array of words, or a single one, with certain entries;
  `Value.Operand` says so of what arithmetic takes in its place, which may be a plain whole number.
* `Operator.ActsOnWords.apply`: an operator that acts on words acts on the entries of broadcast arrays.
* `Value.sum_words`, `Value.sumAll_words`: sums along axes, and the sum of all entries.
* `Value.inner_words`: the sum of the products of entries.
-/

namespace Backprop

/-- The entries of arrays of 64 bits. -/
abbrev Word := BitVec Width.w64.bits

namespace Value

/-- An array of words, or a single one. -/
inductive IsWords : Value → Prop where
  | array (t : Tensor Word) : IsWords (.array ⟨.int .w64, t⟩)
  | scalar (x : Word) : IsWords (.scalar ⟨.int .w64, x⟩)

/-- What meets arrays of words in arithmetic: words, and plain whole numbers that are one. -/
inductive IsOperand : Value → Prop where
  | words {v : Value} : v.IsWords → IsOperand v
  | whole {n : Int} : ElementType.int64.holds n = true → IsOperand (.int n)

/-- The entry of a value at a position. -/
def wordAt : Value → List Nat → Word
  | .array ⟨.int .w64, t⟩, i => t.get i
  | .scalar ⟨.int .w64, x⟩, _ => x
  | .int n, _ => BitVec.ofInt _ n
  | _, _ => 0

/-- Words of a shape with certain entries. -/
structure Words (v : Value) (s : Shape) (f : List Nat → Word) : Prop where
  words : v.IsWords
  shape : v.shape = s
  entry : ∀ i ∈ s.box, v.wordAt i = f i

/-- An operand of a shape with certain entries. -/
structure Entries (v : Value) (s : Shape) (f : List Nat → Word) : Prop where
  operand : v.IsOperand
  shape : v.shape = s
  entry : ∀ i ∈ s.box, v.wordAt i = f i

variable {v w : Value} {s t S : Shape} {f g : List Nat → Word}

theorem IsWords.entries (h : v.IsWords) : v.Words v.shape v.wordAt := ⟨h, rfl, fun _ _ => rfl⟩

theorem IsOperand.entries (h : v.IsOperand) : v.Entries v.shape v.wordAt := ⟨h, rfl, fun _ _ => rfl⟩

theorem Words.entries (h : v.Words s f) : v.Entries s f := ⟨.words h.words, h.shape, h.entry⟩

theorem Words.congr (h : v.Words s f) (same : ∀ i ∈ s.box, f i = g i) : v.Words s g :=
  ⟨h.words, h.shape, fun i hi => (h.entry i hi).trans (same i hi)⟩

/-- The array that words stand for. -/
inductive Stores : Value → Tensor Word → Prop where
  | array (t : Tensor Word) : Stores (.array ⟨.int .w64, t⟩) t
  | scalar (x : Word) : Stores (.scalar ⟨.int .w64, x⟩) (.single x)

variable {t : Tensor Word}

theorem Stores.cells (h : v.Stores t) : v.cells = .ok (.elements ⟨.int .w64, t⟩) := by
  cases h <;> rfl

theorem Stores.toOperand (h : v.Stores t) : v.toOperand = .ok (.typed ⟨.int .w64, t⟩) := by
  cases h <;> rfl

theorem Stores.words (h : v.Stores t) : v.Words t.shape t.get := by
  cases h with
  | array t => exact ⟨.array t, rfl, fun _ _ => rfl⟩
  | scalar x =>
    refine ⟨.scalar x, rfl, fun i hi => ?_⟩
    obtain rfl := List.forall₂_nil_right_iff.mp (Shape.mem_box.mp hi)
    rfl

theorem Words.stored (h : v.Words s f) :
    ∃ t, v.Stores t ∧ t.shape = s ∧ ∀ i ∈ s.box, t.get i = f i := by
  obtain ⟨words, rfl, entry⟩ := h
  have stored : ∃ t, v.Stores t := by
    cases words with
    | array t => exact ⟨t, .array t⟩
    | scalar x => exact ⟨.single x, .scalar x⟩
  obtain ⟨t, ht⟩ := stored
  refine ⟨t, ht, ht.words.shape.symm, fun i hi => ?_⟩
  rw [← entry i hi, ht.words.entry i (ht.words.shape ▸ hi)]

/-- An array of words stays one when it is stored without its axes. -/
theorem stores_collapse (t : Tensor Word) : (TypedArray.collapse ⟨.int .w64, t⟩).Stores t := by
  unfold TypedArray.collapse
  split
  next flat =>
    obtain ⟨s, entries, size⟩ := t
    obtain rfl : s = [] := flat
    obtain ⟨x, rfl⟩ := Array.size_eq_one_iff.mp size
    exact .scalar x
  next => exact .array t

theorem words_collapse (t : Tensor Word) :
    (TypedArray.collapse ⟨.int .w64, t⟩).Words t.shape t.get := (stores_collapse t).words

theorem words_ofFn (s : Shape) (f : List Nat → Word) :
    (TypedArray.collapse ⟨.int .w64, .ofFn s f⟩).Words s f :=
  (words_collapse (.ofFn s f)).congr fun _ hi => Tensor.get_ofFn f hi

end Value

/-! ### Operators -/

namespace Operand

/-- An operand that stands for an array of words. -/
inductive OfWords : Operand → Tensor Word → Prop where
  | typed (t : Tensor Word) : OfWords (.typed ⟨.int .w64, t⟩) t
  | whole {n : Int} : ElementType.int64.holds n = true → OfWords (.whole n) (.single (BitVec.ofInt _ n))

variable {x y : Operand} {t u : Tensor Word}

theorem OfWords.convertTo (h : OfWords x t) : x.convertTo (.int .w64) = .ok t := by
  cases h with
  | typed => rfl
  | whole holds => exact if_pos holds

theorem OfWords.isValues (h : OfWords x t) : x.isValues = false := by
  cases h <;> rfl

theorem OfWords.isTexts (h : OfWords x t) : x.isTexts = false := by
  cases h <;> rfl

end Operand

namespace Value

variable {v w : Value} {s t S : Shape} {f g : List Nat → Word}

/-- What an operand is read as. Words are read as a typed array. -/
theorem Entries.toOperand (h : v.Entries s f) : ∃ x t, v.toOperand = .ok x ∧ Operand.OfWords x t ∧
    t.shape = s ∧ (∀ i ∈ s.box, t.get i = f i) ∧ (v.IsWords → ∃ a, x = .typed a) := by
  obtain ⟨operand, rfl, entry⟩ := h
  cases operand with
  | words words =>
    obtain ⟨t, stores, shape, entry⟩ := Words.stored ⟨words, rfl, entry⟩
    exact ⟨_, t, stores.toOperand, .typed t, shape, entry, fun _ => ⟨_, rfl⟩⟩
  | whole holds =>
    refine ⟨_, _, rfl, .whole holds, rfl, fun i hi => ?_, fun words => nomatch words⟩
    rw [← entry i hi]
    obtain rfl := List.forall₂_nil_right_iff.mp (Shape.mem_box.mp hi)
    rfl

theorem IsWords.isTyped (h : v.IsWords) : v.isTyped = true := by
  cases h <;> rfl

end Value

namespace Operator

/-- An operator that computes with words, entry by entry. -/
structure ActsOnWords (op : Operator) (act : Word → Word → Word) : Prop where
  sequences : ∀ a b, a.IsOperand → b.IsOperand → op.sequences a b = none
  typed : ∀ points x y t u, Operand.OfWords x t → Operand.OfWords y u →
    (∃ a, x = .typed a) ∨ (∃ a, y = .typed a) →
      op.typed points x y = entrywise (t := .int .w64) (u := .int .w64) act x y

theorem sequenceLength?_eq_none {v : Value} (h : v.IsOperand) : v.sequenceLength? = none := by
  cases h with
  | words words => cases words <;> rfl
  | whole => rfl

theorem append?_eq_none {v w : Value} (h : v.IsOperand) : v.append? w = none := by
  cases h with
  | words words => cases words <;> rfl
  | whole => rfl

theorem add_acts : add.ActsOnWords (· + ·) := by
  refine ⟨fun a b ha _ => ?_, fun points x y t u hx hy one => ?_⟩
  · simp [add, append?_eq_none ha]
  · cases hx <;> cases hy
    · rfl
    · rfl
    · rfl
    · simp at one

theorem sub_acts : sub.ActsOnWords (· - ·) := by
  refine ⟨fun a b _ _ => rfl, fun points x y t u hx hy one => ?_⟩
  cases hx <;> cases hy
  · rfl
  · rfl
  · rfl
  · simp at one

theorem mul_acts : mul.ActsOnWords (· * ·) := by
  refine ⟨fun a b ha hb => ?_, fun points x y t u hx hy one => ?_⟩
  · simp [mul, Value.repetition?, sequenceLength?_eq_none ha, sequenceLength?_eq_none hb]
  · cases points <;> cases hx <;> cases hy
    all_goals first | rfl | simp at one

/-- An operator on words acts on the entries of broadcast arrays. -/
theorem ActsOnWords.apply {op : Operator} {act : Word → Word → Word} (acts : op.ActsOnWords act)
    {v w : Value} {s t S : Shape} {f g : List Nat → Word} (hv : v.Entries s f) (hw : w.Entries t g)
    (one : v.IsWords ∨ w.IsWords) (fits : Shape.broadcast? s t = some S) :
    ∃ r, op.apply v w = .ok r ∧
      r.Words S fun i => act (f (s.project i)) (g (t.project i)) := by
  obtain ⟨x, a, hx, xa, as, af, typedx⟩ := hv.toOperand
  obtain ⟨y, b, hy, yb, bs, bg, typedy⟩ := hw.toOperand
  have typed : (v.isTyped || w.isTyped) = true := by
    rcases one with words | words
    · simp [words.isTyped]
    · simp [words.isTyped]
  have fits' : Shape.broadcast? a.shape b.shape = some S := by rw [as, bs, fits]
  have run : op.apply v w = .ok (TypedArray.collapse ⟨.int .w64,
      .ofFn S fun i => act (a.get (a.shape.project i)) (b.get (b.shape.project i))⟩) := by
    unfold Operator.apply applyWithin
    simp only [acts.sequences v w hv.operand hw.operand, typed, if_true, hx, hy, xa.isValues,
      yb.isValues, xa.isTexts, yb.isTexts, bind, Except.bind, Bool.or_self, Bool.false_eq_true,
      if_false]
    rw [acts.typed _ _ _ _ _ xa yb (one.imp typedx typedy)]
    simp only [entrywise, xa.convertTo, yb.convertTo, bind, Except.bind, Tensor.zipWith?, fits',
      Option.map_some]
    rfl
  refine ⟨_, run, (Value.words_ofFn S _).congr fun i hi => ?_⟩
  obtain ⟨left, right⟩ := Shape.stretches_of_broadcast? fits
  rw [as, bs, af _ (left.project_mem hi), bg _ (right.project_mem hi)]

end Operator

namespace Value

variable {v w : Value} {s t S : Shape} {f g : List Nat → Word}

section
variable (hv : v.Entries s f) (hw : w.Entries t g) (one : v.IsWords ∨ w.IsWords)
  (fits : Shape.broadcast? s t = some S)
include hv hw one fits

theorem add_words : ∃ r, v.add w = .ok r ∧ r.Words S fun i => f (s.project i) + g (t.project i) :=
  Operator.add_acts.apply hv hw one fits

theorem sub_words : ∃ r, v.sub w = .ok r ∧ r.Words S fun i => f (s.project i) - g (t.project i) :=
  Operator.sub_acts.apply hv hw one fits

theorem mul_words : ∃ r, v.mul w = .ok r ∧ r.Words S fun i => f (s.project i) * g (t.project i) :=
  Operator.mul_acts.apply hv hw one fits

end

/-- A word of its own. -/
def word (x : Word) : Value := .scalar ⟨.int .w64, x⟩

/-- The words from zero on, in row-major order. -/
def counting (s : Shape) : Value := .array ⟨.int .w64, .ofFn s fun i => BitVec.ofNat _ (s.offset i)⟩

theorem counting_isWords (s : Shape) : (counting s).IsWords := .array _

theorem neg_words (h : v.Words s f) : ∃ r, v.neg = .ok r ∧ r.Words s fun i => -f i := by
  obtain ⟨t, stores, rfl, entry⟩ := h.stored
  refine ⟨TypedArray.collapse ⟨.int .w64, t.map fun x => -x⟩, ?_, ?_⟩
  · cases stores
    all_goals
      simp only [neg, mapNumbers]
      rfl
  · refine (words_collapse (t.map fun x => -x)).congr fun i hi => ?_
    rw [Tensor.get_map _ t hi, entry i hi]

/-! ### Sums -/

/-- Sums of words are sums of their entries. -/
theorem Words.sum_eq (h : v.Words s f) {axis : Value} {axes : List Nat} (keep : Bool)
    (named : sumAxes s.length axis = .ok axes) :
    ∃ t : Tensor Word, v.sum axis (.bool keep) = .ok (TypedArray.collapse ⟨.int .w64, t⟩) ∧
      t.shape = s.reduce axes keep ∧ ∀ i ∈ Shape.box (s.reduce axes keep),
        t.get i = ∑ j ∈ s.box with Shape.reducePosition axes keep j = i, f j := by
  obtain ⟨t, stores, rfl, entry⟩ := h.stored
  have flag : flag (.bool keep) = .ok keep := by cases keep <;> rfl
  have rank : (Cells.elements ⟨.int .w64, t⟩).rank = t.shape.length := rfl
  refine ⟨t.sumAlong (· + ·) (0 : Word) axes keep, ?_, rfl, fun i hi => ?_⟩
  · unfold Value.sum
    simp only [flag, stores.cells, rank, named, bind, Except.bind]
    rfl
  · rw [Tensor.get_sumAlong t axes keep hi]
    exact Finset.sum_congr rfl fun j hj => entry j (Finset.mem_filter.mp hj).1

/-- The sum along axes. -/
theorem sum_words (h : v.Words s f) {axis : Value} {axes : List Nat} (keep : Bool)
    (named : sumAxes s.length axis = .ok axes) :
    ∃ r, v.sum axis (.bool keep) = .ok r ∧ r.Words (s.reduce axes keep) fun i =>
      ∑ j ∈ s.box with Shape.reducePosition axes keep j = i, f j := by
  obtain ⟨t, run, shape, entry⟩ := h.sum_eq keep named
  refine ⟨_, run, ?_⟩
  rw [← shape] at entry ⊢
  exact (words_collapse t).congr entry

/-- The sum of all entries is a single word. -/
theorem sumAll_words (h : v.Words s f) :
    v.sum .none (.bool false) = .ok (word (∑ i ∈ s.box, f i)) := by
  have flat : s.reduce (List.range s.length) false = [] := by
    rw [Shape.reduce, if_neg Bool.false_ne_true, Shape.without_range, List.drop_length]
  have every : sumAxes s.length .none = .ok (List.range s.length) := rfl
  obtain ⟨t, run, shape, entry⟩ := h.sum_eq false every
  rw [flat] at shape entry
  have all : s.box.filter (fun j => Shape.reducePosition (List.range s.length) false j = []) =
      s.box := by
    refine Finset.filter_true_of_mem fun j hj => ?_
    rw [Shape.reducePosition, if_neg Bool.false_ne_true, Shape.without_range,
      ← Shape.length_of_mem_box hj, List.drop_length]
  have single : TypedArray.collapse ⟨.int .w64, t⟩ = word (t.get []) := if_pos shape
  rw [run, single, entry [] (by simp), all]

/-- The sum of the products of entries. -/
def inner (v w : Value) : Except Error Value := do (← v.mul w).sum .none (.bool false)

theorem inner_words (hv : v.Words s f) (hw : w.Words s g) :
    inner v w = .ok (word (∑ i ∈ s.box, f i * g i)) := by
  obtain ⟨r, product, words⟩ :=
    mul_words hv.entries hw.entries (.inl hv.words) (Shape.broadcast?_self s)
  have same : r.Words s fun i => f i * g i :=
    words.congr fun i hi => by rw [Shape.project_self hi]
  rw [inner, product]
  exact sumAll_words same

end Value

end Backprop
