import Backprop.Tensor.Shape
/-!
Arrays with any number of axes. Two operations carry the rest: `gather` reads each entry from a
position of the operand, and `collect` adds each entry of the operand to a position of the result.
Along the same map the one is the adjoint of the other.
-/

namespace Backprop

structure Tensor (α : Type) where
  shape : Shape
  entries : Array α
  size_eq : entries.size = shape.size

namespace Tensor

variable {α β γ : Type}

/-- The array with entry `f i` at position `i`. -/
def ofFn (s : Shape) (f : List Nat → α) : Tensor α where
  shape := s
  entries := (s.positions.map f).toArray
  size_eq := by simp [Shape.length_positions]

/-- The array without axes. -/
def single (x : α) : Tensor α := ⟨[], #[x], rfl⟩

/-- The array of these entries in row-major order, if their number fits. -/
def ofList? (s : Shape) (l : List α) : Option (Tensor α) :=
  if h : l.toArray.size = s.size then some ⟨s, l.toArray, h⟩ else none

def toList (t : Tensor α) : List α := t.entries.toList

def rank (t : Tensor α) : Nat := t.shape.length

/-- The entry at a position. -/
def get [Inhabited α] (t : Tensor α) (i : List Nat) : α :=
  (t.entries[t.shape.offset i]?).getD default

def map (f : α → β) (t : Tensor α) : Tensor β :=
  ⟨t.shape, t.entries.map f, by simp [t.size_eq]⟩

/-- The array of shape `s` whose entry at `i` is read from position `g i`. -/
def gather [Inhabited α] (s : Shape) (g : List Nat → List Nat) (t : Tensor α) : Tensor α :=
  ofFn s fun i => t.get (g i)

/-- The entries of `t` added to `base`, each at the position that `g` sends it to. -/
def addAt [Inhabited α] [Inhabited β] (add : α → β → α) (g : List Nat → List Nat) (base : Tensor α)
    (t : Tensor β) : Tensor α :=
  ofFn base.shape fun i =>
    ((t.shape.positions.filter (g · == i)).map t.get).foldl add (base.get i)

/-- The array of shape `s` whose entry at `i` is the sum, from `zero` on, of the entries at all
positions that `g` sends to `i`. -/
def collect [Inhabited α] (add : α → α → α) (zero : α) (s : Shape) (g : List Nat → List Nat)
    (t : Tensor α) : Tensor α :=
  addAt add g (ofFn s fun _ => zero) t

/-- Stretches an array to a shape that it broadcasts to. -/
def broadcastTo [Inhabited α] (s : Shape) (t : Tensor α) : Tensor α :=
  t.gather s t.shape.project

/-- Combines two arrays entry by entry after broadcasting them. -/
def zipWith? [Inhabited α] [Inhabited β] (f : α → β → γ) (a : Tensor α) (b : Tensor β) :
    Option (Tensor γ) :=
  (a.shape.broadcast? b.shape).map fun s =>
    ofFn s fun i => f (a.get (a.shape.project i)) (b.get (b.shape.project i))

/-- Adds up along axes. -/
def sumAlong [Inhabited α] (add : α → α → α) (zero : α) (axes : List Nat) (keep : Bool)
    (t : Tensor α) : Tensor α :=
  t.collect add zero (t.shape.reduce axes keep) (Shape.reducePosition axes keep)

/-- The same entries in row-major order under another shape with as many of them. -/
def reshape? (s : Shape) (t : Tensor α) : Option (Tensor α) :=
  if h : t.entries.size = s.size then some ⟨s, t.entries, h⟩ else none

/-- Reverses the order of the axes. -/
def transpose [Inhabited α] (t : Tensor α) : Tensor α :=
  t.gather t.shape.reverse List.reverse

/-- Exchanges the last two axes. -/
def swapLast [Inhabited α] (t : Tensor α) : Tensor α :=
  t.gather (Shape.swapLast t.shape) Shape.swapLast

/-- Inserts an axis of length one before axis `k`. -/
def insertAxis [Inhabited α] (k : Nat) (t : Tensor α) : Tensor α :=
  t.gather (t.shape.insertIdx k 1) (·.eraseIdx k)

/-- Removes axis `k`, which has length one. -/
def removeAxis [Inhabited α] (k : Nat) (t : Tensor α) : Tensor α :=
  t.gather (t.shape.eraseIdx k) (·.insertIdx k 0)

end Tensor

end Backprop
