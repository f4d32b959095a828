/-!
Shapes of arrays and the positions of their entries. A position is a list of coordinates, one for
each axis, and positions are listed in row-major order.

* `length_positions`: a shape has as many positions as its lengths multiply to.
* `Shape.project` is the map under which a broadcast operand is read.
-/

namespace Backprop

/-- The place in a sequence of `n` that an integer names; negative numbers count from the end. -/
def locate (n : Nat) (i : Int) : Option Nat :=
  if 0 ≤ i then if i.toNat < n then some i.toNat else none
  else if 0 ≤ i + n then some (i + n).toNat
  else none

/-- The lengths of the axes. -/
abbrev Shape := List Nat

namespace Shape

/-- No array has more axes than this. -/
def maximalRank : Nat := 64

/-- The number of entries. -/
def size : Shape → Nat
  | [] => 1
  | n :: s => n * size s

/-- All positions, the last coordinate moving fastest. Axes in front of an empty one are not run
through. -/
def positions : Shape → List (List Nat)
  | [] => [[]]
  | n :: s =>
    if size s = 0 then [] else (List.range n).flatMap fun i => (positions s).map (i :: ·)

/-- Where a position stands among all positions. -/
def offset : Shape → List Nat → Nat
  | _ :: s, i :: is => i * size s + offset s is
  | _, _ => 0

theorem length_positions (s : Shape) : (positions s).length = size s := by
  induction s with
  | nil => rfl
  | cons n s ih =>
    by_cases h : size s = 0
    · simp [positions, size, h]
    · simp [positions, size, h, List.length_flatMap, ih, List.map_const']

theorem positions_cons (n : Nat) (s : Shape) :
    positions (n :: s) = (List.range n).flatMap fun i => (positions s).map (i :: ·) := by
  by_cases h : size s = 0
  · have empty : positions s = [] := List.eq_nil_of_length_eq_zero (by rw [length_positions, h])
    simp [positions, h, empty]
  · simp [positions, h]

/-- The common shape of two operands, aligned at the last axis: lengths agree or one of them is one,
which is stretched. -/
def broadcast? (a b : Shape) : Option Shape :=
  let n := max a.length b.length
  let pad (s : Shape) : Shape := List.replicate (n - s.length) 1 ++ s
  ((pad a).zip (pad b)).mapM fun (x, y) =>
    if x = y then some x else if x = 1 then some y else if y = 1 then some x else none

/-- The position in a broadcast operand of shape `s` that a position of the result reads. -/
def project (s : Shape) (i : List Nat) : List Nat :=
  s.zipWith (fun n k => if n = 1 then 0 else k) (i.drop (i.length - s.length))

/-- Leaves out the coordinates of the given axes. -/
def without (axes : List Nat) (l : List Nat) : List Nat :=
  (l.zipIdx.filter fun (_, k) => !axes.contains k).map (·.1)

/-- Puts `x` at the given axes. -/
def withAt (x : Nat) (axes : List Nat) (l : List Nat) : List Nat :=
  l.zipIdx.map fun (y, k) => if axes.contains k then x else y

/-- The shape left by reducing along axes, which stay with length one when kept. -/
def reduce (axes : List Nat) (keep : Bool) (s : Shape) : Shape :=
  if keep then withAt 1 axes s else without axes s

/-- The position of the reduced array that an entry is counted in. -/
def reducePosition (axes : List Nat) (keep : Bool) (i : List Nat) : List Nat :=
  if keep then withAt 0 axes i else without axes i

/-- Exchanges the last two axes. -/
def swapLast (l : List Nat) : List Nat :=
  match l.reverse with
  | x :: y :: r => (y :: x :: r).reverse
  | r => r.reverse

end Shape

end Backprop
