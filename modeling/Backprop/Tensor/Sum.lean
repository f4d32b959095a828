import Backprop.Tensor.Basic
/-!
Sums in a fixed order. Where rounding makes the order of additions visible, entries that lie next to
each other are taken together: a run of neighbours is summed by itself and then added to the total.
A long run is halved, and a run of moderate length is summed in lanes.
-/

namespace Backprop

/-- A list cut into runs of `n`, of which the last may be shorter. -/
def runsOf {α : Type} (n : Nat) (l : List α) : List (List α) :=
  if n = 0 ∨ l = [] then [] else l.take n :: runsOf n (l.drop n)
termination_by l.length
decreasing_by
  rename_i h
  have := List.length_pos_iff.2 (not_or.1 h).2
  simp only [List.length_drop]
  omega

/-- Neighbours added in pairs. -/
def addPairs {α : Type} (add : α → α → α) : List α → List α
  | a :: b :: l => add a b :: addPairs add l
  | l => l

/-- The sum of a list, pairing neighbours again and again, `rounds` times at most. -/
def addTree {α : Type} (add : α → α → α) (zero : α) : Nat → List α → α
  | 0, l => l.headD zero
  | rounds + 1, l => addTree add zero rounds (addPairs add l)

/-- The sum of a list from its first entry on. -/
def addInTurn {α : Type} (add : α → α → α) (zero : α) : List α → α
  | [] => zero
  | a :: l => l.foldl add a

/-- The sum of a list in so many lanes: each lane adds up every `lanes`-th entry, the lanes are added
pairwise, and the entries that fill no row of lanes are added at the end. -/
def addLanes {α : Type} (lanes : Nat) (add : α → α → α) (zero : α) (l : List α) : α :=
  let whole := l.length - l.length % lanes
  let totals := match runsOf lanes (l.take whole) with
    | [] => []
    | row :: rows => rows.foldl (List.zipWith add) row
  (l.drop whole).foldl add (addTree add zero lanes totals)

/-- The pairwise sum of a list: short lists are added in turn, longer ones in lanes, and those of more
than sixteen rows of lanes are halved at a multiple of the lanes. `depth` bounds the halvings. -/
def pairwiseSum {α : Type} (lanes : Nat) (add : α → α → α) (zero : α) : Nat → List α → α
  | 0, l => addInTurn add zero l
  | depth + 1, l =>
    if l.length < lanes then addInTurn add zero l
    else if l.length ≤ 16 * lanes then addLanes lanes add zero l
    else
      let middle := l.length / 2 - l.length / 2 % lanes
      add (pairwiseSum lanes add zero depth (l.take middle))
        (pairwiseSum lanes add zero depth (l.drop middle))

namespace Tensor

variable {α : Type} [Inhabited α]

/-- The entries that are counted in position `i` when axes are reduced, in row-major order. -/
def fibre (axes : List Nat) (keep : Bool) (t : Tensor α) (i : List Nat) : List α :=
  (t.shape.positions.filter (Shape.reducePosition axes keep · == i)).map t.get

/-- How many entries that follow each other are counted in one position. Axes of length one do not
keep entries apart. -/
def runLength (axes : List Nat) (s : Shape) : Nat :=
  ((s.zipIdx.reverse.filter (·.1 != 1)).takeWhile fun (_, k) => axes.contains k).foldl
    (fun m (n, _) => m * n) 1

/-- Adds up along axes, run by run. -/
def sumRuns (addRun : α → List α → α) (zero : α) (axes : List Nat) (keep : Bool) (t : Tensor α) :
    Tensor α :=
  ofFn (t.shape.reduce axes keep) fun i =>
    (runsOf (runLength axes t.shape) (t.fibre axes keep i)).foldl addRun zero

end Tensor

end Backprop
