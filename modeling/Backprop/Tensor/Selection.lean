import Backprop.Tensor.Basic
/-!
Selecting entries of an array by an index with one item per axis: a place, a range with a step, an
array of places, a mask, a new axis, or the axes in between. A `Selection` is the shape of the
result and the position that each of its entries is read from.

* Places next to an array of places count as arrays without axes; all arrays are broadcast together.
* The axes of the arrays stand where the arrays stand if those are adjacent, and in front otherwise.
* An index is checked in this order: the number of axes, the lengths of masks, places and ranges as
  they come, and the arrays of places, unless nothing is read through them.
-/

namespace Backprop

/-- Why an index does not apply to a shape. -/
inductive SelectionError where
  /-- A place lies outside its axis, or there are more items than axes. -/
  | outOfRange
  /-- A range has step zero. -/
  | zeroStep
  /-- A range has a bound that is no whole number. -/
  | badBound
deriving DecidableEq, Repr

/-- The bounds of a range; those that are left out are the ends in the direction of the step. -/
structure Bounds where
  start : Option Int
  stop : Option Int
  step : Int

/-- The places `start`, `start + step`, and so on, `length` of them. -/
structure Stride where
  start : Int
  step : Int
  length : Nat

/-- The places of an axis of length `n` that a range selects. Bounds outside the axis are cut off. -/
def Bounds.stride (n : Nat) (b : Bounds) : Stride :=
  let lowest : Int := if b.step < 0 then -1 else 0
  let highest : Int := if b.step < 0 then n - 1 else n
  let clamp (x : Int) : Int :=
    let x := if x < 0 then x + n else x
    max lowest (min highest x)
  let first := (b.start.map clamp).getD (if b.step < 0 then highest else lowest)
  let last := (b.stop.map clamp).getD (if b.step < 0 then lowest else highest)
  let length :=
    if b.step < 0 then if last < first then (first - last - 1) / (-b.step) + 1 else 0
    else if first < last then (last - first - 1) / b.step + 1 else 0
  ⟨first, b.step, length.toNat⟩

def Stride.place (s : Stride) (k : Nat) : Nat := (s.start + s.step * k).toNat

/-- The selected items of a sequence. -/
def Stride.pick {α : Type} (s : Stride) (l : List α) : List α :=
  (List.range s.length).filterMap fun k => l[s.place k]?

/-- One item of an index. -/
inductive IndexItem where
  | place (i : Int)
  /-- A range, or what is wrong with its bounds. -/
  | range (bounds : Except SelectionError Bounds)
  | newAxis
  | between
  | places (is : Tensor Int)
  | mask (bs : Tensor Bool)

namespace IndexItem

/-- The number of axes an item applies to. -/
def axes : IndexItem → Nat
  | place _ | range _ | places _ => 1
  | newAxis | between => 0
  | mask bs => bs.rank

/-- The number of axes that an item gives the result, apart from those of arrays. -/
def ownAxes : IndexItem → Nat
  | range _ | newAxis => 1
  | _ => 0

/-- The number of axes of an array of places. A mask is read through lists of places. -/
def arrayRank : IndexItem → Nat
  | places is => is.rank
  | mask _ => 1
  | _ => 0

def isPlace : IndexItem → Bool
  | place _ => true
  | _ => false

def isArray : IndexItem → Bool
  | places _ | mask _ => true
  | _ => false

def isBetween : IndexItem → Bool
  | between => true
  | _ => false

end IndexItem

/-- How the coordinates of one axis are found, or one axis of the result. -/
inductive SelectionPart where
  /-- The axis is held at a place. -/
  | fixed (c : Nat)
  /-- The axis runs through a stride. -/
  | strided (s : Stride)
  /-- The result has an axis of length one here. -/
  | fresh
  /-- The axis, of length `n`, runs through the arrays' positions. -/
  | picked (n : Nat) (places : Tensor Int)
  /-- The arrays are broadcast with this shape, and no axis is read. -/
  | shaped (s : Shape)

namespace SelectionPart

/-- Whether the part belongs to the arrays, once there are arrays. -/
def joinsArrays : SelectionPart → Bool
  | fixed _ | picked .. | shaped _ => true
  | strided _ | fresh => false

def isArray : SelectionPart → Bool
  | picked .. | shaped _ => true
  | _ => false

/-- The length of the result's axis, for a part that gives one of its own. -/
def ownLength? : SelectionPart → Option Nat
  | strided s => some s.length
  | fresh => some 1
  | _ => none

def arrayShape : SelectionPart → Shape
  | picked _ places => places.shape
  | shaped s => s
  | _ => []

/-- Whether all places lie within their axis. -/
def fits : SelectionPart → Bool
  | picked n places => places.toList.all fun i => (locate n i).isSome
  | _ => true

/-- The source coordinates, given the coordinates of the own axes and of the arrays' axes. -/
def source (arrays : List Nat) : List SelectionPart → List Nat → List Nat
  | [], _ => []
  | fixed c :: ps, own => c :: source arrays ps own
  | picked n places :: ps, own =>
    (locate n (places.get (places.shape.project arrays))).getD 0 :: source arrays ps own
  | shaped _ :: ps, own => source arrays ps own
  | fresh :: ps, own => source arrays ps (own.drop 1)
  | strided s :: ps, own => s.place (own.headD 0) :: source arrays ps (own.drop 1)

end SelectionPart

/-- The places where a mask holds, one list of coordinates for each axis of the mask. -/
def maskPlaces (bs : Tensor Bool) : List (Tensor Int) :=
  let hits := bs.shape.positions.filter bs.get
  (List.range bs.rank).map fun k =>
    Tensor.ofFn [hits.length] fun i => ((hits.getD (i.headD 0) []).getD k 0 : Nat)

/-- The parts that a mask stands for. One without axes gives an axis of its own. -/
def maskParts (bs : Tensor Bool) : List SelectionPart :=
  if bs.rank = 0 then [.shaped [if bs.get [] then 1 else 0]]
  else (bs.shape.zip (maskPlaces bs)).map fun (n, places) => .picked n places

/-- Whether the masks among items have the lengths of the axes that they apply to. -/
def masksFit (free : Nat) : Shape → List IndexItem → Bool
  | _, [] => true
  | s, .between :: items => masksFit free (s.drop free) items
  | s, .mask bs :: items => bs.shape == s.take bs.rank && masksFit free (s.drop bs.rank) items
  | s, i :: items => masksFit free (s.drop i.axes) items

/-- Resolves items against the lengths of the axes; `free` axes have no item of their own. -/
def resolveItems (free : Nat) : Shape → List IndexItem → Except SelectionError (List SelectionPart)
  | _, [] => pure []
  | s, .newAxis :: items => return .fresh :: (← resolveItems free s items)
  | s, .between :: items => do
    let whole := (s.take free).map fun n => SelectionPart.strided ⟨0, 1, n⟩
    return whole ++ (← resolveItems free (s.drop free) items)
  | s, .mask bs :: items => do
    return maskParts bs ++ (← resolveItems free (s.drop bs.rank) items)
  | [], _ :: _ => throw .outOfRange
  | n :: s, .place i :: items =>
    match locate n i with
    | some c => return .fixed c :: (← resolveItems free s items)
    | none => throw .outOfRange
  | n :: s, .range bounds :: items => do
    let b ← bounds
    return .strided (b.stride n) :: (← resolveItems free s items)
  | n :: s, .places places :: items => return .picked n places :: (← resolveItems free s items)

/-- What an index selects. -/
structure Selection where
  /-- The shape of the result. -/
  shape : Shape
  /-- The position in the source that a position of the result is read from. -/
  source : List Nat → List Nat
  /-- Every axis is held at a place, so the result is a single entry. -/
  isEntry : Bool

/-- What the items select from an array of the given shape. -/
def Selection.ofItems (s : Shape) (items : List IndexItem) : Except SelectionError Selection := do
  let isEntry := items.all (·.isPlace) && items.length = s.length
  let items := if items.any (·.isBetween) then items else items ++ [.between]
  let used := items.foldl (fun n i => n + i.axes) 0
  let free := s.length - used
  if s.length < used || 1 < (items.filter (·.isBetween)).length then throw .outOfRange
  let rank := items.foldl (fun n i => n + i.ownAxes) free
  let arrayRank := items.foldl (fun n i => max n i.arrayRank) 0
  if Shape.maximalRank < rank + arrayRank || !masksFit free s items then throw .outOfRange
  let parts ← resolveItems free s items
  if parts.any (·.isArray) then
    let shapes := parts.map (·.arrayShape)
    match shapes.foldlM Shape.broadcast? [] with
    | none => throw .outOfRange
    | some common =>
      if common.size != 0 && !parts.all (·.fits) then throw .outOfRange
      let ahead := parts.takeWhile (!·.joinsArrays)
      let split := if separated items then 0 else (ahead.filterMap (·.ownLength?)).length
      let own := parts.filterMap (·.ownLength?)
      return {
        shape := own.take split ++ common ++ own.drop split
        source := fun i =>
          SelectionPart.source ((i.drop split).take common.length) parts
            (i.take split ++ i.drop (split + common.length))
        isEntry := false }
  else
    return {
      shape := parts.filterMap (·.ownLength?)
      source := SelectionPart.source [] parts
      isEntry }
where
  /-- Whether something else stands between two items that belong to the arrays. An item for the
  axes in between counts even if there are none. -/
  separated (items : List IndexItem) : Bool :=
    let joins (i : IndexItem) := i.isPlace || i.isArray
    let rest := items.dropWhile (!joins ·)
    (rest.dropWhile joins).any joins

end Backprop
