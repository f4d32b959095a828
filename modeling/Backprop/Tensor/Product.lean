import Backprop.Tensor.Basic
/-!
Matrix products. The last two axes of the operands are the matrices and the axes before them are
broadcast; an operand with one axis stands for a row on the left and for a column on the right, and
that axis is absent from the product.
-/

namespace Backprop

namespace Tensor

variable {α γ : Type} [Inhabited α] [Inhabited γ]

/-- The lengths of the axes before the last two, and the last two lengths. -/
def matrixShape? (s : Shape) : Option (Shape × Nat × Nat) :=
  match s.reverse with
  | n :: m :: r => some (r.reverse, m, n)
  | _ => none

/-- The product of two arrays of matrices: `inner` makes an entry of the pairs of a row and a column. -/
def matrixProduct? (inner : List (α × α) → γ) (a b : Tensor α) : Option (Tensor γ) := do
  let (outerA, m, k) ← matrixShape? a.shape
  let (outerB, k', n) ← matrixShape? b.shape
  if k = k' then
    let outer ← Shape.broadcast? outerA outerB
    some <| ofFn (outer ++ [m, n]) fun i =>
      let o := i.take outer.length
      let row := i.getD outer.length 0
      let column := i.getD (outer.length + 1) 0
      inner <| (List.range k).map fun x =>
        (a.get (Shape.project outerA o ++ [row, x]), b.get (Shape.project outerB o ++ [x, column]))
  else none

/-- The product of two arrays with at least one axis each. -/
def product? (inner : List (α × α) → γ) (a b : Tensor α) : Option (Tensor γ) := do
  if a.rank = 0 || b.rank = 0 then none
  let rowVector := a.rank = 1
  let columnVector := b.rank = 1
  let left := if rowVector then a.insertAxis 0 else a
  let right := if columnVector then b.insertAxis 1 else b
  let p ← matrixProduct? inner left right
  let p := if columnVector then p.removeAxis (p.rank - 1) else p
  -- the row axis is the last one now, or the last but one if a column axis is still there
  some (if rowVector then p.removeAxis (p.rank - if columnVector then 1 else 2) else p)

end Tensor

end Backprop
