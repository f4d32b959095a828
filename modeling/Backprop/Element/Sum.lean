import Backprop.Element.Arithmetic
import Backprop.Tensor.Sum
/-!
Sums of elements and of products of elements. Half precision is summed in single precision and
rounded at the end of a run.
-/

namespace Backprop

namespace ElementType

/-- A total with a run of entries added to it. -/
def addRun : (t : ElementType) → t.Carrier → List t.Carrier → t.Carrier
  | .float .half, total, run =>
    let add (a b : Float) := Precision.single.round (a + b)
    Precision.half.round (add total (pairwiseSum 8 add 0 run.length run))
  | .float p, total, run =>
    add (.float p) total (pairwiseSum 8 (add (.float p)) 0 run.length run)
  | .complex p, total, run =>
    add (.complex p) total (pairwiseSum 4 (add (.complex p)) ⟨0, 0⟩ run.length run)
  | t, total, run => run.foldl t.add total

/-- The sum of the products of pairs, each product rounded together with the sum so far. That of two
vectors of single precision is held in double precision until its end. -/
def dot (vectors : Bool) : (t : ElementType) → List (t.Carrier × t.Carrier) → t.Carrier
  | .float .half, l =>
    let single := Precision.single.round
    Precision.half.round (l.foldl (fun s (a, b) => single (s + single (a * b))) 0)
  | .float .single, l =>
    let single := Precision.single.round
    if vectors then single (l.foldl (fun s (a, b) => s + single (a * b)) 0)
    else l.foldl (fun s (a, b) => single (fusedMulAdd a b s)) 0
  | .float .double, l => l.foldl (fun s (a, b) => fusedMulAdd a b s) 0
  | t, l => l.foldl (fun s (a, b) => t.add s (t.mul a b)) t.zero

end ElementType

end Backprop
