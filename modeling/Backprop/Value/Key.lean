import Backprop.Value.Cells
/-!
Keys of dictionaries. Numbers of different kinds are one key if they are equal; a dictionary holds a
key once, with the value that was given for it last.
-/

namespace Backprop

/-- Whether a double is exactly this whole number. -/
def isWhole (n : Int) (x : Float) : Bool :=
  match Parts.ofFloat? x with
  | some p =>
    let (num, den) := p.quotient
    n * den == if p.negative then -(num : Int) else num
  | none => false

/-- Whether two plain numbers are exactly equal. -/
def Number.equals : Number → Number → Bool
  | int m, int n => m == n
  | int n, float x | float x, int n => isWhole n x
  | float x, float y => x == y
  | complex z, int n | int n, complex z => z.im == 0 && isWhole n z.re
  | complex z, float x | float x, complex z => z.im == 0 && z.re == x
  | complex z, complex w => z.re == w.re && z.im == w.im

namespace Value

mutual

/-- Whether two keys are the same: numbers by value whatever their kind, tuples and slices by their
parts. -/
def sameKey : Value → Value → Bool
  | none, none => true
  | ellipsis, ellipsis => true
  | text s, text t => s == t
  | bytes s, bytes t => s == t
  | tuple l, tuple m => sameKeys l m
  | slice a b c, slice a' b' c' => sameKey a a' && sameKey b b' && sameKey c c'
  | node a, node b => a == b
  | a, b =>
    match a.plainNumber?, b.plainNumber? with
    | some x, some y => x.equals y
    | _, _ => false

def sameKeys : List Value → List Value → Bool
  | [], [] => true
  | a :: l, b :: m => sameKey a b && sameKeys l m
  | _, _ => false

end

mutual

/-- Whether a value can be a key of a dictionary. -/
def isKey : Value → Bool
  | list _ | dict _ | array _ | objects .. => false
  | tuple l => areKeys l
  | slice a b c => isKey a && isKey b && isKey c
  | _ => true

def areKeys : List Value → Bool
  | [] => true
  | v :: l => isKey v && areKeys l

end

/-- The dictionary of these entries. -/
def ofEntries (entries : List (Value × Value)) : Value := dict (lastOfEach sameKey entries)

end Value

end Backprop
