import Backprop.Value.Whole
/-!
Joining and repeating sequences. A repetition that asks for more than a machine word can count, or
for more items than memory can hold, fails before anything is built.
-/

namespace Backprop

namespace Value

/-- Two sequences of one kind, joined. -/
def append? : Value → Value → Option Value
  | text s, text t => some (text (s ++ t))
  | bytes s, bytes t => some (bytes (s ++ t))
  | list l, list m => some (list (l ++ m))
  | tuple l, tuple m => some (tuple (l ++ m))
  | _, _ => Option.none

/-- The number of items of a sequence. -/
def sequenceLength? : Value → Option Nat
  | text s => some s.length
  | bytes l => some l.length
  | list l | tuple l => some l.length
  | _ => Option.none

/-- The length from which on a sequence does not fit into memory. -/
def memoryLimit : Nat := 4294967296

/-- What is wrong with a sequence of too many items: texts and bytes are counted before they are
built. -/
def excessError (v : Value) (length : Nat) : Error :=
  match v with
  | text _ | bytes _ => if fitsWord length then .outOfMemory else .overflow
  | _ => .outOfMemory

/-- The items of a sequence `n` times over. -/
def copies (v : Value) (n : Nat) : Value :=
  match v with
  | text s => text (String.join (List.replicate n s))
  | bytes s => bytes (List.replicate n s).flatten
  | list l => list (List.replicate n l).flatten
  | tuple l => tuple (List.replicate n l).flatten
  | v => v

/-- A sequence, repeated. A count below one leaves nothing of it. -/
def repeated (v : Value) (length : Nat) (count : Int) : Except Error Value :=
  if length = 0 then .ok v
  else if memoryLimit ≤ length * count.toNat then .error (v.excessError (length * count.toNat))
  else .ok (v.copies count.toNat)

def isScalar : Value → Bool
  | scalar _ => true
  | _ => false

def isTypedArray : Value → Bool
  | array _ | objects .. => true
  | _ => false

/-- A repetition, if one operand is a sequence and the other is not an array. -/
def repetition? (a b : Value) : Option (Except Error Value) :=
  let times (s n : Value) : Option (Except Error Value) :=
    match s.sequenceLength? with
    | some length =>
      if n.isTypedArray then Option.none
      else some (do repeated s length (← n.repeatCount))
    | Option.none => Option.none
  (times a b).or (times b a)

end Value

end Backprop
