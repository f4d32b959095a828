import Backprop.Kernel.Call
/-!
Registries: which kernels run for an operation kind. Kinds are kept in the order they were first
registered.
-/

namespace Backprop

structure Operation where
  kind : String
  forward : Kernel
  /-- Takes the arguments and the derivative of the result; returns one derivative for each
  positional argument, nothing standing for none. -/
  backward : Option Kernel := none
  /-- Runs in place of `forward` when a net is tested. -/
  test : Option Kernel := none
  outputs : Nat := 1

/-- An operation has a kind and an output. -/
def Operation.make (kind : String) (forward : Kernel) (backward test : Option Kernel)
    (outputs : Int) : Except Error Operation :=
  if kind = "" then .error .emptyKind
  else if outputs < 1 then .error (.kindWithoutOutputs kind)
  else .ok { kind, forward, backward, test, outputs := outputs.toNat }

namespace Operation

def differentiable (op : Operation) : Bool := op.backward.isSome

/-- The forward kernel, or the test kernel if there is one and it is asked for. -/
def forwardKernel (op : Operation) (testing : Bool) : Kernel :=
  if testing then op.test.getD op.forward else op.forward

end Operation

structure Registry where
  entries : List Operation := []

namespace Registry

def find? (r : Registry) (kind : String) : Option Operation :=
  r.entries.find? (·.kind == kind)

def contains (r : Registry) (kind : String) : Bool := (r.find? kind).isSome

def kinds (r : Registry) : List String := r.entries.map (·.kind)

def size (r : Registry) : Nat := r.entries.length

def isEmpty (r : Registry) : Bool := r.entries.isEmpty

def get (r : Registry) (kind : String) : Except Error Operation :=
  match r.find? kind with
  | some op => .ok op
  | none => .error (.unknownKind kind)

/-- Adds an operation; one of the same kind is replaced where it stands. -/
def insert (r : Registry) (op : Operation) : Registry :=
  if r.contains op.kind then
    ⟨r.entries.map fun e => if e.kind == op.kind then op else e⟩
  else ⟨r.entries ++ [op]⟩

/-- Registers an operation under a new kind, or under any kind when overwriting. -/
def register (r : Registry) (kind : String) (forward : Kernel) (backward test : Option Kernel)
    (outputs : Int) (overwrite : Bool) : Except Error (Operation × Registry) := do
  if !overwrite && r.contains kind then throw (.kindTaken kind)
  let op ← Operation.make kind forward backward test outputs
  return (op, r.insert op)

end Registry

end Backprop
