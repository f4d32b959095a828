import Backprop.Error
/-!
Calls of operations. A kernel gets positional and keyword arguments; a signature says which
parameters it has and which of them may be left out.
-/

namespace Backprop

/-- What runs when an operation is evaluated: it may refuse its arguments, and has no other effect. -/
abbrev Kernel := List Value → Keywords → Except Error Value

/-- A parameter, and its value when an argument is left out. -/
structure Parameter where
  name : String
  default? : Option Value := none

/-- The arguments in the order of the parameters. Positional arguments come first; each parameter is
given once, and those without a default are given. -/
def bindArguments : List Parameter → List Value → Keywords → Except Error (List Value)
  | ps, [], kw => do
    if kw.all fun (k, _) => ps.any (·.name == k) then
      ps.mapM fun p =>
        match (kw.lookup p.name).or p.default? with
        | some v => .ok v
        | none => .error .badCall
    else throw .badCall
  | [], _ :: _, _ => .error .badCall
  | p :: ps, a :: as, kw => do
    if (kw.lookup p.name).isSome then throw .badCall
    return a :: (← bindArguments ps as kw)

def required (name : String) : Parameter := { name }

def optional (name : String) (v : Value) : Parameter := { name, default? := some v }

/-- A kernel of one parameter. -/
def unaryKernel (p : Parameter) (f : Value → Except Error Value) : Kernel := fun args kw => do
  match ← bindArguments [p] args kw with
  | [a] => f a
  | _ => throw .badCall

def binaryKernel (p q : Parameter) (f : Value → Value → Except Error Value) : Kernel :=
  fun args kw => do
    match ← bindArguments [p, q] args kw with
    | [a, b] => f a b
    | _ => throw .badCall

def ternaryKernel (p q r : Parameter) (f : Value → Value → Value → Except Error Value) : Kernel :=
  fun args kw => do
    match ← bindArguments [p, q, r] args kw with
    | [a, b, c] => f a b c
    | _ => throw .badCall

def quaternaryKernel (p q r s : Parameter)
    (f : Value → Value → Value → Value → Except Error Value) : Kernel :=
  fun args kw => do
    match ← bindArguments [p, q, r, s] args kw with
    | [a, b, c, d] => f a b c d
    | _ => throw .badCall

end Backprop
