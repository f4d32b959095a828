import Backprop.Value.Number
import Backprop.Kernel.Call
/-!
Choices for compiling and evaluating a net.
-/

namespace Backprop

/-- The ways in which unnamed nodes are named when a net is built. -/
inductive NamingMode where
  | default | sequential
deriving DecidableEq, Repr

namespace NamingMode

def name : NamingMode → String
  | default => "default"
  | sequential => "sequential"

/-- The mode that a value names. An array of several entries, or of none, cannot be held against a
name. -/
def ofValue (v : Value) : Except Error NamingMode :=
  match v with
  | .text s =>
    if s = "default" then .ok default
    else if s = "sequential" then .ok sequential
    else .error (.unknownNaming v)
  | .array _ | .objects .. => .error (if v.shape.size = 1 then .unknownNaming v else .badValue)
  | _ => .error (.unknownNaming v)

end NamingMode

structure Config where
  /-- Messages are shown from the construction of the net on. -/
  debug : Bool := false
  /-- Storage is given back as soon as nobody needs it. -/
  conserveMemory : Bool := true
  /-- A forward pass makes sure that no node was renamed since. -/
  checkStructure : Bool := true
  naming : NamingMode := .default
  /-- The derivative of the last terminal, unless a pass is given another. -/
  defaultSeed : Value := .float 1.0
  device : Value := .text "cpu"
  profile : Bool := false

namespace Config

/-- The fields with their usual values. -/
def usualFields : Keywords :=
  [("debug", .bool false), ("conserve_memory", .bool true), ("check_structure", .bool true),
    ("naming", .text NamingMode.default.name), ("default_seed", .float 1.0),
    ("device", .text "cpu"), ("profile", .bool false)]

/-- All fields, some of them with a value that is given for them. Only the naming is checked before
it is used. -/
def fields (given : Keywords) : Except Error Keywords := do
  if !given.all fun (field, _) => (usualFields.lookup field).isSome then throw .badCall
  let all := usualFields.map fun (field, v) => (field, (given.lookup field).getD v)
  let _ ← NamingMode.ofValue ((all.lookup "naming").getD .none)
  return all

/-- Sets the field of a name. -/
def set (c : Config) (field : String) (v : Value) : Except Error Config :=
  match field with
  | "debug" => do return { c with debug := ← v.truth }
  | "conserve_memory" => do return { c with conserveMemory := ← v.truth }
  | "check_structure" => do return { c with checkStructure := ← v.truth }
  | "naming" => do return { c with naming := ← NamingMode.ofValue v }
  | "default_seed" => .ok { c with defaultSeed := v }
  | "device" => .ok { c with device := v }
  | "profile" => do return { c with profile := ← v.truth }
  | _ => .error .badCall

/-- The choices that the given fields make, all others being the usual ones. -/
def ofFields (given : Keywords) : Except Error Config := do
  (← fields given).foldlM (fun c (field, v) => c.set field v) {}

end Config

end Backprop
