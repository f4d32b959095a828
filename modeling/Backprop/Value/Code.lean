import Backprop.Value.Cells
/-!
Codes of element types: a name, or a letter for the kind, mostly with a number of bytes. A code may
start with a mark for the order of bytes.
-/

namespace Backprop

namespace ElementType

/-- Names of element types besides those with a number of bits. -/
def otherNames : List (String × ElementType) := [
  ("bool_", .bool), ("byte", .int .w8), ("short", .int .w16), ("intc", .int .w32), ("int", .int64),
  ("long", .int64), ("longlong", .int64), ("intp", .int64), ("int_", .int64), ("ubyte", .uint .w8),
  ("ushort", .uint .w16), ("uintc", .uint .w32), ("uint", .uint .w64), ("ulong", .uint .w64),
  ("ulonglong", .uint .w64), ("uintp", .uint .w64), ("half", .float .half),
  ("single", .float .single), ("float", .float64), ("double", .float64),
  ("csingle", .complex .single), ("complex", .complex128), ("cdouble", .complex128)]

/-- Letters of element types. -/
def letters : List (String × ElementType) := [
  ("?", .bool), ("b1", .bool), ("b", .int .w8), ("i1", .int .w8), ("h", .int .w16),
  ("i2", .int .w16), ("i", .int .w32), ("i4", .int .w32), ("l", .int64), ("q", .int64),
  ("p", .int64), ("n", .int64), ("i8", .int64), ("B", .uint .w8), ("u1", .uint .w8),
  ("H", .uint .w16), ("u2", .uint .w16), ("I", .uint .w32), ("u4", .uint .w32),
  ("L", .uint .w64), ("Q", .uint .w64), ("P", .uint .w64), ("N", .uint .w64), ("u8", .uint .w64),
  ("e", .float .half), ("f2", .float .half), ("f", .float .single), ("f4", .float .single),
  ("d", .float64), ("f8", .float64), ("F", .complex .single), ("c8", .complex .single),
  ("D", .complex128), ("c16", .complex128)]

end ElementType

/-- The kind of entries that a code stands for, if it stands for elements or for any values. -/
def CellKind.ofCode? (code : String) : Option CellKind :=
  let letter : String :=
    match code.toList with
    | c :: rest => if "<>=|".toList.contains c then String.ofList rest else code
    | [] => code
  if ["object", "object_"].contains code || ["O", "O8"].contains letter then some .values
  else
    ((ElementType.ofName? code).or
      ((ElementType.otherNames.lookup code).or (ElementType.letters.lookup letter))).map .elements

end Backprop
