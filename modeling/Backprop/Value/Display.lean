import Backprop.Value.Basic
import Backprop.Number.Decimal
import Backprop.Text.Quoted
/-!
The text of values in messages. Nodes are shown by their label, which a caller supplies.
-/

namespace Backprop

/-- The text of a finite or infinite floating-point element in its own precision. -/
def Precision.text (p : Precision) (x : Float) : String := floatTextIn p.format x

/-- A complex number in parentheses; the real part is left out when it is positive zero. -/
def complexText (text : Float → String) (z : Complex) : String :=
  let short (x : Float) : String :=
    let s := text x
    if s.endsWith ".0" then String.ofList (s.toList.dropLast.dropLast) else s
  if z.re == 0 && z.re.toBits >>> 63 == 0 then short z.im ++ "j"
  else
    let im := short z.im
    "(" ++ short z.re ++ (if im.startsWith "-" then "" else "+") ++ im ++ "j)"

def boolText (b : Bool) : String := if b then "True" else "False"

/-- The text of an element without its type. -/
def ElementType.text : (t : ElementType) → t.Carrier → String
  | .bool, b => boolText b
  | .int _, n => toString n.toInt
  | .uint _, n => toString n.toNat
  | .float p, x => p.text x
  | .complex p, z => complexText p.text z

def TypedScalar.quotedText (s : TypedScalar) : String :=
  match s with
  | ⟨.bool, b⟩ => "np." ++ boolText b ++ "_"
  | ⟨t, x⟩ => "np." ++ t.name ++ "(" ++ t.text x ++ ")"

/-- Nested brackets around the entries of an array. -/
def bracketed : Shape → List String → String
  | [], l => l.headD ""
  | n :: s, l =>
    let width := Shape.size s
    let rows := (List.range n).map fun i => bracketed s ((l.drop (i * width)).take width)
    "[" ++ ", ".intercalate rows ++ "]"

namespace Value

mutual

/-- The text of a value as it is written inside another one, texts in quotes. -/
def quotedText (label : NodeRef → String) : Value → String
  | none => "None"
  | bool b => boolText b
  | int n => toString n
  | float x => floatText x
  | complex z => complexText floatText z
  | text s => Text.quoted s
  | bytes bs => Text.quotedBytes bs
  | list l => "[" ++ ", ".intercalate (quotedTexts label l) ++ "]"
  | tuple [x] => "(" ++ quotedText label x ++ ",)"
  | tuple l => "(" ++ ", ".intercalate (quotedTexts label l) ++ ")"
  | dict l => "\x7b" ++ ", ".intercalate (entryTexts label l) ++ "\x7d"
  | slice a b c => "slice(" ++ quotedText label a ++ ", " ++ quotedText label b ++ ", "
      ++ quotedText label c ++ ")"
  | ellipsis => "Ellipsis"
  | array a => "array(" ++ bracketed a.shape (a.entries.toList.map a.elementType.text) ++ ")"
  | objects s l => "array(" ++ bracketed s (quotedTexts label l) ++ ", dtype=object)"
  | scalar s => s.quotedText
  | node n => label n
  | foreign name => "<" ++ name ++ ">"

def quotedTexts (label : NodeRef → String) : List Value → List String
  | [] => []
  | v :: l => quotedText label v :: quotedTexts label l

def entryTexts (label : NodeRef → String) : List (Value × Value) → List String
  | [] => []
  | (k, v) :: l => (quotedText label k ++ ": " ++ quotedText label v) :: entryTexts label l

end

/-- The text of a value on its own: texts without quotes, typed scalars without their type. -/
def plainText (label : NodeRef → String) : Value → String
  | text s => s
  | scalar s => s.elementType.text s.entry
  | v => quotedText label v

end Value

end Backprop
