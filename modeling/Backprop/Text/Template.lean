/-!
Templates: texts with places for a value. A place starts with a percent sign, may ask for a sign, a
width and a precision, and ends with a letter for the form of the value; two percent signs stand for
one.
-/

namespace Backprop.Text

/-- What comes of writing one whole number into a template. -/
inductive TemplateResult where
  | written
  /-- There is no place for the number, or there are too many, or one of another kind. -/
  | misused
  /-- A place is cut off or has an unknown form. -/
  | malformed
deriving DecidableEq, Repr

/-- What follows the flags of a place. -/
def afterFlags (cs : List Char) : List Char := cs.dropWhile "-+ #0".toList.contains

/-- Skips a width or a precision; a star takes it from the values. -/
def afterCount (used : Bool) : List Char → Bool × List Char
  | '*' :: cs => (true, cs)
  | cs => (used, cs.dropWhile Char.isDigit)

def afterPrecision (used : Bool) : List Char → Bool × List Char
  | '.' :: cs => afterCount used cs
  | cs => (used, cs)

def afterLength : List Char → List Char
  | c :: cs => if "hlL".toList.contains c then cs else c :: cs
  | [] => []

/-- Writes a whole number into a template, of which at most so many characters are read; `forms` are
the letters that a place may end with. -/
def fill (forms : List Char) : Nat → Bool → List Char → TemplateResult
  | 0, _, _ => .misused
  | _, used, [] => if used then .written else .misused
  | fuel + 1, used, '%' :: cs =>
    match afterFlags cs with
    | '(' :: _ => .misused
    | cs =>
      let (starred, cs) := afterCount false cs
      let (starred, cs) := afterPrecision starred cs
      if starred && used then .misused
      else
        let used := used || starred
        match afterLength cs with
        | [] => .malformed
        | '%' :: cs => fill forms fuel used cs
        | c :: cs =>
          if used then .misused
          else if forms.contains c then fill forms fuel true cs
          else .malformed
  | fuel + 1, used, _ :: cs => fill forms fuel used cs

def textForms : List Char := "diouxXeEfFgGcrsa".toList

def fillTemplate (forms : List Char) (cs : List Char) : TemplateResult :=
  fill forms (cs.length + 1) false cs

end Backprop.Text
