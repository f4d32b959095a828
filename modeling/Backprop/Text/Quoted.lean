import Backprop.Text.Printable
/-!
Quoted text and quoted bytes. The quote is the single one, unless the text holds a single quote and
no double one; the quote in use, the backslash and whatever is not printable are escaped.
-/

namespace Backprop.Text

/-- The number in lower case hexadecimal, padded to `width` digits. -/
def hex (width n : Nat) : String :=
  let ds := Nat.toDigits 16 n
  String.ofList (List.replicate (width - ds.length) '0' ++ ds)

/-- Every byte as two hexadecimal digits. -/
def hexBytes (bytes : List UInt8) : String := String.join (bytes.map fun b => hex 2 b.toNat)

def hexDigit (c : Char) : Nat := if c.isDigit then c.toNat - 48 else c.toLower.toNat - 87

/-- The bytes that pairs of hexadecimal digits denote. -/
def readHex : List Char → List UInt8
  | a :: b :: cs => UInt8.ofNat (16 * hexDigit a + hexDigit b) :: readHex cs
  | _ => []

/-- The quote to use for a text that holds these characters. -/
def quoteFor (cs : List Char) : Char :=
  if cs.contains '\'' && !cs.contains '"' then '"' else '\''

def escape (quote c : Char) : String :=
  if c == quote || c == '\\' then String.ofList ['\\', c]
  else if c == '\n' then "\\n"
  else if c == '\r' then "\\r"
  else if c == '\t' then "\\t"
  else if isPrintable c then String.ofList [c]
  else if c.toNat < 0x100 then "\\x" ++ hex 2 c.toNat
  else if c.toNat < 0x10000 then "\\u" ++ hex 4 c.toNat
  else "\\U" ++ hex 8 c.toNat

def quoted (s : String) : String :=
  let cs := s.toList
  let q := quoteFor cs
  String.ofList [q] ++ String.join (cs.map (escape q)) ++ String.ofList [q]

/-- Bytes with the mark `b`; each byte outside printable ASCII is written in hexadecimal. -/
def quotedBytes (bytes : List UInt8) : String :=
  let cs := bytes.map fun b => Char.ofNat b.toNat
  let q := quoteFor cs
  let escapeByte (c : Char) : String :=
    if c.toNat < 0x7f then escape q c else "\\x" ++ hex 2 c.toNat
  "b" ++ String.ofList [q] ++ String.join (cs.map escapeByte) ++ String.ofList [q]

end Backprop.Text
