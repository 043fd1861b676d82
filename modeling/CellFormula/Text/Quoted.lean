import CellFormula.Text.VisibilityTable

/-!
# Texts quoted in messages

A text in a message stands between double quotes. Quotes, backslashes and the common control
characters are written with a backslash; any other character that would not be visible on its own is
written by its code point: one without a glyph, and a mark that attaches to its neighbour.
-/

namespace CellFormula.Text

def isVisible (c : Char) : Bool :=
  let outside := fun ranges : List (Nat × Nat) =>
    ranges.all fun r => c.toNat < r.1 || r.2 < c.toNat
  c == ' ' || (outside attaching && outside ignorable && outside unprintable)

/-- The code point in lower-case hexadecimal digits between braces. -/
def codePoint (c : Char) : List Char :=
  "\\u\x7b".toList ++ Nat.toDigits 16 c.toNat ++ ['\x7d']

def quotedChar (c : Char) : List Char :=
  if c = '"' then "\\\"".toList
  else if c = '\\' then "\\\\".toList
  else if c = '\n' then "\\n".toList
  else if c = '\r' then "\\r".toList
  else if c = '\t' then "\\t".toList
  else if c.toNat = 0 then "\\0".toList
  else if isVisible c then [c]
  else codePoint c

def quoted (s : String) : String :=
  String.ofList ('"' :: s.toList.flatMap quotedChar ++ ['"'])

end CellFormula.Text
