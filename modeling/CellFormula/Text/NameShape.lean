/-!
# Shapes of reference names

Two letters outside ASCII count as column letters, since they fold to `S` and `K` when letter case
is ignored.
-/

namespace CellFormula.Text

def isColumnLetter (c : Char) : Bool :=
  c.isAlpha || c == Char.ofNat 0x17F || c == Char.ofNat 0x212A

def isWordChar (c : Char) : Bool :=
  c.isAlphanum || c == '_' || c == '.'

/-- Some characters with the property, then some decimal digits. -/
def isNumbered (p : Char → Bool) (cs : List Char) : Bool :=
  let ds := cs.dropWhile p
  ds.length < cs.length && !ds.isEmpty && ds.all Char.isDigit

/-- A column and a row, such as `A1`, in any letter case. -/
def isSpreadsheetName (cs : List Char) : Bool :=
  isNumbered isColumnLetter cs

/-- Letters, digits, underscores and dots of ASCII, at least one. -/
def isIdentifier (cs : List Char) : Bool :=
  !cs.isEmpty && cs.all isWordChar

/-- Equality up to the letter case of ASCII. -/
def sameWord (xs ys : List Char) : Bool :=
  xs.map Char.toLower == ys.map Char.toLower

end CellFormula.Text
