/-!
# Errors of JSON text

A text can end too early or break the grammar. A reader that decodes while it reads may also stop
at a value that is well written but not what it needs; its cause is of type `ε`.
-/

namespace CellFormula.Json

inductive ReadError (ε : Type) where
  | endOfText
  | malformed
  | data (cause : ε)
  deriving DecidableEq

/-- A reader returns what it read and the rest of the text. -/
abbrev Reader (ε α : Type) :=
  List Char → Except (ReadError ε) (α × List Char)

/-- The blanks of JSON, fewer than those of Unicode. -/
def isBlank (c : Char) : Bool :=
  c == ' ' || c == '\t' || c == '\n' || c == '\r'

def skipBlanks (cs : List Char) : List Char :=
  cs.dropWhile isBlank

/-- Reads a fixed word. -/
def readWord {ε : Type} : List Char → Reader ε Unit
  | [], cs => .ok ((), cs)
  | _ :: _, [] => .error .endOfText
  | a :: word, c :: cs => if a = c then readWord word cs else .error .malformed

end CellFormula.Json
