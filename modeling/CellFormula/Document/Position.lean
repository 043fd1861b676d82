import CellFormula.Number.Numeral
import CellFormula.Text.Blank

/-!
# Positions at the end of messages

A message that ends in the words ` at line 3 column 4` carries a position, which is kept apart from
its text. A message without those words has none, and line zero stands for no position. Both numbers
fit 64 bits.
-/

namespace CellFormula

-- Powers are those of the natural numbers themselves, not of a monoid.
attribute [local instance (high)] instPowNat

structure Position where
  line : Nat
  column : Nat
  deriving DecidableEq

namespace Position

/-- What stands before and after the last occurrence of `needle`, which is not empty. -/
def splitLast? (needle : List Char) : List Char → Option (List Char × List Char)
  | [] => none
  | c :: cs =>
    match splitLast? needle cs with
    | some (before, rest) => some (c :: before, rest)
    | none => (Text.after? needle (c :: cs)).map fun rest => ([], rest)

/-- The number that a text of decimal digits writes. -/
def number? (ds : List Char) : Option Nat :=
  let n := Numeral.digitsValue ds
  if !ds.isEmpty && ds.all Char.isDigit && n < 2 ^ (64 : Nat) then some n else none

/-- A line and a column, with the word between them. -/
def ofText? (cs : List Char) : Option Position := do
  let column ← Text.after? " column ".toList (cs.dropWhile Char.isDigit)
  some ⟨← number? (cs.takeWhile Char.isDigit), ← number? column⟩

/-- A message without the position at its end, and that position. -/
def cut? (message : List Char) : Option (List Char × Position) := do
  let (text, rest) ← splitLast? " at line ".toList message
  some (text, ← ofText? rest)

/-- The words for a position. -/
def suffix (p : Position) : String :=
  if p.line = 0 then "" else s!" at line {p.line} column {p.column}"

end Position

end CellFormula
