import CellFormula.Number.Rounding

/-!
# Decimal numerals

The numerals of formulas: an optional sign, digits with at most one point among them and at least
one digit in all, and an optional exponent; or one of the words `inf`, `infinity` and `nan` in any
letter case. A numeral reads as the nearest binary64 number.
-/

namespace CellFormula

-- Powers are those of the natural numbers themselves, not of a monoid.
attribute [local instance (high)] instPowNat

namespace Numeral

def digitValue (c : Char) : Nat :=
  c.toNat - '0'.toNat

/-- The number written by a list of decimal digits. -/
def digitsValue (ds : List Char) : Nat :=
  ds.foldl (fun n d => 10 * n + digitValue d) 0

end Numeral

/-- The decimal `± coefficient · 10 ^ exponent`. -/
structure Numeral where
  negative : Bool
  coefficient : Nat
  exponent : Int
  deriving DecidableEq

namespace Numeral

/-- The sign a text begins with, and the rest. -/
def signed : List Char → Bool × List Char
  | '-' :: cs => (true, cs)
  | '+' :: cs => (false, cs)
  | cs => (false, cs)

/-- The size of an exponent. It takes no more digits once it has reached `2 ^ 16`, by which only a
numeral with that many digits before its exponent is affected. -/
def exponentSize (ds : List Char) : Nat :=
  ds.foldl (fun n d => if n < 2 ^ (16 : Nat) then 10 * n + digitValue d else n) 0

/-- The exponent that ends a numeral; none at all is zero. -/
def exponent? : List Char → Option Int
  | [] => some 0
  | c :: cs =>
    if c = 'e' ∨ c = 'E' then
      let (negative, ds) := signed cs
      if !ds.isEmpty && ds.all Char.isDigit then
        some (if negative then -(exponentSize ds : Int) else exponentSize ds)
      else none
    else none

/-- The numeral of an unsigned text. -/
def unsigned? (negative : Bool) (cs : List Char) : Option Numeral :=
  let whole := cs.takeWhile Char.isDigit
  let rest := cs.dropWhile Char.isDigit
  let (fraction, tail) := match rest with
    | '.' :: ds => (ds.takeWhile Char.isDigit, ds.dropWhile Char.isDigit)
    | _ => ([], rest)
  if whole.isEmpty && fraction.isEmpty then none
  else (exponent? tail).map fun e =>
    ⟨negative, digitsValue (whole ++ fraction), e - fraction.length⟩

def ofText? (cs : List Char) : Option Numeral :=
  let (negative, rest) := signed cs
  unsigned? negative rest

/-- The nearest number. Beyond `10 ^ 400` and below `10 ^ -400` it is decided by size alone, so that
no huge power is computed. -/
def round (n : Numeral) : Binary64 :=
  let point := (Nat.toDigits 10 n.coefficient).length + n.exponent
  if n.coefficient = 0 ∨ point < -400 then .zero n.negative
  else if 400 < point then .infinity n.negative
  else .ofRatio n.negative (n.coefficient * 10 ^ n.exponent.toNat) (10 ^ (-n.exponent).toNat)

end Numeral

/-- The number that a text denotes, an infinity or no number included. -/
def Binary64.ofText? (cs : List Char) : Option Binary64 :=
  match Numeral.ofText? cs with
  | some n => some n.round
  | none =>
    let (negative, word) := Numeral.signed cs
    let word := word.map Char.toLower
    if word = "inf".toList ∨ word = "infinity".toList then some (.infinity negative)
    else if word = "nan".toList then some { nan with negative := negative }
    else none

end CellFormula
