import CellFormula.Number.Shortest

/-!
# Layouts of numbers

A layout fixes how the digits of a number are set: which sizes are written positionally, what marks
a whole number, and the words for what is not a finite number. The two layouts in use differ in all
of these.
-/

namespace CellFormula

structure Layout where
  tie : Tie
  /-- Whether a number `0.d₁d₂… · 10 ^ point` is written without an exponent. -/
  positional : Int → Bool
  /-- Written after a whole number that has no exponent. -/
  wholeMark : String
  signedZero : Bool
  nan : String
  infinity : String
  negativeInfinity : String

namespace Layout

/-- Numbers in formulas: never an exponent, and one zero. -/
def formula : Layout where
  tie := .upward
  positional _ := true
  wholeMark := ""
  signedZero := false
  nan := "NaN"
  infinity := "inf"
  negativeInfinity := "-inf"

/-- Numbers in documents: an exponent below `10 ^ -5` and from `10 ^ 16`, a decimal point in every
number without one, and null for what is not finite. -/
def document : Layout where
  tie := .even
  positional point := -5 < point && point ≤ 16
  wholeMark := ".0"
  signedZero := true
  nan := "null"
  infinity := "null"
  negativeInfinity := "null"

/-- `0.d₁d₂… · 10 ^ point` without an exponent. -/
def plain (layout : Layout) (d : Decimal) : List Char :=
  if d.point ≤ 0 then
    ['0', '.'] ++ List.replicate (-d.point).toNat '0' ++ d.digits
  else
    let whole := d.point.toNat
    if d.digits.length ≤ whole then
      d.digits ++ List.replicate (whole - d.digits.length) '0' ++ layout.wholeMark.toList
    else d.digits.take whole ++ '.' :: d.digits.drop whole

/-- `0.d₁d₂… · 10 ^ point` with one digit before the point and a signed exponent. -/
def scientific (d : Decimal) : List Char :=
  let e := d.point - 1
  let fraction := if d.digits.length ≤ 1 then [] else '.' :: d.digits.drop 1
  d.digits.take 1 ++ fraction ++ ['e', if e < 0 then '-' else '+'] ++ Nat.toDigits 10 e.natAbs

/-- The text of a number. -/
def write (layout : Layout) (x : Binary64) : List Char :=
  if x.isNaN then layout.nan.toList
  else if !x.isFinite then
    (if x.negative then layout.negativeInfinity else layout.infinity).toList
  else if x.isZero then
    (if x.negative && layout.signedZero then ['-'] else []) ++ '0' :: layout.wholeMark.toList
  else
    let d := x.shortest layout.tie
    (if x.negative then ['-'] else []) ++
      if layout.positional d.point then layout.plain d else scientific d

end Layout

end CellFormula
