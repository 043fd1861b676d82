import CellFormula.Number.Binary64

/-!
# Shortest decimal digits of a binary64 number

The digits chosen are the fewest that read back as the number, and of those the nearest to it. On
the grid of decimals with a given count of digits only the two neighbours of the number need to be
tested: if any point of the grid reads back as the number, one of these two does.
-/

namespace CellFormula

-- Powers are those of the natural numbers themselves, not of a monoid.
attribute [local instance (high)] instPowNat

/-- Which of two equally near decimals is taken. -/
inductive Tie where
  | upward
  | even
  deriving DecidableEq

/-- The positive decimal `0.d₁d₂… · 10 ^ point`. -/
structure Decimal where
  digits : List Char
  point : Int
  deriving DecidableEq

namespace Decimal

/-- `coefficient · 10 ^ e` without its trailing zeros. -/
def ofCoefficient (coefficient : Nat) (e : Int) : Decimal :=
  let digits := Nat.toDigits 10 coefficient
  ⟨(digits.reverse.dropWhile (· == '0')).reverse, digits.length + e⟩

/-- The `point` for which `10 ^ (point - 1) ≤ num / den < 10 ^ point`. -/
def pointOf (num den : Nat) : Int :=
  if den ≤ num then (Nat.toDigits 10 (num / den)).length
  else 1 - (Nat.toDigits 10 ((den - 1) / num)).length

/-- The quotient `num / den` divided by `10 ^ e`. -/
def tenfoldRatio (num den : Nat) (e : Int) : Nat × Nat :=
  (num * 10 ^ (-e).toNat, den * 10 ^ e.toNat)

end Decimal

/-- The reals that round to a positive number, as quotients over `den`, with the ends if
`closed`. -/
structure Interval where
  low : Nat
  value : Nat
  high : Nat
  den : Nat
  closed : Bool

/-- Half a spacing to each side; the spacing below a power of two is half as wide. -/
def Binary64.interval (x : Binary64) : Interval :=
  let (num, den) := x.ratio
  let unit := 2 ^ x.scale.toNat
  let below := if x.fraction = 0 ∧ 1 < x.exponent.val then unit else 2 * unit
  ⟨4 * num - below, 4 * num, 4 * num + 2 * unit, 4 * den, x.significand % 2 == 0⟩

namespace Interval

/-- Whether `c · 10 ^ e` lies in the interval. -/
def holds (i : Interval) (c : Nat) (e : Int) : Bool :=
  let (num, one) := Decimal.tenfoldRatio (c * i.den) 1 (-e)
  let low := i.low * one
  let high := i.high * one
  if i.closed then low ≤ num && num ≤ high else low < num && num < high

/-- The decimal with `count` digits that is taken, if a neighbour of the value lies in the
interval. -/
def neighbour? (tie : Tie) (i : Interval) (count : Nat) : Option Decimal :=
  let e := Decimal.pointOf i.value i.den - count
  let (num, den) := Decimal.tenfoldRatio i.value i.den e
  let c := num / den
  let twice := 2 * (num % den)
  let upper := den < twice || (twice == den && (tie = .upward || c % 2 == 1))
  match i.holds c e, i.holds (c + 1) e with
  | true, true => some (.ofCoefficient (if upper then c + 1 else c) e)
  | true, false => some (.ofCoefficient c e)
  | false, true => some (.ofCoefficient (c + 1) e)
  | false, false => none

end Interval

/-- The decimal written for the magnitude of a finite number other than zero. Seventeen digits
always suffice. -/
def Binary64.shortest (tie : Tie) (x : Binary64) : Decimal :=
  let i := x.interval
  (((List.range 17).map (· + 1)).findSome? (i.neighbour? tie)).getD ⟨[], 0⟩

end CellFormula
