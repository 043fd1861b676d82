import CellFormula.Number.Binary64

/-!
# Rounding to the nearest binary64 number

`ofRatio` rounds an exact quotient of natural numbers, a half going to the even significand. The
other roundings are stated through it: integers, and products and quotients with a power of ten that
has itself been rounded first.
-/

namespace CellFormula

-- Powers are those of the natural numbers themselves, not of a monoid.
attribute [local instance (high)] instPowNat

namespace Rounding

/-- The integer nearest to `num / den`, the even one of two. -/
def nearest (num den : Nat) : Nat :=
  let q := num / den
  let twice := 2 * (num % den)
  if den < twice ∨ (twice = den ∧ q % 2 = 1) then q + 1 else q

/-- The quotient `num / den` divided by `2 ^ e`. -/
def scaledRatio (num den : Nat) (e : Int) : Nat × Nat :=
  (num * 2 ^ (-e).toNat, den * 2 ^ e.toNat)

/-- The exponent of the spacing of binary64 numbers around the positive quotient `num / den`: the
quotient lies between `2 ^ 52` and `2 ^ 53` spacings, unless that spacing would be finer than the
finest one. -/
def spacing (num den : Nat) : Int :=
  let e : Int := num.log2 - den.log2 - 53
  let r := scaledRatio num den e
  max (if 2 ^ (53 : Nat) * r.2 ≤ r.1 then e + 1 else e) (-1074)

end Rounding

namespace Binary64

open Rounding

/-- The number `± m · 2 ^ e` for `m ≤ 2 ^ 53` and `-1074 ≤ e`, where `m < 2 ^ 52` only for the least
`e`; an infinity if it is too large. -/
def ofParts (negative : Bool) (m : Nat) (e : Int) : Binary64 :=
  let (m, e) := if m = 2 ^ (53 : Nat) then (2 ^ (52 : Nat), e + 1) else (m, e)
  if m < 2 ^ (52 : Nat) then ⟨negative, 0, Fin.ofNat (2 ^ (52 : Nat)) m⟩
  else if 972 ≤ e then infinity negative
  else ⟨negative, Fin.ofNat 2048 (e + 1075).toNat, Fin.ofNat (2 ^ (52 : Nat)) m⟩

/-- The number nearest to `± num / den`. -/
def ofRatio (negative : Bool) (num den : Nat) : Binary64 :=
  if num = 0 then zero negative
  else
    let e := spacing num den
    let r := scaledRatio num den e
    ofParts negative (nearest r.1 r.2) e

def ofNat (n : Nat) : Binary64 :=
  ofRatio false n 1

def ofInt (n : Int) : Binary64 :=
  ofRatio (n < 0) n.natAbs 1

/-- The product with `10 ^ k`, the power and then the product rounded. -/
def timesPowerOfTen (x : Binary64) (k : Nat) : Binary64 :=
  if x.isFinite then
    let (num, den) := x.ratio
    let (p, q) := (ofNat (10 ^ k)).ratio
    ofRatio x.negative (num * p) (den * q)
  else x

/-- The quotient by `10 ^ k`, the power and then the quotient rounded. -/
def overPowerOfTen (x : Binary64) (k : Nat) : Binary64 :=
  if x.isFinite then
    let (num, den) := x.ratio
    let (p, q) := (ofNat (10 ^ k)).ratio
    ofRatio x.negative (num * q) (den * p)
  else x

end Binary64

end CellFormula
