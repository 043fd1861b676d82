import CellFormula.Json.Error
import CellFormula.Json.Value
import CellFormula.Number.Numeral

/-!
# Reading JSON numbers

An integer that fits 64 bits is kept as it is. Any other number is gathered into a significand below
`2 ^ 64` and a power of ten, and then scaled in binary64: what does not fit the significand only
counts for the power, and the scaling rounds more than once. A number too large for binary64 is
malformed.
-/

namespace CellFormula.Json

-- Powers are those of the natural numbers themselves, not of a monoid.
attribute [local instance (high)] instPowNat

open Numeral

/-- Reads digits as long as the value stays below `bound`; also counts them. -/
def takeDigits (bound value count : Nat) : List Char → Nat × Nat × List Char
  | [] => (value, count, [])
  | c :: cs =>
    if c.isDigit && 10 * value + digitValue c < bound then
      takeDigits bound (10 * value + digitValue c) (count + 1) cs
    else (value, count, c :: cs)

def startsWithDigit : List Char → Bool
  | c :: _ => c.isDigit
  | [] => false

/-- `x / 10 ^ k` by steps of at most `10 ^ 308`. -/
def scaleDown : Nat → Binary64 → Nat → Binary64
  | 0, x, _ => x
  | fuel + 1, x, k =>
    if k ≤ 308 then x.overPowerOfTen k
    else if x.isZero then x
    else scaleDown fuel (x.overPowerOfTen 308) (k - 308)

/-- `± significand · 10 ^ e`, unless it is too large. -/
def scaled {ε : Type} (negative : Bool) (significand : Nat) (e : Int) :
    Except (ReadError ε) JsonNumber :=
  let x := Binary64.ofNat significand
  let signed := fun y : Binary64 => JsonNumber.real (if negative then y.negate else y)
  if e < 0 then .ok (signed (scaleDown (e.natAbs / 308 + 1) x e.natAbs))
  else if e ≤ 308 then
    let y := x.timesPowerOfTen e.natAbs
    if y.isFinite then .ok (signed y) else .error .malformed
  else if x.isZero then .ok (signed x)
  else .error .malformed

/-- The exponent, after its letter. One that is out of range decides the number by its sign. -/
def readExponent {ε : Type} (negative : Bool) (significand : Nat) (e : Int) :
    Reader ε JsonNumber := fun cs =>
  let (down, cs) := Numeral.signed cs
  if cs.isEmpty then .error .endOfText
  else if !startsWithDigit cs then .error .malformed
  else
    let (k, _, rest) := takeDigits (2 ^ (31 : Nat)) 0 0 cs
    if startsWithDigit rest then
      if significand ≠ 0 ∧ !down then .error .malformed
      else .ok (.real (.zero negative), rest.dropWhile Char.isDigit)
    else (scaled negative significand (if down then e - k else e + k)).map (·, rest)

/-- The exponent of a number, if it has one. -/
def readScale {ε : Type} (negative : Bool) (significand : Nat) (e : Int) : Reader ε JsonNumber
  | 'e' :: cs => readExponent negative significand e cs
  | 'E' :: cs => readExponent negative significand e cs
  | cs => (scaled negative significand e).map (·, cs)

/-- The digits after the point. -/
def readFraction {ε : Type} (negative : Bool) (significand : Nat) (e : Int) :
    Reader ε JsonNumber := fun cs =>
  if cs.isEmpty then .error .endOfText
  else if !startsWithDigit cs then .error .malformed
  else
    let (significand, count, rest) := takeDigits (2 ^ (64 : Nat)) significand 0 cs
    readScale negative significand (e - count) (rest.dropWhile Char.isDigit)

/-- The number that an integer without fraction and exponent stands for. Minus zero, and what lies
below the 64-bit range, is not kept as an integer. -/
def wholeNumber (negative : Bool) (n : Nat) : JsonNumber :=
  if !negative then .integer n
  else if n = 0 ∨ 2 ^ (63 : Nat) < n then .real (Binary64.ofNat n).negate
  else .integer (-n)

/-- A number after its sign. -/
def readUnsigned {ε : Type} (negative : Bool) : Reader ε JsonNumber
  | [] => .error .endOfText
  | c :: cs =>
    if !c.isDigit || (c == '0' && startsWithDigit cs) then .error .malformed
    else
      let (n, _, rest) := takeDigits (2 ^ (64 : Nat)) 0 0 (c :: cs)
      let extra := (rest.takeWhile Char.isDigit).length
      match rest.dropWhile Char.isDigit with
      | '.' :: cs => readFraction negative n extra cs
      | 'e' :: cs => readExponent negative n extra cs
      | 'E' :: cs => readExponent negative n extra cs
      | cs =>
        if extra = 0 then .ok (wholeNumber negative n, cs)
        else (scaled negative n extra).map (·, cs)

end CellFormula.Json
