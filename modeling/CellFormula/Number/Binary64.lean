/-!
# IEEE 754 binary64 numbers

A number is its three fields. A finite one stands for `± significand · 2 ^ scale`; the greatest
exponent field holds the infinities and the numbers that are not a number. `same` is the comparison
of IEEE 754, in which the two zeros agree and a number that is not a number agrees with nothing.
-/

namespace CellFormula

-- Powers are those of the natural numbers themselves, not of a monoid.
attribute [local instance (high)] instPowNat

structure Binary64 where
  negative : Bool
  exponent : Fin 2048
  fraction : Fin (2 ^ (52 : Nat))
  deriving DecidableEq, Inhabited

namespace Binary64

-- With these the literals of the two fields are the same terms in every module.
instance : @NeZero Nat Zero.ofOfNat0 2048 :=
  ⟨by decide⟩

instance : @NeZero Nat Zero.ofOfNat0 (2 ^ (52 : Nat)) :=
  ⟨by decide⟩

def zero (negative : Bool) : Binary64 :=
  ⟨negative, 0, 0⟩

def infinity (negative : Bool) : Binary64 :=
  ⟨negative, 2047, 0⟩

def nan : Binary64 :=
  ⟨false, 2047, Fin.ofNat (2 ^ (52 : Nat)) (2 ^ (51 : Nat))⟩

/-- The number with the given 64 bits, the sign uppermost. -/
def ofBits (bits : Nat) : Binary64 :=
  ⟨bits / 2 ^ (63 : Nat) % 2 == 1, Fin.ofNat 2048 (bits / 2 ^ (52 : Nat)),
    Fin.ofNat (2 ^ (52 : Nat)) bits⟩

def isFinite (x : Binary64) : Bool :=
  x.exponent != 2047

def isNaN (x : Binary64) : Bool :=
  x.exponent == 2047 && x.fraction != 0

def isZero (x : Binary64) : Bool :=
  x.exponent == 0 && x.fraction == 0

def same (x y : Binary64) : Bool :=
  !x.isNaN && !y.isNaN && (x == y || (x.isZero && y.isZero))

def negate (x : Binary64) : Binary64 :=
  { x with negative := !x.negative }

def significand (x : Binary64) : Nat :=
  if x.exponent = 0 then x.fraction else 2 ^ (52 : Nat) + x.fraction

def scale (x : Binary64) : Int :=
  (max x.exponent.val 1 : Nat) - 1075

/-- The magnitude of a finite number as a numerator and a denominator. -/
def ratio (x : Binary64) : Nat × Nat :=
  (x.significand * 2 ^ x.scale.toNat, 2 ^ (-x.scale).toNat)

theorem isNaN_of_isFinite {x : Binary64} (h : x.isFinite = true) : x.isNaN = false := by
  simp only [isFinite, bne_iff_ne, ne_eq] at h
  simp [isNaN, h]

theorem same_self_iff (x : Binary64) : x.same x = true ↔ x.isNaN = false := by
  simp [same]

end Binary64

end CellFormula
