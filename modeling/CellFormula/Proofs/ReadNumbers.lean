import CellFormula.Proofs.Decoding
import CellFormula.Proofs.JsonNumbers

/-!
# The numbers that a reader makes

Every number that is read is an integer of 64 bits or a finite number. A product with a power of ten
is checked; a quotient is smaller than what was divided, so it needs no check.
-/

namespace CellFormula

namespace Rounding

theorem le_nearest {num den m : Nat} (pos : 0 < den) (h : m * den ≤ num) : m ≤ nearest num den := by
  have floor : m ≤ num / den := (Nat.le_div_iff_mul_le pos).mpr h
  rw [nearest]
  split <;> omega

end Rounding

namespace Binary64

open Rounding

theorem isFinite_of_exponent_lt {x : Binary64} (h : x.exponent.val < 2047) : x.isFinite = true := by
  have ne : x.exponent ≠ 2047 := by
    intro e
    rw [e] at h
    exact absurd h (by decide)
  simpa [isFinite] using ne

theorem magnitude_lt {x : Binary64} (finite : x.isFinite = true) :
    x.magnitude < 2 ^ (1024 : Int) := by
  have exponent := exponent_lt_of_isFinite finite
  have scale := x.scale_eq
  have significand : (x.significand : ℚ) < 2 ^ 53 := by exact_mod_cast x.significand_lt
  have unit : (2 : ℚ) ^ x.scale ≤ 2 ^ (971 : Int) := zpow_le_zpow_right₀ (by norm_num) (by omega)
  calc x.magnitude < 2 ^ 53 * 2 ^ x.scale := by
        rw [magnitude]
        gcongr
    _ ≤ 2 ^ 53 * 2 ^ (971 : Int) := by gcongr
    _ = 2 ^ (1024 : Int) := by
      rw [← zpow_natCast, ← zpow_add₀ (by norm_num)]
      rfl

theorem ratio_pos (x : Binary64) : 0 < x.ratio.2 :=
  Nat.two_pow_pos _

theorem ratio_value (x : Binary64) : (x.ratio.1 : ℚ) / x.ratio.2 = x.magnitude := by
  rw [magnitude, zpow_eq_div (by norm_num)]
  simp only [ratio]
  push_cast
  field_simp

theorem isFinite_ofParts (negative : Bool) (m : Nat) {e : Int} (h : e ≤ 970) :
    (ofParts negative m e).isFinite = true := by
  apply isFinite_of_exponent_lt
  rw [ofParts]
  split
  next m' e' carried =>
    have small : e' ≤ 971 := by
      split at carried <;> cases carried <;> omega
    split
    · exact (by decide : 0 < 2047)
    · rw [if_neg (by omega)]
      change (e' + 1075).toNat % 2048 < 2047
      omega

/-- A quotient below the greatest power of two does not round to an infinity. -/
theorem isFinite_ofRatio (negative : Bool) {num den : Nat} (pos : 0 < den)
    (h : (num : ℚ) / den < 2 ^ (1023 : Int)) : (ofRatio negative num den).isFinite = true := by
  by_cases zero : num = 0
  · rw [ofRatio, if_pos zero]
    rfl
  · obtain ⟨a, low, -, spacing⟩ := spacing_spec (Nat.pos_of_ne_zero zero) pos
    have top : (2 : ℚ) ^ (1023 : Int) = 2 ^ 53 * 2 ^ (970 : Int) := by
      rw [← zpow_natCast, ← zpow_add₀ (by norm_num)]
      rfl
    have atMost := le_of_binade low (top ▸ h)
    rw [ofRatio_eq zero]
    exact isFinite_ofParts negative _ (by omega)

theorem isFinite_whole (negative : Bool) {n : Nat} (h : n ≤ 2 ^ 64) :
    (ofRatio negative n 1).isFinite = true := by
  apply isFinite_ofRatio negative Nat.one_pos
  have bound : (n : ℚ) ≤ 2 ^ 64 := by exact_mod_cast h
  calc (n : ℚ) / (1 : Nat) = n := by simp
    _ ≤ 2 ^ (64 : Int) := by exact_mod_cast bound
    _ < 2 ^ (1023 : Int) := zpow_lt_zpow_right₀ (by norm_num) (by norm_num)

theorem exponent_ofParts (negative : Bool) {m : Nat} {e : Int} (normal : 2 ^ 52 ≤ m)
    (h : -51 ≤ e) : 1024 ≤ (ofParts negative m e).exponent.val := by
  rw [ofParts]
  split
  next m' e' carried =>
    have kept : 2 ^ 52 ≤ m' ∧ -51 ≤ e' := by
      split at carried <;> cases carried <;> omega
    rw [if_neg (by omega)]
    split
    · exact (by decide : 1024 ≤ 2047)
    · change 1024 ≤ (e' + 1075).toNat % 2048
      omega

theorem two_le_magnitude {x : Binary64} (h : 1024 ≤ x.exponent.val) : 2 ≤ x.magnitude := by
  have significand := significand_of_normal (x := x) (by omega)
  have scale := x.scale_eq
  have normal : (2 : ℚ) ^ 52 ≤ x.significand := by
    have : 2 ^ 52 ≤ x.significand := by omega
    exact_mod_cast this
  calc (2 : ℚ) = 2 ^ 52 * 2 ^ (-51 : Int) := by norm_num
    _ ≤ x.significand * 2 ^ x.scale := by
      have unit : (2 : ℚ) ^ (-51 : Int) ≤ 2 ^ x.scale :=
        zpow_le_zpow_right₀ (by norm_num) (by omega)
      gcongr

theorem two_le_magnitude_ofNat {n : Nat} (h : 2 ≤ n) : 2 ≤ (ofNat n).magnitude := by
  apply two_le_magnitude
  obtain ⟨a, low, high, spacing⟩ := spacing_spec (show 0 < n by omega) Nat.one_pos
  have two : (2 : ℚ) ^ 52 * 2 ^ (-51 : Int) ≤ (n : ℚ) / (1 : Nat) := by
    norm_num
    exact h
  have atLeast := le_of_binade two high
  have same : Rounding.spacing n 1 = a := by omega
  rw [ofNat, ofRatio_eq (by omega), same]
  refine exponent_ofParts false ?_ atLeast
  have pos : (0 : ℚ) < (scaledRatio n 1 a).2 := by exact_mod_cast scaledRatio_pos Nat.one_pos a
  have unit : (0 : ℚ) < 2 ^ a := by positivity
  have ratio : (2 : ℚ) ^ 52 ≤ (scaledRatio n 1 a).1 / (scaledRatio n 1 a).2 := by
    rw [scaledRatio_eq, le_div_iff₀ unit]
    exact low
  have product := (le_div_iff₀ pos).mp ratio
  exact le_nearest (scaledRatio_pos Nat.one_pos a) (by exact_mod_cast product)

/-- A product with a power of ten is the product of the two magnitudes, rounded. -/
theorem timesPowerOfTen_eq {x : Binary64} (finite : x.isFinite = true) (k : Nat) :
    ∃ num den : Nat, 0 < den ∧ (num : ℚ) / den = x.magnitude * (ofNat (10 ^ k)).magnitude ∧
      x.timesPowerOfTen k = ofRatio x.negative num den := by
  refine ⟨x.ratio.1 * (ofNat (10 ^ k)).ratio.1, x.ratio.2 * (ofNat (10 ^ k)).ratio.2,
    Nat.mul_pos (ratio_pos x) (ratio_pos _), ?_, if_pos finite⟩
  rw [Nat.cast_mul, Nat.cast_mul, mul_div_mul_comm, ratio_value, ratio_value]

theorem overPowerOfTen_eq {x : Binary64} (finite : x.isFinite = true) {k : Nat}
    (nonzero : (ofNat (10 ^ k)).magnitude ≠ 0) :
    ∃ num den : Nat, 0 < den ∧ (num : ℚ) / den = x.magnitude / (ofNat (10 ^ k)).magnitude ∧
      x.overPowerOfTen k = ofRatio x.negative num den := by
  have divisor : (ofNat (10 ^ k)).ratio.1 ≠ 0 := by
    intro zero
    rw [← ratio_value, zero, Nat.cast_zero, zero_div] at nonzero
    exact nonzero rfl
  refine ⟨x.ratio.1 * (ofNat (10 ^ k)).ratio.2, x.ratio.2 * (ofNat (10 ^ k)).ratio.1,
    Nat.mul_pos (ratio_pos x) (Nat.pos_of_ne_zero divisor), ?_, if_pos finite⟩
  rw [← ratio_value x, ← ratio_value (ofNat (10 ^ k)), Nat.cast_mul, Nat.cast_mul,
    div_div_div_eq]

/-- What was finite stays finite when it is divided. -/
theorem isFinite_overPowerOfTen {x : Binary64} (finite : x.isFinite = true) {k : Nat} (h : 1 ≤ k) :
    (x.overPowerOfTen k).isFinite = true := by
  have ten : 2 ≤ 10 ^ k := Nat.le_trans (by decide) (Nat.pow_le_pow_right (by decide) h)
  have power := two_le_magnitude_ofNat ten
  obtain ⟨num, den, pos, quotient, divided⟩ := overPowerOfTen_eq finite (k := k) (by linarith)
  rw [divided]
  apply isFinite_ofRatio _ pos
  have bound := magnitude_lt finite
  rw [two_zpow_eq] at bound
  have unit : (0 : ℚ) < 2 ^ (1024 - 1 : Int) := by positivity
  rw [quotient, div_lt_iff₀ (by linarith)]
  calc x.magnitude < 2 * 2 ^ (1024 - 1 : Int) := bound
    _ ≤ (ofNat (10 ^ k)).magnitude * 2 ^ (1024 - 1 : Int) := by gcongr
    _ = 2 ^ (1023 : Int) * (ofNat (10 ^ k)).magnitude := mul_comm _ _

end Binary64

/-- What a number can be that was read: an integer of 64 bits or a finite number. -/
inductive JsonNumber.InRange : JsonNumber → Prop where
  | integer {n : Int} (low : -2 ^ 63 ≤ n) (high : n < 2 ^ 64) : InRange (.integer n)
  | real {x : Binary64} (finite : x.isFinite = true) : InRange (.real x)

theorem JsonNumber.InRange.isFinite {n : JsonNumber} (h : n.InRange) :
    n.toBinary64.isFinite = true := by
  cases h with
  | integer low high => exact Binary64.isFinite_whole _ (by omega)
  | real finite => exact finite

/-- What a number is read as that is not digits alone: a real number, which is finite if the digits
before the exponent are a significand of 64 bits. -/
def JsonNumber.RealOf (significand : Nat) (n : JsonNumber) : Prop :=
  ∃ x, n = .real x ∧ (significand < 2 ^ 64 → x.isFinite = true)

theorem JsonNumber.RealOf.inRange {significand : Nat} {n : JsonNumber} (h : n.RealOf significand)
    (small : significand < 2 ^ 64) : n.InRange := by
  obtain ⟨x, rfl, finite⟩ := h
  exact .real (finite small)

theorem JsonNumber.RealOf.mono {m significand : Nat} {n : JsonNumber} (h : n.RealOf m)
    (smaller : significand < 2 ^ 64 → m < 2 ^ 64) : n.RealOf significand := by
  obtain ⟨x, rfl, finite⟩ := h
  exact ⟨x, rfl, fun small => finite (smaller small)⟩

namespace Json

variable {ε : Type}

theorem isFinite_scaleDown (fuel : Nat) {x : Binary64} (finite : x.isFinite = true) {k : Nat}
    (h : 1 ≤ k) : (scaleDown fuel x k).isFinite = true := by
  induction fuel generalizing x k with
  | zero => exact finite
  | succ fuel ih =>
    rw [scaleDown]
    split
    · exact Binary64.isFinite_overPowerOfTen finite h
    · split
      · exact finite
      · exact ih (Binary64.isFinite_overPowerOfTen finite (by decide)) (by omega)

theorem realOf_scaled {negative : Bool} {significand : Nat} {e : Int} {n : JsonNumber}
    (h : (scaled negative significand e : Except (ReadError ε) _) = .ok n) :
    n.RealOf significand := by
  have signed : ∀ {x : Binary64}, (significand < 2 ^ 64 → x.isFinite = true) →
      (JsonNumber.real (if negative then x.negate else x)).RealOf significand := by
    intro x finite
    cases negative <;> exact ⟨_, rfl, finite⟩
  have whole : significand < 2 ^ 64 → (Binary64.ofNat significand).isFinite = true := fun small =>
    Binary64.isFinite_whole false (Nat.le_of_lt small)
  unfold scaled at h
  dsimp only at h
  split at h
  · cases h
    exact signed fun small => isFinite_scaleDown _ (whole small) (by omega)
  · split at h
    · split at h <;> cases h
      next finite => exact signed fun _ => finite
    · split at h <;> cases h
      exact signed whole

theorem realOf_scaled_map {negative : Bool} {significand : Nat} {e : Int} {n : JsonNumber}
    {cs rest : List Char}
    (h : (scaled negative significand e : Except (ReadError ε) _).map (·, cs) = .ok (n, rest)) :
    n.RealOf significand := by
  obtain ⟨n', read, eq⟩ := map_eq_ok_iff.mp h
  cases eq
  exact realOf_scaled read

theorem realOf_readExponent {negative : Bool} {significand : Nat} {e : Int} {cs rest : List Char}
    {n : JsonNumber}
    (h : (readExponent negative significand e cs : Except (ReadError ε) _) = .ok (n, rest)) :
    n.RealOf significand := by
  unfold readExponent at h
  dsimp only at h
  split at h
  · cases h
  · split at h
    · cases h
    · split at h
      · split at h <;> cases h
        exact ⟨_, rfl, fun _ => rfl⟩
      · exact realOf_scaled_map h

theorem takeDigits_lt {bound value : Nat} (h : value < bound) (count : Nat) (cs : List Char) :
    (takeDigits bound value count cs).1 < bound := by
  induction cs generalizing value count with
  | nil => exact h
  | cons c cs ih =>
    rw [takeDigits]
    split
    · next more =>
      simp only [Bool.and_eq_true, decide_eq_true_eq] at more
      exact ih more.2 (count + 1)
    · exact h

theorem realOf_readFraction {negative : Bool} {significand : Nat} {e : Int} {cs rest : List Char}
    {n : JsonNumber}
    (h : (readFraction negative significand e cs : Except (ReadError ε) _) = .ok (n, rest)) :
    n.RealOf significand := by
  have taken := fun small : significand < 2 ^ 64 => takeDigits_lt small 0 cs
  unfold readFraction readScale at h
  dsimp only at h
  split at h
  · cases h
  · split at h
    · cases h
    · split at h
      · exact (realOf_readExponent h).mono taken
      · exact (realOf_readExponent h).mono taken
      · exact (realOf_scaled_map h).mono taken

theorem inRange_wholeNumber (negative : Bool) {n : Nat} (h : n < 2 ^ 64) :
    (wholeNumber negative n).InRange := by
  unfold wholeNumber
  split
  · exact .integer (by omega) (by omega)
  · split
    · exact .real (Binary64.isFinite_whole false (Nat.le_of_lt h))
    · exact .integer (by omega) (by omega)

theorem inRange_readUnsigned {negative : Bool} {cs rest : List Char} {n : JsonNumber}
    (h : (readUnsigned negative cs : Except (ReadError ε) _) = .ok (n, rest)) : n.InRange := by
  cases cs with
  | nil => cases h
  | cons c cs =>
    have taken := takeDigits_lt (show 0 < 2 ^ 64 by decide) 0 (c :: cs)
    simp only [readUnsigned] at h
    split at h
    · cases h
    · split at h
      · exact (realOf_readFraction h).inRange taken
      · exact (realOf_readExponent h).inRange taken
      · exact (realOf_readExponent h).inRange taken
      · split at h
        · cases h
          exact inRange_wholeNumber negative taken
        · exact (realOf_scaled_map h).inRange taken

end Json

end CellFormula
