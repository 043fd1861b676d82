import CellFormula.Proofs.NumberTexts

/-!
# Short numbers are kept

A significand below `2 ^ 53` and a power of ten up to `10 ^ 22` are exact, so that reading rounds
only once, to the number that was written. That covers the numbers of at most fifteen digits from
`10 ^ -8` up to `10 ^ 14`.
-/

namespace CellFormula

namespace Binary64

theorem slack_pos (x : Binary64) : 0 < x.slack := by
  rw [slack]
  split <;> norm_num

theorem near_magnitude (x : Binary64) : x.Near x.magnitude := by
  have slack := x.slack_pos
  have unit : (0 : ℚ) < 2 ^ x.scale := by positivity
  have below : (x.significand - x.slack) * 2 ^ x.scale < x.magnitude := by
    rw [magnitude]
    gcongr
    linarith
  have above : x.magnitude < (x.significand + 1 / 2) * 2 ^ x.scale := by
    rw [magnitude]
    gcongr
    linarith
  exact ⟨below.le, above.le, fun _ => ⟨below, above⟩⟩

theorem exists_shift {n : Nat} (pos : 0 < n) (small : n < 2 ^ 53) :
    ∃ k ≤ 52, 2 ^ 52 ≤ n * 2 ^ k ∧ n * 2 ^ k < 2 ^ 53 := by
  have bits : n.log2 < 53 := (Nat.log2_lt (by omega)).mpr small
  have sum : n.log2 + (52 - n.log2) = 52 := by omega
  have sum' : n.log2 + 1 + (52 - n.log2) = 53 := by omega
  refine ⟨52 - n.log2, by omega, ?_, ?_⟩
  · calc 2 ^ 52 = 2 ^ n.log2 * 2 ^ (52 - n.log2) := by rw [← Nat.pow_add, sum]
      _ ≤ n * 2 ^ (52 - n.log2) := Nat.mul_le_mul_right _ (Nat.log2_self_le (by omega))
  · calc n * 2 ^ (52 - n.log2) < 2 ^ (n.log2 + 1) * 2 ^ (52 - n.log2) :=
          Nat.mul_lt_mul_of_pos_right Nat.lt_log2_self (Nat.two_pow_pos _)
      _ = 2 ^ 53 := by rw [← Nat.pow_add, sum']

/-- Integers of at most 53 bits are exact. -/
theorem ofNat_small {n : Nat} (pos : 0 < n) (small : n < 2 ^ 53) :
    (ofNat n).negative = false ∧ (ofNat n).magnitude = n := by
  obtain ⟨k, few, low, high⟩ := exists_shift pos small
  obtain ⟨sign, exponent, value⟩ :=
    ofParts_of_normal false low high (e := -k) (by omega) (by omega)
  generalize ofParts false (n * 2 ^ k) (-k) = x at sign exponent value
  have value : x.magnitude = n := by
    rw [value, zpow_neg, zpow_natCast]
    push_cast
    field_simp
  have finite : x.isFinite = true := isFinite_of_exponent_lt (by omega)
  have nonzero : x.isZero = false := by
    have ne : x.exponent ≠ 0 := by
      intro zero
      rw [zero] at exponent
      have : (0 : Fin 2048).val = 0 := rfl
      omega
    simp [isZero, ne]
  have near : x.Near (n / (1 : Nat)) := by
    rw [Nat.cast_one, div_one, ← value]
    exact x.near_magnitude
  have same : ofRatio x.negative n 1 = x := ofRatio_of_near finite nonzero Nat.one_pos near
  have unfolded : ofNat n = ofRatio x.negative n 1 := by
    rw [sign]
    rfl
  rw [unfolded, same]
  exact ⟨sign, value⟩

/-- So are the powers of ten that a double can hold. -/
theorem magnitude_ofNat_power {k : Nat} (h : k ≤ 22) : (ofNat (10 ^ k)).magnitude = 10 ^ k := by
  have exact : ∀ k < 23, (ofNat (10 ^ k)).ratio.1 = 10 ^ k * (ofNat (10 ^ k)).ratio.2 := by
    decide
  have pos : ((ofNat (10 ^ k)).ratio.2 : ℚ) ≠ 0 := by
    have := (ofNat (10 ^ k)).ratio_pos
    positivity
  rw [← ratio_value, exact k (by omega)]
  push_cast
  field_simp

variable {x : Binary64} {c k : Nat}

/-- A fraction rounds to the number without its sign. -/
theorem ofRatio_false_of_near {num den : Nat} (finite : x.isFinite = true)
    (nonzero : x.isZero = false) (pos : 0 < den) (near : x.Near (num / den)) :
    ofRatio false num den = ⟨false, x.exponent, x.fraction⟩ :=
  ofRatio_of_near (x := ⟨false, x.exponent, x.fraction⟩) finite nonzero pos
    ⟨near.low, near.high, near.odd⟩

/-- With both factors exact the product is rounded once. -/
theorem timesPowerOfTen_of_near (finite : x.isFinite = true) (nonzero : x.isZero = false)
    (pos : 0 < c) (small : c < 2 ^ 53) (few : k ≤ 22) (near : x.Near (c * 10 ^ k)) :
    (ofNat c).timesPowerOfTen k = ⟨false, x.exponent, x.fraction⟩ := by
  obtain ⟨sign, value⟩ := ofNat_small pos small
  have finiteC : (ofNat c).isFinite = true := isFinite_whole false (by omega)
  obtain ⟨num, den, denPos, product, rounded⟩ := timesPowerOfTen_eq finiteC k
  rw [value, magnitude_ofNat_power few] at product
  rw [rounded, sign]
  apply ofRatio_false_of_near finite nonzero denPos
  rw [product]
  exact near

theorem overPowerOfTen_of_near (finite : x.isFinite = true) (nonzero : x.isZero = false)
    (pos : 0 < c) (small : c < 2 ^ 53) (few : k ≤ 22) (near : x.Near (c / 10 ^ k)) :
    (ofNat c).overPowerOfTen k = ⟨false, x.exponent, x.fraction⟩ := by
  obtain ⟨sign, value⟩ := ofNat_small pos small
  have finiteC : (ofNat c).isFinite = true := isFinite_whole false (by omega)
  have power := magnitude_ofNat_power few
  have divisor : (ofNat (10 ^ k)).magnitude ≠ 0 := by
    rw [power]
    positivity
  obtain ⟨num, den, denPos, quotient, rounded⟩ := overPowerOfTen_eq finiteC divisor
  rw [value, power] at quotient
  rw [rounded, sign]
  apply ofRatio_false_of_near finite nonzero denPos
  rw [quotient]
  exact near

end Binary64

namespace Json

variable {ε : Type}

theorem scaled_of_near {x : Binary64} (finite : x.isFinite = true) (nonzero : x.isZero = false)
    {c : Nat} (pos : 0 < c) (small : c < 2 ^ 53) {e : Int} (few : e.natAbs ≤ 22)
    (near : x.Near (c * 10 ^ e)) :
    (scaled x.negative c e : Except (ReadError ε) _) = .ok (.real x) := by
  have signed : (if x.negative then Binary64.negate ⟨false, x.exponent, x.fraction⟩
      else ⟨false, x.exponent, x.fraction⟩) = x := by
    obtain ⟨negative, exponent, fraction⟩ := x
    cases negative <;> rfl
  rw [scaled]
  dsimp only
  by_cases down : e < 0
  · have power : (c : ℚ) * 10 ^ e = c / 10 ^ e.natAbs := by
      rw [div_eq_mul_inv, ← zpow_natCast, ← zpow_neg]
      congr 2
      omega
    rw [power] at near
    have once : Binary64.overPowerOfTen (.ofNat c) e.natAbs = ⟨false, x.exponent, x.fraction⟩ :=
      Binary64.overPowerOfTen_of_near finite nonzero pos small few near
    rw [if_pos down, scaleDown, if_pos (show e.natAbs ≤ 308 by omega), once, signed]
  · have power : (c : ℚ) * 10 ^ e = c * 10 ^ e.natAbs := by
      rw [← zpow_natCast]
      congr 2
      omega
    rw [power] at near
    have once : Binary64.timesPowerOfTen (.ofNat c) e.natAbs = ⟨false, x.exponent, x.fraction⟩ :=
      Binary64.timesPowerOfTen_of_near finite nonzero pos small few near
    have finite : Binary64.isFinite ⟨false, x.exponent, x.fraction⟩ = true := finite
    rw [if_neg down, if_pos (by omega), once, if_pos finite, signed]

/-- All digits around the point are the significand, and those behind it its exponent. -/
theorem readUnsigned_point (negative : Bool) {ws ds : List Char} (whole : IsDigits ws)
    (head : ws.head? ≠ some '0' ∨ ws = ['0']) (fraction : IsDigits ds)
    (small : Nat.ofDigitChars 10 (ws ++ ds) 0 < 2 ^ 64) :
    (readUnsigned negative (ws ++ '.' :: ds) : Except (ReadError ε) _) =
      (scaled negative (Nat.ofDigitChars 10 (ws ++ ds) 0) (-ds.length)).map (·, []) := by
  rw [Nat.ofDigitChars_append] at small ⊢
  have first : Nat.ofDigitChars 10 ws 0 < 2 ^ 64 :=
    Nat.lt_of_le_of_lt (le_ofDigitChars ds _) small
  have stop : startsWithDigit [] = false := rfl
  have ends : EndsNumber [] := trivial
  have digits := readFraction_of_small (ε := ε) negative fraction small stop
  rw [List.append_nil] at digits
  rw [readUnsigned_of_small negative whole head first rfl, afterDigits, Nat.cast_zero, digits,
    readScale_of_ends _ _ _ ends]

/-- The text of a short number is scaled from exact factors. -/
theorem readUnsigned_plain {d : Decimal} (wellFormed : d.WellFormed)
    (head : d.digits.head? ≠ some '0') (digits : d.digits.length ≤ 15) (low : -7 ≤ d.point)
    (high : d.point ≤ 14) : ∃ (c : Nat) (e : Int), c < 2 ^ 53 ∧ e.natAbs ≤ 22 ∧
      (c : ℚ) * 10 ^ e = d.value ∧ ∀ negative,
        (readUnsigned negative (Layout.document.plain d) : Except (ReadError ε) _) =
          (scaled negative c e).map (·, []) := by
  obtain ⟨ws, ds, text, parts⟩ := positional_plain wellFormed
  have value := parts.value
  have place := parts.place
  generalize hk : (d.point + 1 - d.digits.length).toNat = k at value place
  have below : Numeral.digitsValue d.digits < 10 ^ d.digits.length :=
    ofDigitChars_lt (List.all_eq_true.mp wellFormed.digits)
  have small : Numeral.digitsValue (ws ++ ds) < 10 ^ 15 := by
    calc Numeral.digitsValue (ws ++ ds) = 10 ^ k * Numeral.digitsValue d.digits := value
      _ < 10 ^ k * 10 ^ d.digits.length :=
          Nat.mul_lt_mul_of_pos_left below (Nat.pow_pos (by decide))
      _ = 10 ^ (k + d.digits.length) := (Nat.pow_add _ _ _).symm
      _ ≤ 10 ^ 15 := Nat.pow_le_pow_right (by decide) (by omega)
  have exact : Numeral.digitsValue (ws ++ ds) < 2 ^ 53 := Nat.lt_trans small (by norm_num)
  have few : (-(ds.length : Int)).natAbs ≤ 22 := by
    have := List.length_pos_of_ne_nil wellFormed.ne_nil
    omega
  refine ⟨Numeral.digitsValue (ws ++ ds), -ds.length, exact, few, ?_, fun negative => ?_⟩
  · rw [value, place, zpow_sub₀ (by norm_num), zpow_natCast, Decimal.value]
    push_cast
    field_simp
  · rw [text]
    apply readUnsigned_point negative parts.whole (parts.head head) parts.fraction
    exact Nat.lt_trans exact (by norm_num)

end Json

namespace Binary64

/-- Zero, or a number written with at most fifteen digits, of which the first counts for at least
`10 ^ -8` and at most `10 ^ 13`. -/
def IsShort (x : Binary64) : Prop :=
  x.isZero = true ∨ (x.shortest .even).digits.length ≤ 15 ∧ -7 ≤ (x.shortest .even).point ∧
    (x.shortest .even).point ≤ 14

/-- A short number is read as it was written. -/
theorem reread_of_isShort {x : Binary64} (finite : x.isFinite = true) (short : x.IsShort) :
    x.reread = some x := by
  by_cases zero : x.isZero = true
  · rw [eq_zero_of_isZero zero]
    exact reread_zero x.negative
  rw [Bool.not_eq_true] at zero
  have written := written_shortest zero .even
  have wellFormed := written.wellFormed
  have text := document_of_nonzero finite zero
  obtain ⟨digits, low, high⟩ := short.resolve_left (by simp [zero])
  have near := written.near
  generalize x.shortest .even = d at *
  have positive {c : Nat} {e : Int} (value : (c : ℚ) * 10 ^ e = d.value) : 0 < c := by
    apply Nat.pos_of_ne_zero
    rintro rfl
    have := near.pos zero
    simp [← value] at this
  by_cases positional : Layout.document.positional d.point = true
  · rw [if_pos positional] at text
    obtain ⟨c, e, small, few, value, read⟩ :=
      Json.readUnsigned_plain (ε := Empty) wellFormed written.head digits low high
    rw [← value] at near
    have read := read x.negative
    rw [Json.scaled_of_near finite zero (positive value) small few near] at read
    exact reread_of_numeral (Json.isNumeral_plain wellFormed) text read
  · rw [if_neg positional] at text
    have read := Json.readUnsigned_scientific (ε := Empty) x.negative wellFormed written.head
      written.small (written.point_small finite zero)
    have some : 0 < d.digits.length := List.length_pos_of_ne_nil wellFormed.ne_nil
    have below : Numeral.digitsValue d.digits < 10 ^ d.digits.length :=
      Json.ofDigitChars_lt (List.all_eq_true.mp wellFormed.digits)
    have size : 10 ^ d.digits.length ≤ 10 ^ 15 := Nat.pow_le_pow_right (by decide) digits
    rw [Json.scaled_of_near finite zero (positive rfl) (by omega) (by omega) near] at read
    exact reread_of_numeral (Json.isNumeral_scientific wellFormed) text read

end Binary64

namespace Formula

def ShortNumber : Formula → Prop
  | .number value => value.IsShort
  | _ => True

theorem keepsNumbers_of_short {f : Formula} (h : f.Every ShortNumber) : f.KeepsNumbers := by
  apply Every.imp _ h
  intro f short
  cases f with
  | number value => exact fun finite => Binary64.reread_of_isShort finite short
  | _ => trivial

end Formula

end CellFormula
