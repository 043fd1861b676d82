import CellFormula.Proofs.ReadNumbers

/-!
# Products that do not overflow

Each rounding makes a number greater by at most one part in `2 ^ 53`, and scaling by a power of ten
rounds three times. The first two roundings are too little to lead over the greatest finite number,
unless the product begins within four spacings of it.
-/

namespace CellFormula

namespace Rounding

theorem nearest_le_of_nat (num : Nat) {den : Nat} (pos : 0 < den) :
    2 * (nearest num den * den) ≤ 2 * num + den := by
  have parts := Nat.div_add_mod num den
  have rest := Nat.mod_lt num pos
  rw [Nat.mul_comm] at parts
  have next : (num / den + 1) * den = num / den * den + den := by ring
  rw [nearest]
  split
  · next up =>
    rw [next]
    omega
  · omega

/-- Rounding to an integer adds half at most. -/
theorem nearest_le (num : Nat) {den : Nat} (pos : 0 < den) :
    (nearest num den : ℚ) ≤ num / den + 1 / 2 := by
  have posQ : (0 : ℚ) < den := by exact_mod_cast pos
  have twice : (2 * (nearest num den * den) : ℚ) ≤ 2 * num + den := by
    exact_mod_cast nearest_le_of_nat num pos
  have quotient : (num : ℚ) / den * den = num := by field_simp
  have scaled : (nearest num den : ℚ) * den ≤ (num / den + 1 / 2) * den := by
    rw [add_mul, quotient]
    linarith
  exact le_of_mul_le_mul_right scaled posQ

end Rounding

namespace Binary64

open Rounding

theorem magnitude_infinity (negative : Bool) :
    (infinity negative).magnitude = 2 ^ 52 * 2 ^ (972 : Int) := by
  have fraction : (infinity negative).fraction.val = 0 := rfl
  have exponent : (infinity negative).exponent.val = 2047 := rfl
  have significand : (infinity negative).significand = 2 ^ 52 := by
    rw [significand_of_normal (by omega), fraction, Nat.add_zero]
  have scale : (infinity negative).scale = 972 := by
    rw [scale_eq, exponent]
    rfl
  rw [magnitude, significand, scale, Nat.cast_pow, Nat.cast_ofNat]

/-- A normal number is put together as it stands. -/
theorem ofParts_of_normal (negative : Bool) {m : Nat} {e : Int} (low : 2 ^ 52 ≤ m)
    (high : m < 2 ^ 53) (least : -1074 ≤ e) (top : e < 972) :
    (ofParts negative m e).negative = negative ∧
      (ofParts negative m e).exponent.val = (e + 1075).toNat ∧
      (ofParts negative m e).magnitude = m * 2 ^ e := by
  let x : Binary64 := ⟨negative, Fin.ofNat 2048 (e + 1075).toNat, Fin.ofNat (2 ^ 52) m⟩
  have parts : ofParts negative m e = x := by
    rw [ofParts, if_neg (by omega)]
    dsimp only
    rw [if_neg (by omega), if_neg (by omega)]
  have exponent : x.exponent.val = (e + 1075).toNat := Nat.mod_eq_of_lt (by omega)
  have fraction : x.fraction.val = m - 2 ^ 52 := by
    change m % 2 ^ 52 = m - 2 ^ 52
    omega
  have significand : x.significand = m := by
    rw [significand_of_normal (by omega), fraction]
    omega
  have scale : x.scale = e := by
    rw [scale_eq, exponent]
    omega
  rw [parts, magnitude, significand, scale]
  exact ⟨rfl, exponent, rfl⟩

theorem magnitude_ofParts_of_lt (negative : Bool) {m : Nat} {e : Int} (low : 2 ^ 52 ≤ m)
    (high : m < 2 ^ 53) (least : -1074 ≤ e) : (ofParts negative m e).magnitude ≤ m * 2 ^ e := by
  by_cases large : 972 ≤ e
  · have lowQ : (2 : ℚ) ^ 52 ≤ m := by exact_mod_cast low
    have unit : (2 : ℚ) ^ (972 : Int) ≤ 2 ^ e := zpow_le_zpow_right₀ (by norm_num) large
    have beyond : ofParts negative m e = infinity negative := by
      rw [ofParts, if_neg (by omega)]
      dsimp only
      rw [if_neg (by omega), if_pos large]
    rw [beyond, magnitude_infinity]
    gcongr
  · exact (ofParts_of_normal negative low high least (by omega)).2.2.le

/-- A number is put together as it stands, or as an infinity, which is no greater. -/
theorem magnitude_ofParts_le (negative : Bool) {m : Nat} {e : Int} (low : 2 ^ 52 ≤ m)
    (high : m ≤ 2 ^ 53) (least : -1074 ≤ e) : (ofParts negative m e).magnitude ≤ m * 2 ^ e := by
  by_cases carry : m = 2 ^ 53
  · have carried := magnitude_ofParts_of_lt negative (m := 2 ^ 52) (e := e + 1) (Nat.le_refl _)
      (by norm_num) (by omega)
    have double : ((2 ^ 52 : Nat) : ℚ) * 2 ^ (e + 1) = (m : ℚ) * 2 ^ e := by
      rw [zpow_add_one₀ (by norm_num), carry]
      push_cast
      ring
    rw [double] at carried
    rw [carry, ofParts_carry, ← carry]
    exact carried
  · exact magnitude_ofParts_of_lt negative low (by omega) least

/-- A quotient of one at least is rounded up by one part in `2 ^ 53` at most. -/
theorem magnitude_ofRatio_le (negative : Bool) {num den : Nat} (pos : 0 < den)
    (one : (1 : ℚ) ≤ num / den) :
    (ofRatio negative num den).magnitude ≤ num / den * (1 + 1 / 2 ^ 53) := by
  have posQ : (0 : ℚ) < den := by exact_mod_cast pos
  have nonzero : num ≠ 0 := by
    rintro rfl
    norm_num at one
  obtain ⟨a, low, high, spacing⟩ := spacing_spec (Nat.pos_of_ne_zero nonzero) pos
  have atLeast : -52 ≤ a := by
    apply le_of_binade _ high
    calc (2 : ℚ) ^ 52 * 2 ^ (-52 : Int) = 1 := by norm_num
      _ ≤ num / den := one
  have same : Rounding.spacing num den = a := by omega
  have unit : (0 : ℚ) < 2 ^ a := by positivity
  have ratio := scaledRatio_eq num den a
  have denPos : 0 < (scaledRatio num den a).2 := scaledRatio_pos pos a
  have denPosQ : (0 : ℚ) < (scaledRatio num den a).2 := by exact_mod_cast denPos
  have floor : (2 : ℚ) ^ 52 ≤ num / den / 2 ^ a := (le_div_iff₀ unit).mpr low
  have ceiling : (num : ℚ) / den / 2 ^ a < 2 ^ 53 := (div_lt_iff₀ unit).mpr high
  have half := nearest_le (scaledRatio num den a).1 denPos
  generalize hm : nearest (scaledRatio num den a).1 (scaledRatio num den a).2 = m at half
  rw [ratio] at half
  have lowM : 2 ^ 52 ≤ m := by
    rw [← hm]
    apply le_nearest denPos
    rw [← ratio, le_div_iff₀ denPosQ] at floor
    exact_mod_cast floor
  have highM : m ≤ 2 ^ 53 := by
    have : (m : ℚ) < 2 ^ 53 + 1 := by linarith
    have : m < 2 ^ 53 + 1 := by exact_mod_cast this
    omega
  rw [ofRatio_eq nonzero, same, hm]
  calc (ofParts negative m a).magnitude ≤ m * 2 ^ a :=
        magnitude_ofParts_le negative lowM highM (by omega)
    _ ≤ num / den / 2 ^ a * (1 + 1 / 2 ^ 53) * 2 ^ a := by
        apply mul_le_mul_of_nonneg_right _ unit.le
        linarith
    _ = num / den * (1 + 1 / 2 ^ 53) := by
        field_simp

/-- A quotient rounds to a finite number up to half a spacing above the greatest one. -/
theorem isFinite_ofRatio_of_lt (negative : Bool) {num den : Nat} (pos : 0 < den)
    (h : (num : ℚ) / den < (2 ^ 53 - 1 / 2) * 2 ^ (971 : Int)) :
    (ofRatio negative num den).isFinite = true := by
  by_cases zero : num = 0
  · rw [ofRatio, if_pos zero]
    rfl
  obtain ⟨a, low, -, spacing⟩ := spacing_spec (Nat.pos_of_ne_zero zero) pos
  have unit : (0 : ℚ) < 2 ^ (971 : Int) := by positivity
  have atMost : a ≤ 971 := le_of_binade low (lt_of_lt_of_le h (by gcongr; norm_num))
  rw [ofRatio_eq zero]
  by_cases top : a ≤ 970
  · exact isFinite_ofParts negative _ (by omega)
  have same : Rounding.spacing num den = 971 := by omega
  have denPos : 0 < (scaledRatio num den 971).2 := scaledRatio_pos pos 971
  have half := nearest_le (scaledRatio num den 971).1 denPos
  have below : (num : ℚ) / den / 2 ^ (971 : Int) < 2 ^ 53 - 1 / 2 := (div_lt_iff₀ unit).mpr h
  rw [same]
  generalize nearest (scaledRatio num den 971).1 (scaledRatio num den 971).2 = m at half
  rw [scaledRatio_eq] at half
  have small : m < 2 ^ 53 := by
    have : (m : ℚ) < 2 ^ 53 := by linarith
    exact_mod_cast this
  apply isFinite_of_exponent_lt
  rw [ofParts, if_neg (by omega)]
  dsimp only
  split
  · exact (by decide : 0 < 2047)
  · exact (by decide : (971 + 1075 : Int).toNat % 2048 < 2047)

theorem magnitude_nonneg (x : Binary64) : 0 ≤ x.magnitude := by
  rw [magnitude]
  positivity

theorem magnitude_ofNat_le {n : Nat} (pos : 0 < n) :
    (ofNat n).magnitude ≤ n * (1 + 1 / 2 ^ 53) := by
  have one : (1 : ℚ) ≤ (n : ℚ) / (1 : Nat) := by
    have : (1 : ℚ) ≤ n := by exact_mod_cast pos
    simpa using this
  have bound := magnitude_ofRatio_le false Nat.one_pos one
  rw [Nat.cast_one, div_one] at bound
  exact bound

/-- A product below four spacings from the greatest number stays finite, though its factors are
rounded before it is. -/
theorem isFinite_timesPowerOfTen {c k : Nat} (pos : 0 < c) (small : c ≤ 2 ^ 64)
    (h : (c : ℚ) * 10 ^ k ≤ (2 ^ 53 - 7 / 2) * 2 ^ (971 : Int)) :
    ((ofNat c).timesPowerOfTen k).isFinite = true := by
  have finite : (ofNat c).isFinite = true := isFinite_whole false small
  obtain ⟨num, den, denPos, product, rounded⟩ := timesPowerOfTen_eq finite k
  have left := magnitude_ofNat_le pos
  have right := magnitude_ofNat_le (Nat.pow_pos (n := k) (show 0 < 10 by decide))
  push_cast at right
  rw [rounded]
  apply isFinite_ofRatio_of_lt _ denPos
  rw [product]
  calc (ofNat c).magnitude * (ofNat (10 ^ k)).magnitude
      ≤ c * (1 + 1 / 2 ^ 53) * (10 ^ k * (1 + 1 / 2 ^ 53)) :=
        mul_le_mul left right (magnitude_nonneg _) (by positivity)
    _ = c * 10 ^ k * (1 + 1 / 2 ^ 53) ^ 2 := by ring
    _ ≤ (2 ^ 53 - 7 / 2) * 2 ^ (971 : Int) * (1 + 1 / 2 ^ 53) ^ 2 := by gcongr
    _ = (2 ^ 53 - 7 / 2) * (1 + 1 / 2 ^ 53) ^ 2 * 2 ^ (971 : Int) := by ring
    _ < (2 ^ 53 - 1 / 2) * 2 ^ (971 : Int) := by
        apply mul_lt_mul_of_pos_right _ (by positivity)
        norm_num

/-- What rounds to a number is far enough from the greatest one, save for the last three numbers. -/
theorem Near.le_of_not_greatest {x : Binary64} {q : ℚ} (finite : x.isFinite = true)
    (h : x.Near q) (below : x.exponent.val = 2046 → x.fraction.val < 2 ^ 52 - 3) :
    q ≤ (2 ^ 53 - 7 / 2) * 2 ^ (971 : Int) := by
  have exponent := exponent_lt_of_isFinite finite
  have scale := x.scale_eq
  refine le_trans h.high ?_
  by_cases top : x.exponent.val = 2046
  · have fraction := below top
    have significand := significand_of_normal (x := x) (by omega)
    have bound : (x.significand : ℚ) + 4 ≤ 2 ^ 53 := by
      have : x.significand + 4 ≤ 2 ^ 53 := by omega
      exact_mod_cast this
    have power : x.scale = 971 := by omega
    rw [power]
    gcongr
    linarith
  · have bound : (x.significand : ℚ) + 1 ≤ 2 ^ 53 := by exact_mod_cast x.significand_lt
    have unit : (2 : ℚ) ^ x.scale ≤ 2 ^ (970 : Int) := zpow_le_zpow_right₀ (by norm_num) (by omega)
    calc (x.significand + 1 / 2 : ℚ) * 2 ^ x.scale ≤ 2 ^ 53 * 2 ^ (970 : Int) := by
          apply mul_le_mul (by linarith) unit (by positivity) (by norm_num)
      _ ≤ (2 ^ 53 - 7 / 2) * (2 * 2 ^ (970 : Int)) := by
          rw [← mul_assoc]
          gcongr
          norm_num
      _ = (2 ^ 53 - 7 / 2) * 2 ^ (971 : Int) := by rw [two_zpow_eq 971]; rfl

end Binary64

end CellFormula
