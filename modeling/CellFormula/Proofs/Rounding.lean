import CellFormula.Number.Rounding
import Mathlib.Algebra.Order.Field.Power
import Mathlib.Tactic.FieldSimp
import Mathlib.Tactic.Linarith
import Mathlib.Tactic.Ring

/-!
# What rounds to a number

The rationals that round to a finite number form an interval around it, half a spacing to each side,
and a quarter to the lower side of a power of two. The ends belong to it when the significand is
even.
-/

namespace CellFormula

namespace Rounding

theorem nearest_eq_of_nat {num den m : Nat} (pos : 0 < den) (low : 2 * (m * den) ≤ 2 * num + den)
    (high : 2 * num ≤ 2 * (m * den) + den)
    (odd : m % 2 = 1 → 2 * (m * den) ≠ 2 * num + den ∧ 2 * num ≠ 2 * (m * den) + den) :
    nearest num den = m := by
  have parts := Nat.div_add_mod num den
  have rest := Nat.mod_lt num pos
  rw [Nat.mul_comm] at parts
  have upper : m ≤ num / den + 1 := by
    by_contra far
    have := Nat.mul_le_mul_right den (show num / den + 2 ≤ m by omega)
    rw [Nat.add_mul] at this
    omega
  have lower : num / den ≤ m := by
    by_contra far
    have := Nat.mul_le_mul_right den (show m + 1 ≤ num / den by omega)
    rw [Nat.add_mul] at this
    omega
  rw [nearest]
  obtain same | next : m = num / den ∨ m = num / den + 1 := by omega
  · rw [← same] at parts ⊢
    rw [if_neg]
    omega
  · have product : m * den = num / den * den + den := by rw [next]; ring
    rw [if_pos (by omega), next]

/-- The integer within half of the quotient, an even one where it is half away. -/
theorem nearest_eq {num den m : Nat} (pos : 0 < den) (low : (m : ℚ) - 1 / 2 ≤ num / den)
    (high : (num : ℚ) / den ≤ m + 1 / 2)
    (odd : m % 2 = 1 → (m : ℚ) - 1 / 2 < num / den ∧ (num : ℚ) / den < m + 1 / 2) :
    nearest num den = m := by
  have posQ : (0 : ℚ) < den := by exact_mod_cast pos
  have lowQ := (le_div_iff₀ posQ).mp low
  have highQ := (div_le_iff₀ posQ).mp high
  apply nearest_eq_of_nat pos
  · have : (2 * (m * den) : ℚ) ≤ 2 * num + den := by linarith
    exact_mod_cast this
  · have : (2 * num : ℚ) ≤ 2 * (m * den) + den := by linarith
    exact_mod_cast this
  · intro h
    obtain ⟨above, below⟩ := odd h
    have aboveQ := (lt_div_iff₀ posQ).mp above
    have belowQ := (div_lt_iff₀ posQ).mp below
    have up : (2 * (m * den) : ℚ) < 2 * num + den := by linarith
    have down : (2 * num : ℚ) < 2 * (m * den) + den := by linarith
    exact ⟨Nat.ne_of_lt (by exact_mod_cast up), Nat.ne_of_lt (by exact_mod_cast down)⟩

theorem scaledRatio_pos {num den : Nat} (pos : 0 < den) (e : Int) :
    0 < (scaledRatio num den e).2 :=
  Nat.mul_pos pos (Nat.two_pow_pos _)

/-- A power with an integer exponent as a quotient of powers with natural ones. -/
theorem zpow_eq_div {b : ℚ} (ne : b ≠ 0) (e : Int) :
    b ^ e = b ^ e.toNat / b ^ (-e).toNat := by
  have split : e = (e.toNat : Int) - ((-e).toNat : Int) := by omega
  conv => lhs; rw [split]
  rw [zpow_sub₀ ne, zpow_natCast, zpow_natCast]

theorem scaledRatio_eq (num den : Nat) (e : Int) :
    ((scaledRatio num den e).1 : ℚ) / (scaledRatio num den e).2 = num / den / 2 ^ e := by
  rw [zpow_eq_div (by norm_num)]
  simp only [scaledRatio]
  push_cast
  field_simp

/-- Quotients in one binade have one spacing. -/
theorem le_of_binade {q : ℚ} {a b : Int} (ha : 2 ^ 52 * 2 ^ a ≤ q) (hb : q < 2 ^ 53 * 2 ^ b) :
    a ≤ b := by
  have lt : (2 : ℚ) ^ (52 + a) < 2 ^ (53 + b) := by
    rw [zpow_add₀ (by norm_num), zpow_add₀ (by norm_num)]
    exact_mod_cast lt_of_le_of_lt ha hb
  have := (zpow_lt_zpow_iff_right₀ (by norm_num)).mp lt
  omega

theorem log2_bounds {n : Nat} (pos : 0 < n) :
    (2 : ℚ) ^ (n.log2 : Int) ≤ n ∧ (n : ℚ) < 2 ^ ((n.log2 : Int) + 1) := by
  have ne : n ≠ 0 := by omega
  have low : 2 ^ n.log2 ≤ n := Nat.log2_self_le ne
  have high : n < 2 ^ (n.log2 + 1) := Nat.lt_log2_self
  constructor
  · rw [zpow_natCast]
    exact_mod_cast low
  · rw [← Nat.cast_succ, zpow_natCast]
    exact_mod_cast high

/-- The first guess at the spacing is right or one too small. -/
theorem guess_bounds {num den : Nat} (hn : 0 < num) (hd : 0 < den) {e : Int}
    (he : e = num.log2 - den.log2 - 53) :
    (2 : ℚ) ^ 52 * 2 ^ e < num / den ∧ (num : ℚ) / den < 2 ^ 54 * 2 ^ e := by
  obtain ⟨numLow, numHigh⟩ := log2_bounds hn
  obtain ⟨denLow, denHigh⟩ := log2_bounds hd
  have pos : (0 : ℚ) < den := by exact_mod_cast hd
  have two : (2 : ℚ) ≠ 0 := by norm_num
  constructor
  · rw [lt_div_iff₀ pos]
    calc (2 : ℚ) ^ 52 * 2 ^ e * den
        < 2 ^ 52 * 2 ^ e * 2 ^ ((den.log2 : Int) + 1) := by gcongr
      _ = 2 ^ (num.log2 : Int) := by
        rw [← zpow_natCast, ← zpow_add₀ two, ← zpow_add₀ two, he]
        congr 1
        push_cast
        ring
      _ ≤ num := numLow
  · rw [div_lt_iff₀ pos]
    calc (num : ℚ) < 2 ^ ((num.log2 : Int) + 1) := numHigh
      _ = 2 ^ 54 * 2 ^ e * 2 ^ (den.log2 : Int) := by
        rw [← zpow_natCast, ← zpow_add₀ two, ← zpow_add₀ two, he]
        congr 1
        push_cast
        ring
      _ ≤ 2 ^ 54 * 2 ^ e * den := by gcongr

theorem spacing_spec {num den : Nat} (hn : 0 < num) (hd : 0 < den) :
    ∃ a : Int, (2 : ℚ) ^ 52 * 2 ^ a ≤ num / den ∧ (num : ℚ) / den < 2 ^ 53 * 2 ^ a ∧
      spacing num den = max a (-1074) := by
  generalize he : (num.log2 : Int) - den.log2 - 53 = e
  obtain ⟨low, high⟩ := guess_bounds hn hd he.symm
  have unit : (0 : ℚ) < 2 ^ e := by positivity
  have posR : (0 : ℚ) < (scaledRatio num den e).2 := by exact_mod_cast scaledRatio_pos hd e
  have test : 2 ^ 53 * (scaledRatio num den e).2 ≤ (scaledRatio num den e).1 ↔
      (2 : ℚ) ^ 53 * 2 ^ e ≤ num / den := by
    rw [← le_div_iff₀ unit, ← scaledRatio_eq, le_div_iff₀ posR]
    exact_mod_cast Iff.rfl
  rw [spacing, he]
  by_cases above : 2 ^ 53 * (scaledRatio num den e).2 ≤ (scaledRatio num den e).1
  · refine ⟨e + 1, ?_, ?_, by rw [if_pos above]⟩
    · rw [zpow_add_one₀ (by norm_num)]
      linarith [test.mp above]
    · rw [zpow_add_one₀ (by norm_num)]
      linarith
  · refine ⟨e, low.le, ?_, by rw [if_neg above]⟩
    exact lt_of_not_ge fun ge => above (test.mpr ge)

end Rounding

namespace Binary64

open Rounding

/-- The absolute value of a finite number. -/
def magnitude (x : Binary64) : ℚ :=
  x.significand * 2 ^ x.scale

/-- How far below a number its interval reaches, in spacings. -/
def slack (x : Binary64) : ℚ :=
  if x.fraction = 0 ∧ 1 < x.exponent.val then 1 / 4 else 1 / 2

/-- The rational `q` rounds to the magnitude of `x`. -/
structure Near (x : Binary64) (q : ℚ) : Prop where
  low : (x.significand - x.slack) * 2 ^ x.scale ≤ q
  high : q ≤ (x.significand + 1 / 2) * 2 ^ x.scale
  odd : x.significand % 2 = 1 → (x.significand - x.slack) * 2 ^ x.scale < q ∧
    q < (x.significand + 1 / 2) * 2 ^ x.scale

theorem slack_le_half (x : Binary64) : x.slack ≤ 1 / 2 := by
  rw [slack]
  split <;> norm_num

theorem significand_lt (x : Binary64) : x.significand < 2 ^ 53 := by
  have := x.fraction.isLt
  rw [significand]
  split <;> omega

theorem significand_of_normal {x : Binary64} (h : x.exponent.val ≠ 0) :
    x.significand = 2 ^ 52 + x.fraction := by
  rw [significand, if_neg]
  intro zero
  exact h (by rw [zero]; rfl)

theorem significand_pos {x : Binary64} (h : x.isZero = false) : 0 < x.significand := by
  rw [significand]
  split
  · next zero =>
    apply Nat.pos_of_ne_zero
    intro none
    have : x.fraction = 0 := Fin.ext none
    simp [isZero, zero, this] at h
  · omega

theorem scale_eq (x : Binary64) : x.scale = max (x.exponent.val : Int) 1 - 1075 := by
  rw [scale, Nat.cast_max]
  rfl

theorem exponent_lt_of_isFinite {x : Binary64} (h : x.isFinite = true) :
    x.exponent.val < 2047 := by
  have ne : x.exponent ≠ 2047 := by simpa [isFinite] using h
  have : x.exponent.val ≠ 2047 := fun same => ne (Fin.ext same)
  omega

theorem ofParts_carry (negative : Bool) (e : Int) :
    ofParts negative (2 ^ 53) e = ofParts negative (2 ^ 52) (e + 1) := by
  rw [ofParts, ofParts]
  norm_num

/-- A finite number is put together again from its significand and its scale. -/
theorem ofParts_parts {x : Binary64} (finite : x.isFinite = true) :
    ofParts x.negative x.significand x.scale = x := by
  have high := x.significand_lt
  have bound := exponent_lt_of_isFinite finite
  have small := x.fraction.isLt
  have scale := x.scale_eq
  rw [ofParts, if_neg (by omega)]
  dsimp only
  by_cases zero : x.exponent.val = 0
  · have exponent : x.exponent = 0 := Fin.ext zero
    have significand : x.significand = x.fraction := by rw [significand, if_pos exponent]
    rw [if_pos (by omega), significand]
    cases x with
    | mk negative e fraction =>
      cases exponent
      congr 1
      exact Fin.ext (Nat.mod_eq_of_lt small)
  · have significand := significand_of_normal zero
    rw [if_neg (by omega), if_neg (by omega), significand, scale]
    cases x with
    | mk negative e fraction =>
      congr 1
      · apply Fin.ext
        change (max (e.val : Int) 1 - 1075 + 1075).toNat % 2048 = e.val
        have : e.val ≠ 0 := zero
        have := e.isLt
        omega
      · apply Fin.ext
        change (2 ^ 52 + fraction.val) % 2 ^ 52 = fraction.val
        have : fraction.val < 2 ^ 52 := small
        omega

theorem ofRatio_eq {negative : Bool} {num den : Nat} (ne : num ≠ 0) :
    ofRatio negative num den = ofParts negative
      (nearest (scaledRatio num den (spacing num den)).1
        (scaledRatio num den (spacing num den)).2) (spacing num den) := by
  rw [ofRatio, if_neg ne]

theorem two_zpow_eq (e : Int) : (2 : ℚ) ^ e = 2 * 2 ^ (e - 1) := by
  rw [← zpow_one_add₀ (by norm_num)]
  congr 1
  omega

theorem Near.pos {x : Binary64} {q : ℚ} (h : x.Near q) (nonzero : x.isZero = false) : 0 < q := by
  have one : (1 : ℚ) ≤ x.significand := by exact_mod_cast significand_pos nonzero
  have slack := x.slack_le_half
  have unit : (0 : ℚ) < 2 ^ x.scale := by positivity
  have inner : (0 : ℚ) < x.significand - x.slack := by linarith
  exact lt_of_lt_of_le (mul_pos inner unit) h.low

/-- On the grid of its own spacing a number is the nearest to what rounds to it. -/
theorem Near.nearest_eq {x : Binary64} {num den : Nat} (h : x.Near (num / den)) (pos : 0 < den) :
    nearest (scaledRatio num den x.scale).1 (scaledRatio num den x.scale).2 = x.significand := by
  have slack := x.slack_le_half
  have unit : (0 : ℚ) < 2 ^ x.scale := by positivity
  have low := (le_div_iff₀ unit).mpr h.low
  have high := (div_le_iff₀ unit).mpr h.high
  apply Rounding.nearest_eq (scaledRatio_pos pos _)
  · rw [scaledRatio_eq]
    linarith
  · rw [scaledRatio_eq]
    exact high
  · intro odd
    obtain ⟨above, below⟩ := h.odd odd
    have lower := (lt_div_iff₀ unit).mpr above
    have upper := (div_lt_iff₀ unit).mpr below
    rw [scaledRatio_eq]
    exact ⟨by linarith, upper⟩

/-- Just below a power of two the spacing is half as wide, and the power is the nearest there
too. -/
theorem Near.nearest_below {x : Binary64} {num den : Nat} (h : x.Near (num / den)) (pos : 0 < den)
    (power : x.significand = 2 ^ 52) (quarter : x.slack = 1 / 4)
    (below : (num : ℚ) / den < 2 ^ 52 * 2 ^ x.scale) :
    nearest (scaledRatio num den (x.scale - 1)).1 (scaledRatio num den (x.scale - 1)).2 =
      2 ^ 53 := by
  have unit : (0 : ℚ) < 2 ^ (x.scale - 1) := by positivity
  have double := two_zpow_eq x.scale
  have low := h.low
  rw [power, quarter, double] at low
  rw [double] at below
  apply Rounding.nearest_eq (scaledRatio_pos pos _)
  · rw [scaledRatio_eq, le_div_iff₀ unit]
    push_cast at low ⊢
    linarith
  · rw [scaledRatio_eq, div_le_iff₀ unit]
    push_cast
    linarith
  · intro odd
    omega

theorem ofRatio_of_near {x : Binary64} {num den : Nat} (finite : x.isFinite = true)
    (nonzero : x.isZero = false) (pos : 0 < den) (h : x.Near (num / den)) :
    ofRatio x.negative num den = x := by
  have posQ : (0 : ℚ) < den := by exact_mod_cast pos
  have quotient := h.pos nonzero
  have numPos : 0 < num := by
    apply Nat.pos_of_ne_zero
    rintro rfl
    simp at quotient
  obtain ⟨a, ha, hb, spacing⟩ := spacing_spec numPos pos
  have unit : (0 : ℚ) < 2 ^ x.scale := by positivity
  have significand := x.significand_lt
  have scale := x.scale_eq
  have aligned : max a (-1074) = x.scale → ofRatio x.negative num den = x := by
    intro same
    rw [ofRatio_eq (by omega), spacing, same, h.nearest_eq pos]
    exact ofParts_parts finite
  have top : (num : ℚ) / den < 2 ^ 53 * 2 ^ x.scale := by
    have le : (x.significand : ℚ) + 1 ≤ 2 ^ 53 := by exact_mod_cast significand
    calc (num : ℚ) / den ≤ (x.significand + 1 / 2) * 2 ^ x.scale := h.high
      _ < 2 ^ 53 * 2 ^ x.scale := by gcongr; linarith
  have atMost := le_of_binade ha top
  by_cases regular : (2 : ℚ) ^ 52 * 2 ^ x.scale ≤ num / den
  · have atLeast := le_of_binade regular hb
    apply aligned
    omega
  · have below := lt_of_not_ge regular
    by_cases subnormal : x.exponent.val ≤ 1
    · apply aligned
      omega
    · have normal := significand_of_normal (x := x) (by omega)
      -- Only the quarter below a power of two reaches into the next finer binade.
      have power : x.significand = 2 ^ 52 := by
        have slack := x.slack_le_half
        have lt : ((x.significand : ℚ) - x.slack) * 2 ^ x.scale < 2 ^ 52 * 2 ^ x.scale :=
          lt_of_le_of_lt h.low below
        have := lt_of_mul_lt_mul_right lt unit.le
        have close : (x.significand : ℚ) < 2 ^ 52 + 1 := by linarith
        have : x.significand < 2 ^ 52 + 1 := by exact_mod_cast close
        omega
      have quarter : x.slack = 1 / 4 := by
        have fraction : x.fraction.val = 0 := by omega
        rw [slack, if_pos ⟨Fin.ext fraction, by omega⟩]
      have double := two_zpow_eq x.scale
      have finer : (0 : ℚ) < 2 ^ (x.scale - 1) := by positivity
      have low := h.low
      rw [power, quarter, double] at low
      have upper : a ≤ x.scale - 1 := le_of_binade ha (by rw [double] at below; linarith)
      have lower : x.scale - 1 ≤ a := le_of_binade (by push_cast at low; linarith) hb
      have same : max a (-1074) = x.scale - 1 := by omega
      rw [ofRatio_eq (by omega), spacing, same, h.nearest_below pos power quarter below,
        ofParts_carry, Int.sub_add_cancel, ← power]
      exact ofParts_parts finite

end Binary64

end CellFormula
