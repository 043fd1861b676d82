import CellFormula.Formula.Text
import CellFormula.Proofs.Decimals
import CellFormula.Proofs.Rounding

/-!
# Numbers written and read again

The decimal chosen for a number lies in the interval that rounds to it, and seventeen digits always
reach into that interval: a grid that fine is narrower than the gap between two numbers. So a finite
number is read back from its text, save that zero has lost its sign.
-/

namespace CellFormula

open Rounding

theorem floor_bounds (num : Nat) {den : Nat} (pos : 0 < den) :
    ((num / den : Nat) : ℚ) ≤ num / den ∧ (num : ℚ) / den < (num / den : Nat) + 1 := by
  have posQ : (0 : ℚ) < den := by exact_mod_cast pos
  constructor
  · rw [le_div_iff₀ posQ]
    exact_mod_cast Nat.div_mul_le_self num den
  · rw [div_lt_iff₀ posQ]
    exact_mod_cast Nat.lt_mul_of_div_lt (Nat.lt_succ_self (num / den)) pos

namespace Decimal

theorem length_toDigits_bounds {n : Nat} (pos : 0 < n) :
    (10 : ℚ) ^ (((Nat.toDigits 10 n).length : Int) - 1) ≤ n ∧
      (n : ℚ) < 10 ^ ((Nat.toDigits 10 n).length : Int) := by
  have some : 0 < (Nat.toDigits 10 n).length := Nat.length_toDigits_pos
  have high := (Nat.length_toDigits_le_iff (n := n) (by decide) some).mp (Nat.le_refl _)
  constructor
  · have place : ((Nat.toDigits 10 n).length : Int) - 1 =
        ((Nat.toDigits 10 n).length - 1 : Nat) := by omega
    rw [place, zpow_natCast]
    by_cases one : (Nat.toDigits 10 n).length = 1
    · rw [one]
      exact_mod_cast pos
    · have low : ¬ n < 10 ^ ((Nat.toDigits 10 n).length - 1) := by
        intro lt
        have := (Nat.length_toDigits_le_iff (by decide) (by omega)).mpr lt
        omega
      exact_mod_cast Nat.le_of_not_lt low
  · rw [zpow_natCast]
    exact_mod_cast high

theorem pointOf_bounds {num den : Nat} (numPos : 0 < num) (denPos : 0 < den) :
    (10 : ℚ) ^ (pointOf num den - 1) ≤ num / den ∧ (num : ℚ) / den < 10 ^ pointOf num den := by
  have numQ : (0 : ℚ) < num := by exact_mod_cast numPos
  have denQ : (0 : ℚ) < den := by exact_mod_cast denPos
  rw [pointOf]
  split
  · next whole =>
    obtain ⟨low, high⟩ := length_toDigits_bounds (Nat.div_pos whole denPos)
    obtain ⟨floorLow, floorHigh⟩ := floor_bounds num denPos
    refine ⟨low.trans floorLow, ?_⟩
    -- Below a power of ten the floor stays below it by one at least.
    have step : num / den + 1 ≤ 10 ^ (Nat.toDigits 10 (num / den)).length := by
      rw [zpow_natCast] at high
      have : num / den < 10 ^ (Nat.toDigits 10 (num / den)).length := by exact_mod_cast high
      omega
    calc (num : ℚ) / den < (num / den : Nat) + 1 := floorHigh
      _ ≤ 10 ^ ((Nat.toDigits 10 (num / den)).length : Int) := by
        rw [zpow_natCast]
        exact_mod_cast step
  · next small =>
    have inverse : 0 < (den - 1) / num := Nat.div_pos (by omega) numPos
    obtain ⟨low, high⟩ := length_toDigits_bounds inverse
    obtain ⟨floorLow, floorHigh⟩ := floor_bounds (den - 1) numPos
    generalize (Nat.toDigits 10 ((den - 1) / num)).length = length at low high
    have ten : (0 : ℚ) < 10 := by norm_num
    constructor
    · have ceiling : (den - 1) / num + 1 ≤ 10 ^ length := by
        rw [zpow_natCast] at high
        have : (den - 1) / num < 10 ^ length := by exact_mod_cast high
        omega
      have bound : den ≤ 10 ^ length * num := by
        have := Nat.lt_mul_of_div_lt (Nat.lt_of_succ_le ceiling) numPos
        omega
      have place : (1 : Int) - length - 1 = -length := by omega
      rw [place, zpow_neg, zpow_natCast, inv_le_iff_one_le_mul₀ (by positivity), div_mul_eq_mul_div,
        le_div_iff₀ denQ, one_mul, mul_comm]
      exact_mod_cast bound
    · have bound : (10 : ℚ) ^ ((length : Int) - 1) < den / num := by
        have below : ((den - 1 : Nat) : ℚ) < den := by exact_mod_cast Nat.sub_lt denPos Nat.one_pos
        calc (10 : ℚ) ^ ((length : Int) - 1) ≤ ((den - 1) / num : Nat) := low
          _ ≤ ((den - 1 : Nat) : ℚ) / num := floorLow
          _ < den / num := by gcongr
      have place : (1 : Int) - length = -(length - 1) := by omega
      rw [place, zpow_neg, lt_inv_comm₀ (div_pos numQ denQ) (by positivity), inv_div]
      exact bound

theorem tenfoldRatio_pos (num : Nat) {den : Nat} (pos : 0 < den) (e : Int) :
    0 < (tenfoldRatio num den e).2 :=
  Nat.mul_pos pos (Nat.pow_pos (by decide))

theorem tenfoldRatio_eq (num den : Nat) (e : Int) :
    ((tenfoldRatio num den e).1 : ℚ) / (tenfoldRatio num den e).2 = num / den / 10 ^ e := by
  rw [zpow_eq_div (by norm_num)]
  simp only [tenfoldRatio]
  push_cast
  field_simp

end Decimal

namespace Interval

theorem holds_iff {i : Interval} (pos : 0 < i.den) (c : Nat) (e : Int) : i.holds c e = true ↔
    if i.closed then (i.low : ℚ) / i.den ≤ c * 10 ^ e ∧ (c : ℚ) * 10 ^ e ≤ i.high / i.den
    else (i.low : ℚ) / i.den < c * 10 ^ e ∧ (c : ℚ) * 10 ^ e < i.high / i.den := by
  let one := 10 ^ (-e).toNat
  let num := c * i.den * 10 ^ e.toNat
  have posD : (0 : ℚ) < i.den := by exact_mod_cast pos
  have posOne : (0 : ℚ) < one := by positivity
  have common : (0 : ℚ) < i.den * one := mul_pos posD posOne
  have low : (i.low : ℚ) / i.den = (i.low * one : Nat) / (i.den * one) := by
    push_cast
    rw [mul_div_mul_right _ _ posOne.ne']
  have high : (i.high : ℚ) / i.den = (i.high * one : Nat) / (i.den * one) := by
    push_cast
    rw [mul_div_mul_right _ _ posOne.ne']
  have value : (c : ℚ) * 10 ^ e = num / (i.den * one) := by
    rw [zpow_eq_div (by norm_num)]
    simp only [num, one]
    push_cast
    field_simp
  rw [low, high, value, div_le_div_iff_of_pos_right common, div_le_div_iff_of_pos_right common,
    div_lt_div_iff_of_pos_right common, div_lt_div_iff_of_pos_right common, Nat.cast_le,
    Nat.cast_le, Nat.cast_lt, Nat.cast_lt]
  have ratio : Decimal.tenfoldRatio (c * i.den) 1 (-e) = (num, one) := by
    simp [Decimal.tenfoldRatio, num, one]
  rw [holds, ratio]
  cases i.closed <;> simp

/-- The grid point next below the value, of those with `count` digits. -/
def below (i : Interval) (count : Nat) : Nat :=
  let r := Decimal.tenfoldRatio i.value i.den (Decimal.pointOf i.value i.den - count)
  r.1 / r.2

theorem neighbour?_cases {tie : Tie} {i : Interval} {count : Nat} {d : Decimal}
    (h : i.neighbour? tie count = some d) :
    ∃ c, i.holds c (Decimal.pointOf i.value i.den - count) = true ∧
      d = .ofCoefficient c (Decimal.pointOf i.value i.den - count) ∧ c ≤ i.below count + 1 := by
  simp only [neighbour?] at h
  split at h
  · next lower upper =>
    cases h
    split
    · exact ⟨_, upper, rfl, Nat.le_refl _⟩
    · exact ⟨_, lower, rfl, Nat.le_succ _⟩
  · next lower _ =>
    cases h
    exact ⟨_, lower, rfl, Nat.le_succ _⟩
  · next _ upper =>
    cases h
    exact ⟨_, upper, rfl, Nat.le_refl _⟩
  · cases h

/-- A coefficient has no more digits than were asked for, or is a power of ten. -/
theorem below_lt {i : Interval} (value : 0 < i.value) (den : 0 < i.den) (count : Nat) :
    i.below count < 10 ^ count := by
  obtain ⟨-, high⟩ := Decimal.pointOf_bounds value den
  obtain ⟨floor, -⟩ := floor_bounds
    (Decimal.tenfoldRatio i.value i.den (Decimal.pointOf i.value i.den - count)).1
    (Decimal.tenfoldRatio_pos i.value den (Decimal.pointOf i.value i.den - count))
  have grid : (0 : ℚ) < 10 ^ (Decimal.pointOf i.value i.den - count : Int) := by positivity
  rw [Decimal.tenfoldRatio_eq, le_div_iff₀ grid] at floor
  have bound : (i.below count : ℚ) * 10 ^ (Decimal.pointOf i.value i.den - count : Int) <
      10 ^ count * 10 ^ (Decimal.pointOf i.value i.den - count : Int) := by
    refine lt_of_le_of_lt floor (lt_of_lt_of_eq high ?_)
    rw [← zpow_natCast, ← zpow_add₀ (by norm_num)]
    congr 1
    omega
  exact_mod_cast lt_of_mul_lt_mul_right bound grid.le

theorem neighbour?_ne_none {i : Interval} {count c : Nat} {e : Int} (tie : Tie)
    (he : Decimal.pointOf i.value i.den - count = e)
    (hc : (Decimal.tenfoldRatio i.value i.den e).1 / (Decimal.tenfoldRatio i.value i.den e).2 = c)
    (h : i.holds c e = true ∨ i.holds (c + 1) e = true) : i.neighbour? tie count ≠ none := by
  simp only [neighbour?, he, hc]
  rcases h with lower | upper
  · rw [lower]
    cases i.holds (c + 1) e <;> simp
  · rw [upper]
    cases i.holds c e <;> simp

end Interval

namespace Binary64

theorem interval_den_pos (x : Binary64) : 0 < x.interval.den := by
  have := Nat.two_pow_pos (-x.scale).toNat
  change 0 < 4 * 2 ^ (-x.scale).toNat
  omega

theorem interval_value (x : Binary64) : (x.interval.value : ℚ) / x.interval.den = x.magnitude := by
  rw [magnitude, zpow_eq_div (by norm_num)]
  simp only [interval, ratio]
  push_cast
  field_simp

theorem interval_high (x : Binary64) :
    (x.interval.high : ℚ) / x.interval.den = (x.significand + 1 / 2) * 2 ^ x.scale := by
  rw [zpow_eq_div (by norm_num)]
  simp only [interval, ratio]
  push_cast
  field_simp
  ring

theorem interval_low {x : Binary64} (nonzero : x.isZero = false) :
    (x.interval.low : ℚ) / x.interval.den = (x.significand - x.slack) * 2 ^ x.scale := by
  have pos := significand_pos nonzero
  have unit := Nat.two_pow_pos x.scale.toNat
  have product : 2 ^ x.scale.toNat ≤ x.significand * 2 ^ x.scale.toNat :=
    Nat.le_mul_of_pos_left _ pos
  rw [zpow_eq_div (by norm_num)]
  simp only [interval, ratio, slack]
  split
  · rw [Nat.cast_sub (by omega)]
    push_cast
    field_simp
  · rw [Nat.cast_sub (by omega)]
    push_cast
    field_simp
    ring

theorem near_of_interior {x : Binary64} {q : ℚ} (low : (x.significand - x.slack) * 2 ^ x.scale < q)
    (high : q < (x.significand + 1 / 2) * 2 ^ x.scale) : x.Near q :=
  ⟨low.le, high.le, fun _ => ⟨low, high⟩⟩

theorem interval_holds_iff {x : Binary64} (nonzero : x.isZero = false) (c : Nat) (e : Int) :
    x.interval.holds c e = true ↔ x.Near (c * 10 ^ e) := by
  rw [Interval.holds_iff x.interval_den_pos, interval_low nonzero, interval_high]
  have closed : x.interval.closed = (x.significand % 2 == 0) := rfl
  rw [closed]
  constructor
  · intro h
    by_cases even : x.significand % 2 = 0
    · rw [even] at h
      exact ⟨h.1, h.2, fun odd => by omega⟩
    · have other : (x.significand % 2 == 0) = false := by simp [even]
      rw [other] at h
      exact near_of_interior h.1 h.2
  · intro h
    split
    · exact ⟨h.low, h.high⟩
    · next odd =>
      have : x.significand % 2 ≠ 0 := by simpa using odd
      exact h.odd (by omega)

/-- The grid of seventeen digits is finer than the interval is wide. -/
theorem grid_lt {x : Binary64} {t : ℚ} (h : 10 ^ 16 * t ≤ x.significand) :
    t < x.slack + 1 / 2 := by
  by_cases power : x.fraction = 0 ∧ 1 < x.exponent.val
  · have significand : x.significand = 2 ^ 52 := by
      rw [significand_of_normal (by omega), power.1]
      rfl
    rw [slack, if_pos power]
    rw [significand] at h
    push_cast at h
    linarith
  · have bound : (x.significand : ℚ) < 2 ^ 53 := by exact_mod_cast x.significand_lt
    rw [slack, if_neg power]
    linarith

theorem interval_value_pos {x : Binary64} (nonzero : x.isZero = false) : 0 < x.interval.value := by
  have := Nat.mul_pos (significand_pos nonzero) (Nat.two_pow_pos x.scale.toNat)
  change 0 < 4 * (x.significand * 2 ^ x.scale.toNat)
  omega

theorem seventeen_digits {x : Binary64} (nonzero : x.isZero = false) (tie : Tie) :
    x.interval.neighbour? tie 17 ≠ none := by
  have valuePos := interval_value_pos nonzero
  obtain ⟨low, -⟩ := Decimal.pointOf_bounds valuePos x.interval_den_pos
  generalize hp : Decimal.pointOf x.interval.value x.interval.den = point at low
  generalize he : point - (17 : Nat) = e
  generalize hc : (Decimal.tenfoldRatio x.interval.value x.interval.den e).1 /
    (Decimal.tenfoldRatio x.interval.value x.interval.den e).2 = c
  have grid : (0 : ℚ) < 10 ^ e := by positivity
  have unit : (0 : ℚ) < 2 ^ x.scale := by positivity
  obtain ⟨floor, ceiling⟩ := floor_bounds (Decimal.tenfoldRatio x.interval.value x.interval.den e).1
    (Decimal.tenfoldRatio_pos x.interval.value x.interval_den_pos e)
  rw [hc, Decimal.tenfoldRatio_eq, interval_value] at floor ceiling
  rw [le_div_iff₀ grid] at floor
  rw [div_lt_iff₀ grid] at ceiling
  have narrow : (10 : ℚ) ^ e < (x.slack + 1 / 2) * 2 ^ x.scale := by
    rw [← div_lt_iff₀ unit]
    apply grid_lt
    have place : point - 1 = 16 + e := by omega
    rw [place, zpow_add₀ (by norm_num), interval_value, magnitude] at low
    rw [mul_div_assoc', div_le_iff₀ unit]
    exact_mod_cast low
  rw [magnitude] at floor ceiling
  apply Interval.neighbour?_ne_none tie (by rw [hp]; exact he) hc
  rw [interval_holds_iff nonzero, interval_holds_iff nonzero]
  by_cases close : (x.significand - x.slack) * 2 ^ x.scale < c * 10 ^ e
  · left
    exact near_of_interior close (by linarith)
  · right
    have slack : 0 ≤ x.slack * 2 ^ x.scale := by
      have : 0 ≤ x.slack := by
        rw [Binary64.slack]
        split <;> norm_num
      positivity
    push_cast
    exact near_of_interior (by linarith) (by linarith)

theorem shortest_spec {x : Binary64} (nonzero : x.isZero = false) (tie : Tie) :
    ∃ c e, x.shortest tie = .ofCoefficient c e ∧ c ≤ 10 ^ 17 ∧ x.Near (c * 10 ^ e) := by
  have found : ((List.range 17).map (· + 1)).findSome? (x.interval.neighbour? tie) ≠ none := by
    intro none
    exact seventeen_digits nonzero tie (List.findSome?_eq_none_iff.mp none 17 (by simp))
  obtain ⟨d, hd⟩ := Option.ne_none_iff_exists'.mp found
  obtain ⟨count, mem, hcount⟩ := List.exists_of_findSome?_eq_some hd
  obtain ⟨c, holds, rfl, neighbour⟩ := Interval.neighbour?_cases hcount
  have digits : count ≤ 17 := by
    obtain ⟨n, hn, rfl⟩ := List.mem_map.mp mem
    exact List.mem_range.mp hn
  have below := Interval.below_lt (interval_value_pos nonzero) x.interval_den_pos count
  have size : 10 ^ count ≤ 10 ^ 17 := Nat.pow_le_pow_right (by decide) digits
  exact ⟨c, _, by rw [shortest, hd]; rfl, by omega, (interval_holds_iff nonzero c _).mp holds⟩

theorem two_pow_lt_ten_pow : (2 : ℚ) ^ (1200 : Int) < 10 ^ (400 : Int) := by
  have power : (2 : ℚ) ^ 1200 < 10 ^ 400 := by
    calc (2 : ℚ) ^ 1200 = (2 ^ 3) ^ 400 := by rw [← pow_mul]
      _ < 10 ^ 400 := pow_lt_pow_left₀ (by norm_num) (by norm_num) (by norm_num)
  exact_mod_cast power

/-- What rounds to a number is far from where a numeral is decided by its size alone. -/
theorem Near.bounds {x : Binary64} {q : ℚ} (finite : x.isFinite = true) (nonzero : x.isZero = false)
    (h : x.Near q) : (10 : ℚ) ^ (-400 : Int) < q ∧ q < 10 ^ (400 : Int) := by
  have exponent := exponent_lt_of_isFinite finite
  have scale := x.scale_eq
  have slack := x.slack_le_half
  have one : (1 : ℚ) ≤ x.significand := by exact_mod_cast significand_pos nonzero
  have top : (x.significand : ℚ) + 1 ≤ 2 ^ 53 := by exact_mod_cast x.significand_lt
  have least : (2 : ℚ) ^ (-1074 : Int) ≤ 2 ^ x.scale :=
    zpow_le_zpow_right₀ (by norm_num) (by omega)
  have greatest : (2 : ℚ) ^ x.scale ≤ 2 ^ (971 : Int) :=
    zpow_le_zpow_right₀ (by norm_num) (by omega)
  have unit : (0 : ℚ) < 2 ^ x.scale := by positivity
  constructor
  · have half := two_zpow_eq (-1074)
    calc (10 : ℚ) ^ (-400 : Int) < 2 ^ (-1200 : Int) := by
          rw [zpow_neg, zpow_neg, inv_lt_inv₀ (by positivity) (by positivity)]
          exact two_pow_lt_ten_pow
      _ ≤ 2 ^ (-1074 - 1 : Int) := zpow_le_zpow_right₀ (by norm_num) (by norm_num)
      _ = 1 / 2 * 2 ^ (-1074 : Int) := by rw [half]; ring
      _ ≤ (x.significand - x.slack) * 2 ^ x.scale := by
        apply mul_le_mul (by linarith) least (by positivity) (by linarith)
      _ ≤ q := h.low
  · calc q ≤ (x.significand + 1 / 2) * 2 ^ x.scale := h.high
      _ ≤ 2 ^ 53 * 2 ^ (971 : Int) := mul_le_mul (by linarith) greatest unit.le (by norm_num)
      _ = 2 ^ (1024 : Int) := by
        rw [← zpow_natCast, ← zpow_add₀ (by norm_num)]
        rfl
      _ ≤ 2 ^ (1200 : Int) := zpow_le_zpow_right₀ (by norm_num) (by norm_num)
      _ < 10 ^ (400 : Int) := two_pow_lt_ten_pow

end Binary64

theorem Numeral.round_of_near {n : Numeral} {x : Binary64} (finite : x.isFinite = true)
    (nonzero : x.isZero = false) (sign : n.negative = x.negative) (h : x.Near n.magnitude) :
    n.round = x := by
  have ten : (1 : ℚ) < 10 := by norm_num
  have power : (0 : ℚ) < 10 ^ n.exponent := by positivity
  have coefficient : n.coefficient ≠ 0 := by
    intro zero
    have pos := h.pos nonzero
    rw [magnitude, zero] at pos
    simp at pos
  obtain ⟨small, large⟩ := h.bounds finite nonzero
  obtain ⟨low, high⟩ := Decimal.length_toDigits_bounds (Nat.pos_of_ne_zero coefficient)
  have below : (-400 : Int) < (Nat.toDigits 10 n.coefficient).length + n.exponent := by
    rw [← zpow_lt_zpow_iff_right₀ ten, zpow_add₀ (by norm_num)]
    calc (10 : ℚ) ^ (-400 : Int) < n.coefficient * 10 ^ n.exponent := small
      _ < _ := by gcongr
  have above : (Nat.toDigits 10 n.coefficient).length - 1 + n.exponent < (400 : Int) := by
    rw [← zpow_lt_zpow_iff_right₀ ten, zpow_add₀ (by norm_num)]
    calc (10 : ℚ) ^ (((Nat.toDigits 10 n.coefficient).length : Int) - 1) * 10 ^ n.exponent
        ≤ n.coefficient * 10 ^ n.exponent := by gcongr
      _ < _ := large
  have quotient : n.magnitude = (n.coefficient * 10 ^ n.exponent.toNat : Nat) /
      (10 ^ (-n.exponent).toNat : Nat) := by
    rw [magnitude, zpow_eq_div (by norm_num)]
    push_cast
    rw [mul_div_assoc']
  rw [round, if_neg (by omega), if_neg (by omega), sign]
  apply Binary64.ofRatio_of_near finite nonzero (Nat.pow_pos (by decide))
  rw [← quotient]
  exact h

namespace Binary64

theorem toText_of_isZero {x : Binary64} (zero : x.isZero = true) : x.toText = ['0'] := by
  obtain ⟨exponent, fraction⟩ : x.exponent = 0 ∧ x.fraction = 0 := by simpa [isZero] using zero
  have finite : x.isFinite = true := by simp [isFinite, exponent]
  have number := isNaN_of_isFinite finite
  simp [toText, Layout.write, number, finite, zero, Layout.formula]

theorem toText_of_not_isZero {x : Binary64} (finite : x.isFinite = true)
    (nonzero : x.isZero = false) : x.toText =
      (if x.negative then ['-'] else []) ++ Layout.formula.plain (x.shortest .upward) := by
  have number := isNaN_of_isFinite finite
  simp [toText, Layout.write, number, finite, nonzero, Layout.formula]

theorem wellFormed_shortest {x : Binary64} (nonzero : x.isZero = false) (tie : Tie) :
    (x.shortest tie).WellFormed ∧ x.Near (x.shortest tie).value := by
  obtain ⟨c, e, hd, -, near⟩ := shortest_spec nonzero tie
  have pos : 0 < c := by
    apply Nat.pos_of_ne_zero
    rintro rfl
    have := near.pos nonzero
    simp at this
  rw [hd, Decimal.value_ofCoefficient]
  exact ⟨Decimal.wellFormed_ofCoefficient pos e, near⟩

/-- A number is written as digits with perhaps a point among them, behind a minus or nothing. -/
theorem toText_shape {x : Binary64} (finite : x.isFinite = true) :
    ∃ sign c rest, x.toText = sign ++ c :: rest ∧ (sign = [] ∨ sign = ['-']) ∧
      c.isDigit = true ∧ ∀ b ∈ rest, b.isDigit = true ∨ b = '.' := by
  by_cases zero : x.isZero = true
  · exact ⟨[], '0', [], toText_of_isZero zero, .inl rfl, rfl, by simp⟩
  · have nonzero : x.isZero = false := by simpa using zero
    obtain ⟨c, rest, plain, digit, others⟩ :=
      Decimal.plain_shape (wellFormed_shortest nonzero .upward).1
    refine ⟨if x.negative then ['-'] else [], c, rest, ?_, ?_, digit, others⟩
    · rw [toText_of_not_isZero finite nonzero, plain]
    · cases x.negative <;> simp

theorem toText_ne_nil {x : Binary64} (finite : x.isFinite = true) : x.toText ≠ [] := by
  obtain ⟨sign, c, rest, text, -⟩ := toText_shape finite
  simp [text]

theorem not_mem_toText {x : Binary64} (finite : x.isFinite = true) {d : Char}
    (digit : d.isDigit = false) (point : d ≠ '.') (minus : d ≠ '-') : d ∉ x.toText := by
  obtain ⟨sign, c, rest, text, signs, first, others⟩ := toText_shape finite
  intro mem
  rw [text] at mem
  rcases List.mem_append.mp mem with mem | mem
  · rcases signs with rfl | rfl
    · cases mem
    · exact minus (List.mem_singleton.mp mem)
  · have part : d.isDigit = true ∨ d = '.' := by
      rcases List.mem_cons.mp mem with rfl | mem
      · exact .inl first
      · exact others d mem
    rcases part with yes | yes
    · rw [digit] at yes
      cases yes
    · exact point yes

end Binary64

theorem Numeral.signed_of_isDigit {c : Char} (digit : c.isDigit = true) (rest : List Char) :
    signed (c :: rest) = (false, c :: rest) := by
  unfold signed
  split
  · next h =>
    cases h
    cases digit
  · next h =>
    cases h
    cases digit
  · rfl

/-- A finite number is read back from its text; zero comes back without its sign. -/
theorem Binary64.ofText?_toText {x : Binary64} (finite : x.isFinite = true) :
    ofText? x.toText = some (if x.isZero then zero false else x) := by
  by_cases hz : x.isZero = true
  · rw [toText_of_isZero hz, if_pos hz]
    rfl
  · have nonzero : x.isZero = false := by simpa using hz
    obtain ⟨wellFormed, near⟩ := wellFormed_shortest nonzero .upward
    obtain ⟨c, rest, plain, digit, -⟩ := Decimal.plain_shape wellFormed
    have sign : Numeral.signed x.toText =
        (x.negative, Layout.formula.plain (x.shortest .upward)) := by
      rw [toText_of_not_isZero finite nonzero]
      cases x.negative with
      | true => rfl
      | false =>
        rw [plain]
        exact Numeral.signed_of_isDigit digit rest
    obtain ⟨n, hn, negative, magnitude⟩ := Decimal.unsigned?_plain wellFormed x.negative
    have read : Numeral.ofText? x.toText = some n := by
      rw [Numeral.ofText?, sign]
      exact hn
    rw [ofText?, read, if_neg hz]
    exact congrArg some (Numeral.round_of_near finite nonzero negative (magnitude ▸ near))

end CellFormula
