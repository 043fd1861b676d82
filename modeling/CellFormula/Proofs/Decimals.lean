import CellFormula.Number.Layout
import CellFormula.Number.Numeral
import Mathlib.Algebra.Order.Field.Power
import Mathlib.Data.List.TakeWhile
import Mathlib.Tactic.Ring

/-!
# Decimals and the numerals that write them

The digits of a number set positionally read as a numeral of the same value, wherever the point
falls among them. Values are rationals here, the sign apart.
-/

namespace CellFormula

namespace Numeral

/-- The value of a numeral without its sign. -/
def magnitude (n : Numeral) : ℚ :=
  n.coefficient * 10 ^ n.exponent

theorem digitsValue_append (xs ys : List Char) :
    digitsValue (xs ++ ys) = 10 ^ ys.length * digitsValue xs + digitsValue ys := by
  have split : digitsValue (xs ++ ys) = Nat.ofDigitChars 10 ys (digitsValue xs) :=
    Nat.ofDigitChars_append 0
  rw [split, Nat.ofDigitChars_eq_ofDigitChars_zero]
  rfl

theorem digitsValue_toDigits (n : Nat) : digitsValue (Nat.toDigits 10 n) = n :=
  Nat.ofDigitChars_ten_toDigits

theorem digitsValue_replicate_zero (k : Nat) : digitsValue (List.replicate k '0') = 0 :=
  Nat.ofDigitChars_replicate_zero

theorem unsigned?_of_digits (negative : Bool) {ds : List Char} (digits : ds.all Char.isDigit = true)
    (ne : ds ≠ []) : unsigned? negative ds = some ⟨negative, digitsValue ds, 0⟩ := by
  have all := List.all_eq_true.mp digits
  have whole : ds.takeWhile Char.isDigit = ds := List.takeWhile_eq_self_iff.mpr all
  have rest : ds.dropWhile Char.isDigit = [] := List.dropWhile_eq_nil_iff.mpr all
  simp [unsigned?, whole, rest, ne, exponent?]

theorem unsigned?_of_point (negative : Bool) {whole fraction : List Char}
    (wholeDigits : whole.all Char.isDigit = true)
    (fractionDigits : fraction.all Char.isDigit = true) (ne : whole ≠ []) :
    unsigned? negative (whole ++ '.' :: fraction) =
      some ⟨negative, digitsValue (whole ++ fraction), -fraction.length⟩ := by
  have allWhole := List.all_eq_true.mp wholeDigits
  have allFraction := List.all_eq_true.mp fractionDigits
  have front : (whole ++ '.' :: fraction).takeWhile Char.isDigit = whole := by
    rw [List.takeWhile_append_of_pos allWhole]
    simp
  have back : (whole ++ '.' :: fraction).dropWhile Char.isDigit = '.' :: fraction := by
    rw [List.dropWhile_append_of_pos allWhole]
    simp
  have digits : fraction.takeWhile Char.isDigit = fraction :=
    List.takeWhile_eq_self_iff.mpr allFraction
  have tail : fraction.dropWhile Char.isDigit = [] := List.dropWhile_eq_nil_iff.mpr allFraction
  simp [unsigned?, front, back, digits, tail, ne, exponent?]

end Numeral

namespace Decimal

open Numeral

def value (d : Decimal) : ℚ :=
  digitsValue d.digits * 10 ^ (d.point - d.digits.length)

/-- There are digits, and nothing else. -/
structure WellFormed (d : Decimal) : Prop where
  digits : d.digits.all Char.isDigit = true
  ne_nil : d.digits ≠ []

theorem all_isDigit_toDigits (n : Nat) : (Nat.toDigits 10 n).all Char.isDigit = true :=
  List.all_eq_true.mpr fun _ h => Nat.isDigit_of_mem_toDigits (by decide) (by decide) h

/-- The zeros at the end that are left out. -/
theorem toDigits_eq_append (c : Nat) (e : Int) :
    ∃ k, Nat.toDigits 10 c = (ofCoefficient c e).digits ++ List.replicate k '0' := by
  let reversed := (Nat.toDigits 10 c).reverse
  refine ⟨(reversed.takeWhile (· == '0')).length, ?_⟩
  have zeros : reversed.takeWhile (· == '0') =
      List.replicate (reversed.takeWhile (· == '0')).length '0' := by
    apply List.eq_replicate_of_mem
    intro d hd
    simpa using List.all_eq_true.mp List.all_takeWhile d hd
  calc Nat.toDigits 10 c = reversed.reverse := (List.reverse_reverse _).symm
    _ = (reversed.takeWhile (· == '0') ++ reversed.dropWhile (· == '0')).reverse := by
      rw [List.takeWhile_append_dropWhile]
    _ = _ := by rw [List.reverse_append, zeros, List.reverse_replicate, List.length_replicate]; rfl

theorem value_ofCoefficient (c : Nat) (e : Int) : (ofCoefficient c e).value = c * 10 ^ e := by
  obtain ⟨k, hk⟩ := toDigits_eq_append c e
  have coefficient : c = 10 ^ k * digitsValue (ofCoefficient c e).digits := by
    have total := digitsValue_append (ofCoefficient c e).digits (List.replicate k '0')
    rw [← hk, digitsValue_toDigits, digitsValue_replicate_zero, List.length_replicate] at total
    exact total
  have point : (ofCoefficient c e).point - (ofCoefficient c e).digits.length = k + e := by
    have count := congrArg List.length hk
    rw [List.length_append, List.length_replicate] at count
    have : (ofCoefficient c e).point = (Nat.toDigits 10 c).length + e := rfl
    omega
  rw [value, point, zpow_add₀ (by norm_num), zpow_natCast]
  conv => rhs; rw [coefficient]
  push_cast
  ring

theorem wellFormed_ofCoefficient {c : Nat} (pos : 0 < c) (e : Int) :
    (ofCoefficient c e).WellFormed := by
  obtain ⟨k, hk⟩ := toDigits_eq_append c e
  constructor
  · have all := all_isDigit_toDigits c
    rw [hk, List.all_append, Bool.and_eq_true] at all
    exact all.1
  · intro none
    have total := digitsValue_toDigits c
    rw [hk, none, List.nil_append, digitsValue_replicate_zero] at total
    omega

theorem isDigit_of_mem_replicate {k : Nat} {d : Char} (h : d ∈ List.replicate k '0') :
    d.isDigit = true := by
  rw [List.eq_of_mem_replicate h]
  rfl

theorem digitsValue_replicate_append (k : Nat) (ds : List Char) :
    digitsValue (List.replicate k '0' ++ ds) = digitsValue ds := by
  rw [digitsValue_append, digitsValue_replicate_zero, Nat.mul_zero, Nat.zero_add]

/-- Where the digits of a decimal stand: behind the point, before it, or on both sides. -/
inductive PlainForm (layout : Layout) (d : Decimal) : List Char → Prop
  | small (k : Nat) (point : d.point = -k) :
    PlainForm layout d (['0'] ++ '.' :: (List.replicate k '0' ++ d.digits))
  | whole (k : Nat) (point : d.point = d.digits.length + k) :
    PlainForm layout d (d.digits ++ List.replicate k '0' ++ layout.wholeMark.toList)
  | mixed {ws ds : List Char} (digits : d.digits = ws ++ ds) (before : ws ≠ []) (behind : ds ≠ [])
      (point : d.point = ws.length) : PlainForm layout d (ws ++ '.' :: ds)

theorem plainForm (layout : Layout) {d : Decimal} (h : d.WellFormed) :
    PlainForm layout d (layout.plain d) := by
  rw [Layout.plain]
  split
  · next low =>
    rw [List.append_assoc]
    exact .small (-d.point).toNat (by omega)
  · next positive =>
    dsimp only
    split
    · next long => exact .whole (d.point.toNat - d.digits.length) (by omega)
    · next short =>
      refine .mixed (List.take_append_drop _ _).symm ?_ ?_ ?_
      · intro none
        rcases List.take_eq_nil_iff.mp none with zero | none
        · omega
        · exact h.ne_nil none
      · intro none
        exact short (List.drop_eq_nil_iff.mp none)
      · rw [List.length_take]
        omega

/-- The exponent behind the digits of a decimal, of which one stands before the point. -/
def exponentText (d : Decimal) : List Char :=
  'e' :: (if d.point - 1 < 0 then '-' else '+') :: Nat.toDigits 10 (d.point - 1).natAbs

/-- A decimal with an exponent has a point if it has more than one digit. -/
inductive ScientificForm (d : Decimal) : List Char → Prop
  | whole {c : Char} (digits : d.digits = [c]) : ScientificForm d ([c] ++ exponentText d)
  | fraction {c : Char} {ds : List Char} (digits : d.digits = c :: ds) (more : ds ≠ []) :
    ScientificForm d ([c] ++ '.' :: (ds ++ exponentText d))

theorem scientificForm {d : Decimal} (h : d.WellFormed) :
    ScientificForm d (Layout.scientific d) := by
  obtain ⟨c, ds, digits⟩ := List.exists_cons_of_ne_nil h.ne_nil
  cases ds with
  | nil =>
    have text : Layout.scientific d = [c] ++ exponentText d := by
      simp [Layout.scientific, exponentText, digits]
    exact text ▸ .whole digits
  | cons b ds =>
    have text : Layout.scientific d = [c] ++ '.' :: ((b :: ds) ++ exponentText d) := by
      simp [Layout.scientific, exponentText, digits]
    exact text ▸ .fraction digits (List.cons_ne_nil b ds)

/-- The positional text of a decimal: digits, at least one of them first, and perhaps a point. -/
theorem plain_shape {d : Decimal} (h : d.WellFormed) :
    ∃ c rest, Layout.formula.plain d = c :: rest ∧ c.isDigit = true ∧
      ∀ b ∈ rest, b.isDigit = true ∨ b = '.' := by
  have all := List.all_eq_true.mp h.digits
  have form := plainForm Layout.formula h
  generalize Layout.formula.plain d = text at form
  cases form with
  | small k =>
    refine ⟨'0', '.' :: (List.replicate k '0' ++ d.digits), rfl, rfl, fun b hb => ?_⟩
    rcases List.mem_cons.mp hb with rfl | hb
    · exact .inr rfl
    · exact .inl ((List.mem_append.mp hb).elim isDigit_of_mem_replicate (all b))
  | whole k =>
    obtain ⟨c, rest, hd⟩ := List.exists_cons_of_ne_nil h.ne_nil
    rw [hd] at all
    refine ⟨c, rest ++ List.replicate k '0', by simp [hd, Layout.formula],
      all c List.mem_cons_self, fun b hb => ?_⟩
    exact .inl ((List.mem_append.mp hb).elim (fun hb => all b (List.mem_cons_of_mem c hb))
      isDigit_of_mem_replicate)
  | @mixed ws ds digits before =>
    obtain ⟨c, rest, rfl⟩ := List.exists_cons_of_ne_nil before
    rw [digits] at all
    refine ⟨c, rest ++ '.' :: ds, rfl, all c List.mem_cons_self, fun b hb => ?_⟩
    rcases List.mem_append.mp hb with hb | hb
    · exact .inl (all b (List.mem_append_left ds (List.mem_cons_of_mem c hb)))
    · rcases List.mem_cons.mp hb with rfl | hb
      · exact .inr rfl
      · exact .inl (all b (List.mem_append_right _ hb))

/-- The positional text of a decimal is a numeral of its value. -/
theorem unsigned?_plain {d : Decimal} (h : d.WellFormed) (negative : Bool) :
    ∃ n, unsigned? negative (Layout.formula.plain d) = some n ∧ n.negative = negative ∧
      n.magnitude = d.value := by
  have zeros : ∀ k, (List.replicate k '0').all Char.isDigit = true := fun _ =>
    List.all_eq_true.mpr fun _ => isDigit_of_mem_replicate
  have form := plainForm Layout.formula h
  generalize Layout.formula.plain d = text at form
  cases form with
  | small k point =>
    have fraction : (List.replicate k '0' ++ d.digits).all Char.isDigit = true := by
      rw [List.all_append, zeros, h.digits]
      rfl
    refine ⟨_, unsigned?_of_point negative rfl fraction (List.cons_ne_nil _ _), rfl, ?_⟩
    have total : digitsValue (['0'] ++ (List.replicate k '0' ++ d.digits)) =
        digitsValue d.digits :=
      digitsValue_replicate_append (k + 1) d.digits
    have place : (-((List.replicate k '0' ++ d.digits).length : Int)) =
        d.point - d.digits.length := by
      rw [List.length_append, List.length_replicate]
      omega
    rw [magnitude, value, total, place]
  | whole k point =>
    have all : (d.digits ++ List.replicate k '0').all Char.isDigit = true := by
      rw [List.all_append, zeros, h.digits]
      rfl
    have text : d.digits ++ List.replicate k '0' ++ Layout.formula.wholeMark.toList =
        d.digits ++ List.replicate k '0' := by
      simp [Layout.formula]
    rw [text]
    refine ⟨_, unsigned?_of_digits negative all (by simp [h.ne_nil]), rfl, ?_⟩
    have place : d.point - d.digits.length = (k : Int) := by omega
    rw [magnitude, value, digitsValue_append, digitsValue_replicate_zero, List.length_replicate,
      place, zpow_natCast]
    push_cast
    ring
  | @mixed ws ds digits before behind point =>
    have all := h.digits
    rw [digits, List.all_append, Bool.and_eq_true] at all
    refine ⟨_, unsigned?_of_point negative all.1 all.2 before, rfl, ?_⟩
    have place : -(ds.length : Int) = d.point - d.digits.length := by
      rw [digits, List.length_append]
      omega
    rw [magnitude, value, digits, ← digits, place]

end Decimal

end CellFormula
