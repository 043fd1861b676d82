import CellFormula.Proofs.Documents
import CellFormula.Proofs.Overflow
import Mathlib.Data.List.Induction

/-!
# The text of a number is a number

The reader refuses numbers that are too large, and rounds on the way to finding out. No number that
is written is refused: only those with a positive exponent can be, and they stay below the greatest
number with all roundings, but for three numbers, which are read.
-/

namespace CellFormula

namespace Decimal

/-- The coefficient of a decimal without its trailing zeros. -/
theorem digitsValue_ofCoefficient_le (c : Nat) (e : Int) :
    Numeral.digitsValue (ofCoefficient c e).digits ≤ c := by
  obtain ⟨k, hk⟩ := toDigits_eq_append c e
  have total := Numeral.digitsValue_append (ofCoefficient c e).digits (List.replicate k '0')
  rw [← hk, Numeral.digitsValue_toDigits, Numeral.digitsValue_replicate_zero] at total
  have scaled : Numeral.digitsValue (ofCoefficient c e).digits ≤
      10 ^ (List.replicate k '0').length * Numeral.digitsValue (ofCoefficient c e).digits :=
    Nat.le_mul_of_pos_left _ (Nat.pow_pos (by decide))
  omega

theorem head_ofCoefficient {c : Nat} (pos : 0 < c) (e : Int) :
    (ofCoefficient c e).digits.head? ≠ some '0' := by
  obtain ⟨k, hk⟩ := toDigits_eq_append c e
  intro zero
  cases digits : (ofCoefficient c e).digits with
  | nil => simp [digits] at zero
  | cons d ds =>
    rw [digits] at zero hk
    obtain rfl : d = '0' := by simpa using zero
    rw [List.cons_append] at hk
    have alone := Json.toDigits_zero_head hk
    have value := Numeral.digitsValue_toDigits c
    rw [hk, alone] at value
    exact absurd value.symm (Nat.ne_of_gt pos)

theorem point_ofCoefficient_bounds {c : Nat} (pos : 0 < c) (e : Int) :
    (10 : ℚ) ^ ((ofCoefficient c e).point - 1) ≤ c * 10 ^ e ∧
      (c : ℚ) * 10 ^ e < 10 ^ (ofCoefficient c e).point := by
  obtain ⟨low, high⟩ := length_toDigits_bounds pos
  have point : (ofCoefficient c e).point = (Nat.toDigits 10 c).length + e := rfl
  have first : ((Nat.toDigits 10 c).length + e - 1 : Int) = (Nat.toDigits 10 c).length - 1 + e := by
    omega
  rw [point, first, zpow_add₀ (by norm_num), zpow_add₀ (by norm_num)]
  constructor <;> gcongr

end Decimal

namespace Binary64

/-- What the reader needs to know of the digits written for a number. -/
structure Written (x : Binary64) (d : Decimal) : Prop where
  wellFormed : d.WellFormed
  head : d.digits.head? ≠ some '0'
  small : Numeral.digitsValue d.digits < 2 ^ 64
  near : x.Near d.value
  low : (10 : ℚ) ^ (d.point - 1) ≤ d.value
  high : d.value < 10 ^ d.point

theorem written_shortest {x : Binary64} (nonzero : x.isZero = false) (tie : Tie) :
    x.Written (x.shortest tie) := by
  obtain ⟨c, e, hd, size, near⟩ := shortest_spec nonzero tie
  have pos : 0 < c := by
    apply Nat.pos_of_ne_zero
    rintro rfl
    have := near.pos nonzero
    simp at this
  obtain ⟨low, high⟩ := Decimal.point_ofCoefficient_bounds pos e
  have coefficient := Decimal.digitsValue_ofCoefficient_le c e
  rw [hd]
  rw [← Decimal.value_ofCoefficient] at near low high
  exact ⟨Decimal.wellFormed_ofCoefficient pos e, Decimal.head_ofCoefficient pos e, by omega, near,
    low, high⟩

end Binary64

namespace Json

variable {ε : Type}

/-- A significand of 64 bits is not too large, nor is anything below it. -/
theorem exists_scaled_of_nonpos (negative : Bool) {c : Nat} (small : c < 2 ^ 64) {e : Int}
    (h : e ≤ 0) : ∃ n, (scaled negative c e : Except (ReadError ε) _) = .ok n := by
  unfold scaled
  dsimp only
  by_cases below : e < 0
  · rw [if_pos below]
    exact ⟨_, rfl⟩
  · obtain rfl : e = 0 := by omega
    have finite : ((Binary64.ofNat c).timesPowerOfTen (0 : Int).natAbs).isFinite = true := by
      by_cases zero : c = 0
      · rw [zero]
        decide
      · apply Binary64.isFinite_timesPowerOfTen (Nat.pos_of_ne_zero zero) (Nat.le_of_lt small)
        have bound : (c : ℚ) ≤ 2 ^ 64 := by exact_mod_cast Nat.le_of_lt small
        have unit : (2 : ℚ) ^ (12 : Int) ≤ 2 ^ (971 : Int) :=
          zpow_le_zpow_right₀ (by norm_num) (by norm_num)
        calc (c : ℚ) * 10 ^ (0 : Int).natAbs = c := by norm_num
          _ ≤ 2 ^ 52 * 2 ^ (12 : Int) := le_trans bound (by norm_num)
          _ ≤ (2 ^ 53 - 7 / 2) * 2 ^ (971 : Int) :=
            mul_le_mul (by norm_num) unit (by positivity) (by norm_num)
    rw [if_neg below, if_pos (by decide), if_pos finite]
    exact ⟨_, rfl⟩

theorem exists_readFraction (negative : Bool) {n : Nat} (small : n < 2 ^ 64) {ds : List Char}
    (digits : IsDigits ds) :
    ∃ m, (readFraction negative n 0 ds : Except (ReadError ε) _) = .ok (m, []) := by
  obtain ⟨v, count, left, hleft, reads⟩ := takeDigits_append (2 ^ 64) n 0 digits.2
  have taken := reads [] rfl
  rw [List.append_nil, List.append_nil] at taken
  have below : v < 2 ^ 64 := by
    have := takeDigits_lt small 0 ds
    rw [taken] at this
    exact this
  obtain ⟨m, scale⟩ := exists_scaled_of_nonpos (ε := ε) negative below (e := 0 - count) (by omega)
  have starts : startsWithDigit ds = true := by simpa using digits.starts []
  have none : left.dropWhile Char.isDigit = [] := by
    simpa using dropWhile_append_digits hleft (show startsWithDigit [] = false from rfl)
  have ne : ds.isEmpty = false := by
    cases ds with
    | nil => exact absurd rfl digits.1
    | cons d ds => rfl
  refine ⟨m, ?_⟩
  simp only [readFraction, ne, starts, taken, none, Bool.not_true, Bool.false_eq_true, if_false]
  rw [readScale_of_ends negative v _ (show EndsNumber [] from trivial), scale]
  rfl

/-- Digits in front of a point and after it make a number, however many come after it. -/
theorem exists_readUnsigned_point (negative : Bool) {ws ds : List Char} (whole : IsDigits ws)
    (head : ws.head? ≠ some '0' ∨ ws = ['0']) (small : Nat.ofDigitChars 10 ws 0 < 2 ^ 64)
    (fraction : IsDigits ds) :
    ∃ m, (readUnsigned negative (ws ++ '.' :: ds) : Except (ReadError ε) _) = .ok (m, []) := by
  rw [readUnsigned_of_small negative whole head small rfl]
  exact exists_readFraction negative small fraction

theorem ofDigitChars_lt {ds : List Char} (digits : ∀ d ∈ ds, d.isDigit = true) :
    Nat.ofDigitChars 10 ds 0 < 10 ^ ds.length := by
  induction ds using List.reverseRecOn with
  | nil => exact Nat.one_pos
  | append_singleton ds d ih =>
    have last : d.toNat - '0'.toNat < 10 := by
      have digit := digits d (by simp)
      simp only [Char.isDigit, Bool.and_eq_true, decide_eq_true_eq] at digit
      have : d.toNat ≤ 57 := digit.2
      have : '0'.toNat = 48 := rfl
      omega
    have init := ih fun a ha => digits a (List.mem_append_left _ ha)
    rw [Nat.ofDigitChars_append, List.length_append, List.length_singleton, Nat.pow_succ]
    simp only [Nat.ofDigitChars_cons, Nat.ofDigitChars_nil]
    omega

theorem exists_readUnsigned_plain (negative : Bool) {d : Decimal} (wellFormed : d.WellFormed)
    (head : d.digits.head? ≠ some '0') (point : d.point ≤ 16) :
    ∃ m, (readUnsigned negative (Layout.document.plain d) : Except (ReadError ε) _) =
      .ok (m, []) := by
  obtain ⟨ws, ds, text, parts⟩ := positional_plain wellFormed
  have length := parts.length
  have small : Nat.ofDigitChars 10 ws 0 < 2 ^ 64 := by
    have size : 10 ^ ws.length ≤ 10 ^ 16 := Nat.pow_le_pow_right (by decide) (by omega)
    have value := ofDigitChars_lt parts.whole.2
    omega
  rw [text]
  exact exists_readUnsigned_point negative parts.whole (parts.head head) small parts.fraction

/-- An exponent as it is written moves the point by as much. -/
theorem readExponent_toDigits (negative : Bool) (c : Nat) (e p : Int) (size : p.natAbs < 2 ^ 31) :
    (readExponent negative c e ((if p < 0 then '-' else '+') :: Nat.toDigits 10 p.natAbs) :
      Except (ReadError ε) _) = (scaled negative c (e + p)).map (·, []) := by
  have digits := isDigits_toDigits p.natAbs
  have value : Nat.ofDigitChars 10 (Nat.toDigits 10 p.natAbs) 0 = p.natAbs :=
    Nat.ofDigitChars_ten_toDigits
  have taken := takeDigits_all digits.2 (value.symm ▸ size) 0
  have starts : startsWithDigit (Nat.toDigits 10 p.natAbs) = true := by
    simpa using digits.starts []
  have ne : (Nat.toDigits 10 p.natAbs).isEmpty = false := by
    simp
  have stop : startsWithDigit [] = false := rfl
  rw [value] at taken
  by_cases down : p < 0
  · have place : e - (p.natAbs : Int) = e + p := by omega
    simp only [readExponent, if_pos down, Numeral.signed, ne, starts, taken, stop,
      Bool.not_true, Bool.false_eq_true, if_false, if_true, place]
  · have place : e + (p.natAbs : Int) = e + p := by omega
    simp only [readExponent, if_neg down, Numeral.signed, ne, starts, taken, stop,
      Bool.not_true, Bool.false_eq_true, if_false, place]

theorem readFraction_of_small (negative : Bool) {n : Nat} {ds : List Char} (digits : IsDigits ds)
    (small : Nat.ofDigitChars 10 ds n < 2 ^ 64) {rest : List Char}
    (stop : startsWithDigit rest = false) :
    (readFraction negative n 0 (ds ++ rest) : Except (ReadError ε) _) =
      readScale negative (Nat.ofDigitChars 10 ds n) (-ds.length) rest := by
  have taken := takeDigits_all_append digits.2 small 0 stop
  have ne : (ds ++ rest).isEmpty = false := by
    simp [digits.1]
  simp only [readFraction, ne, digits.starts, taken, dropWhile_of_stop stop, Bool.not_true,
    Bool.false_eq_true, if_false, Nat.zero_add, zero_sub]

/-- The digits of a number with an exponent are its significand, and the power is what is left of
the exponent behind them. -/
theorem readUnsigned_scientific (negative : Bool) {d : Decimal} (wellFormed : d.WellFormed)
    (head : d.digits.head? ≠ some '0') (small : Numeral.digitsValue d.digits < 2 ^ 64)
    (size : (d.point - 1).natAbs < 2 ^ 31) :
    (readUnsigned negative (Layout.scientific d) : Except (ReadError ε) _) =
      (scaled negative (Numeral.digitsValue d.digits) (d.point - d.digits.length)).map
        (·, []) := by
  have all := List.all_eq_true.mp wellFormed.digits
  have form := Decimal.scientificForm wellFormed
  generalize Layout.scientific d = text at form
  cases form with
  | @whole c digits =>
    rw [digits] at all head small ⊢
    have lead : IsDigits [c] := ⟨List.cons_ne_nil _ _, all⟩
    have place : (0 : Nat) + (d.point - 1) = d.point - [c].length := by
      rw [List.length_singleton]
      omega
    rw [Decimal.exponentText, readUnsigned_of_small negative lead (.inl head) small rfl,
      afterDigits, readExponent_toDigits negative _ _ _ size, place]
    rfl
  | @fraction c ds digits more =>
    rw [digits, List.forall_mem_cons] at all
    rw [digits] at head small ⊢
    have lead : IsDigits [c] := ⟨List.cons_ne_nil _ _, List.forall_mem_singleton.mpr all.1⟩
    have whole : Nat.ofDigitChars 10 [c] 0 < 2 ^ 64 :=
      Nat.lt_of_le_of_lt (le_ofDigitChars ds _) small
    have total : Nat.ofDigitChars 10 ds (Nat.ofDigitChars 10 [c] 0) < 2 ^ 64 := small
    have stop (cs : List Char) : startsWithDigit ('e' :: cs) = false := rfl
    have place : -(ds.length : Int) + (d.point - 1) = d.point - (c :: ds).length := by
      rw [List.length_cons]
      omega
    rw [Decimal.exponentText, readUnsigned_of_small negative lead (.inl head) whole rfl,
      afterDigits, Nat.cast_zero, readFraction_of_small negative ⟨more, all.2⟩ total (stop _),
      readScale, readExponent_toDigits negative _ _ _ size, place]
    rfl

theorem greatest_lt_ten_pow : ((2 : ℚ) ^ 53 - 7 / 2) * 2 ^ (971 : Int) < 10 ^ (309 : Int) := by
  have power : (2 : ℚ) ^ (1024 : Int) < 10 ^ (309 : Int) := by
    have : 2 ^ 1024 < 10 ^ 309 := by decide +kernel
    exact_mod_cast this
  calc ((2 : ℚ) ^ 53 - 7 / 2) * 2 ^ (971 : Int) ≤ 2 ^ (53 : Int) * 2 ^ (971 : Int) := by
        gcongr
        norm_num
    _ = 2 ^ (1024 : Int) := by
        rw [← zpow_add₀ (by norm_num)]
        rfl
    _ < 10 ^ (309 : Int) := power

/-- Below the last three numbers the digits times their power stay finite as they are rounded. -/
theorem exists_scaled_of_written (negative : Bool) {x : Binary64} {d : Decimal}
    (written : x.Written d) (finite : x.isFinite = true)
    (below : x.exponent.val = 2046 → x.fraction.val < 2 ^ 52 - 3) :
    ∃ n, (scaled negative (Numeral.digitsValue d.digits) (d.point - d.digits.length) :
      Except (ReadError ε) _) = .ok n := by
  rcases le_or_gt (d.point - d.digits.length) 0 with down | up
  · exact exists_scaled_of_nonpos negative written.small down
  obtain ⟨k, hk⟩ := Int.eq_ofNat_of_zero_le (le_of_lt up)
  have bound := written.near.le_of_not_greatest finite below
  have value : d.value = Numeral.digitsValue d.digits * 10 ^ k := by
    rw [Decimal.value, hk, zpow_natCast]
  have pos : 0 < Numeral.digitsValue d.digits := by
    have lead : (0 : ℚ) < d.value := lt_of_lt_of_le (by positivity) written.low
    apply Nat.pos_of_ne_zero
    intro zero
    rw [value, zero, Nat.cast_zero, zero_mul] at lead
    exact lt_irrefl _ lead
  have point : d.point - 1 < 309 :=
    (zpow_lt_zpow_iff_right₀ (by norm_num)).mp
      (lt_of_le_of_lt (le_trans written.low bound) greatest_lt_ten_pow)
  have some : 0 < d.digits.length := List.length_pos_of_ne_nil written.wellFormed.ne_nil
  rw [value] at bound
  have product := Binary64.isFinite_timesPowerOfTen pos (Nat.le_of_lt written.small) bound
  rw [hk, scaled]
  simp only [Int.natAbs_natCast, product, if_true]
  rw [if_neg (by omega), if_pos (by omega)]
  exact ⟨_, rfl⟩

end Json

namespace Binary64

theorem reread_of_numeral {x : Binary64} {cs : List Char} {n : JsonNumber}
    (numeral : Json.IsNumeral cs)
    (text : Layout.document.write x = (if x.negative then ['-'] else []) ++ cs)
    (h : (Json.readUnsigned x.negative cs : Except (Json.ReadError Empty) _) = .ok (n, [])) :
    x.reread = some n.toBinary64 := by
  have read := Json.read_signed (ε := Empty) numeral x.negative 0 0 []
  rw [List.append_nil, List.append_nil, h] at read
  rw [reread, JsonNumber.reread, Json.writeNumber, text, read]
  rfl

theorem document_of_nonzero {x : Binary64} (finite : x.isFinite = true)
    (nonzero : x.isZero = false) :
    Layout.document.write x = (if x.negative then ['-'] else []) ++
      if Layout.document.positional (x.shortest .even).point then
        Layout.document.plain (x.shortest .even) else Layout.scientific (x.shortest .even) := by
  simp only [Layout.write, isNaN_of_isFinite finite, finite, nonzero, Bool.not_true,
    Bool.false_eq_true, if_false]
  rfl

/-- The exponent that is written has far fewer digits than are read. -/
theorem Written.point_small {x : Binary64} {d : Decimal} (written : x.Written d)
    (finite : x.isFinite = true) (nonzero : x.isZero = false) :
    (d.point - 1).natAbs < 2 ^ 31 := by
  obtain ⟨low, high⟩ := written.near.bounds finite nonzero
  have above : d.point - 1 < 400 :=
    (zpow_lt_zpow_iff_right₀ (by norm_num)).mp (lt_of_le_of_lt written.low high)
  have below : -400 < d.point :=
    (zpow_lt_zpow_iff_right₀ (by norm_num)).mp (lt_trans low written.high)
  omega

/-- The last three numbers, which the bounds leave out. -/
theorem reread_greatest (negative : Bool) {fraction : Fin (2 ^ (52 : Nat))}
    (h : 2 ^ 52 - 3 ≤ fraction.val) :
    (⟨negative, 2046, fraction⟩ : Binary64).reread.isSome = true := by
  have cases : fraction = ⟨2 ^ 52 - 3, by decide⟩ ∨ fraction = ⟨2 ^ 52 - 2, by decide⟩ ∨
      fraction = ⟨2 ^ 52 - 1, by decide⟩ := by
    simp only [Fin.ext_iff]
    omega
  cases negative <;> rcases cases with rfl | rfl | rfl <;> decide +kernel

/-- The text of every finite number reads as a number. -/
theorem exists_reread {x : Binary64} (finite : x.isFinite = true) : ∃ y, x.reread = some y := by
  by_cases greatest : x.exponent = 2046 ∧ 2 ^ 52 - 3 ≤ x.fraction.val
  · obtain ⟨negative, exponent, fraction⟩ := x
    obtain ⟨rfl, large⟩ := greatest
    exact Option.isSome_iff_exists.mp (reread_greatest negative large)
  by_cases zero : x.isZero = true
  · have digits : Json.IsDigits ['0'] := ⟨by simp, by simp⟩
    have text : Layout.document.write x =
        (if x.negative then ['-'] else []) ++ ['0', '.', '0'] := by
      simp [Layout.write, isNaN_of_isFinite finite, finite, zero, Layout.document]
    obtain ⟨n, hn⟩ := Json.exists_readUnsigned_point (ε := Empty) x.negative digits (.inr rfl)
      (by decide) digits
    exact ⟨_, reread_of_numeral (.fraction digits digits .none) text hn⟩
  rw [Bool.not_eq_true] at zero
  have written := written_shortest zero .even
  have wellFormed := written.wellFormed
  have text := document_of_nonzero finite zero
  by_cases positional : Layout.document.positional (x.shortest .even).point = true
  · rw [if_pos positional] at text
    have point : (x.shortest .even).point ≤ 16 := by
      simp only [Layout.document, Bool.and_eq_true, decide_eq_true_eq] at positional
      exact positional.2
    obtain ⟨n, hn⟩ := Json.exists_readUnsigned_plain (ε := Empty) x.negative wellFormed
      written.head point
    exact ⟨_, reread_of_numeral (Json.isNumeral_plain wellFormed) text hn⟩
  · rw [if_neg positional] at text
    obtain ⟨n, hn⟩ := Json.exists_scaled_of_written (ε := Empty) x.negative written finite
      fun top => Nat.lt_of_not_le fun large => greatest ⟨Fin.ext top, large⟩
    have read := Json.readUnsigned_scientific (ε := Empty) x.negative wellFormed written.head
      written.small (written.point_small finite zero)
    rw [hn] at read
    exact ⟨_, reread_of_numeral (Json.isNumeral_scientific wellFormed) text read⟩

end Binary64

end CellFormula
