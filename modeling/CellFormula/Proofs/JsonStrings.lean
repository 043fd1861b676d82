import CellFormula.Json.Read
import CellFormula.Json.Write
import CellFormula.Proofs.Blanks
import Mathlib.Data.List.Forall2

/-!
# Texts of strings

A character of a string stands for itself, behind a backslash, or as one or two units of UTF-16. The
reader takes any of these, and the writer chooses one of them.
-/

namespace CellFormula.Json

/-- Four hexadecimal digits, in either letter case, of a UTF-16 unit. -/
def IsUnit (n : Nat) (ds : List Char) : Prop :=
  ds.length = 4 ∧ ∃ vs, ds.mapM hexValue? = some vs ∧ vs.foldl (fun n d => 16 * n + d) 0 = n

/-- The letters that stand for a character behind a backslash. -/
def shortEscapes : List (Char × Char) :=
  [('"', '"'), ('\\', '\\'), ('/', '/'), ('b', Char.ofNat 0x8), ('f', Char.ofNat 0xC),
    ('n', '\n'), ('r', '\r'), ('t', '\t')]

/-- The ways to write a character in a string. -/
inductive CharText : Char → List Char → Prop where
  | itself {c : Char} (quote : c ≠ '"') (backslash : c ≠ '\\') (printable : ¬c.toNat < 0x20) :
    CharText c [c]
  | short {letter c : Char} (h : (letter, c) ∈ shortEscapes) : CharText c ['\\', letter]
  | unit {c : Char} {ds : List Char} (h : IsUnit c.toNat ds) : CharText c ('\\' :: 'u' :: ds)
  | pair {n m : Nat} {ds ds' : List Char} (h : IsUnit n ds) (h' : IsUnit m ds')
    (high : 0xD800 ≤ n ∧ n ≤ 0xDBFF) (low : 0xDC00 ≤ m ∧ m ≤ 0xDFFF) :
    CharText (Char.ofNat (0x10000 + 0x400 * (n - 0xD800) + (m - 0xDC00)))
      ('\\' :: 'u' :: (ds ++ '\\' :: 'u' :: ds'))

/-- The texts of a string, its quotes included. -/
def StringText (s : String) (cs : List Char) : Prop :=
  ∃ parts, List.Forall₂ CharText s.toList parts ∧ cs = '"' :: (parts.flatten ++ ['"'])

section

variable {ε : Type}

theorem readUnit_of_isUnit {n : Nat} {ds : List Char} (h : IsUnit n ds) (rest : List Char) :
    (readUnit (ds ++ rest) : Except (ReadError ε) _) = .ok (n, rest) := by
  obtain ⟨four, vs, digits, value⟩ := h
  have size := Text.length_le_byteLength ds
  rw [readUnit, ← four, List.take_left, List.drop_left, if_neg (by omega), digits]
  rw [← value]

theorem readEscapedUnit_unit {c : Char} {ds : List Char} (h : IsUnit c.toNat ds)
    (rest : List Char) :
    (readEscapedUnit (ds ++ rest) : Except (ReadError ε) _) = .ok (c, rest) := by
  -- A character is no half of a pair.
  have whole : c.toNat < 0xD800 ∨ 0xDFFF < c.toNat := by
    rcases c.valid with small | ⟨large, -⟩
    · exact .inl small
    · exact .inr large
  rw [readEscapedUnit, readUnit_of_isUnit h]
  change (if _ then _ else _) = _
  rw [if_neg (by omega), if_pos (by omega), Char.ofNat_toNat]

theorem readEscapedUnit_pair {n m : Nat} {ds ds' : List Char} (h : IsUnit n ds)
    (h' : IsUnit m ds') (high : 0xD800 ≤ n ∧ n ≤ 0xDBFF) (low : 0xDC00 ≤ m ∧ m ≤ 0xDFFF)
    (rest : List Char) :
    (readEscapedUnit (ds ++ '\\' :: 'u' :: (ds' ++ rest)) : Except (ReadError ε) _) =
      .ok (Char.ofNat (0x10000 + 0x400 * (n - 0xD800) + (m - 0xDC00)), rest) := by
  rw [readEscapedUnit, readUnit_of_isUnit h]
  change (if _ then _ else _) = _
  rw [if_neg (by omega), if_neg (by omega)]
  change (readUnit (ds' ++ rest) >>= _) = _
  rw [readUnit_of_isUnit h']
  change (if _ then _ else _) = _
  rw [if_neg (by omega)]

theorem readEscape_short {letter c : Char} (h : (letter, c) ∈ shortEscapes) (rest : List Char) :
    (readEscape (letter :: rest) : Except (ReadError ε) _) = .ok (c, rest) := by
  simp only [shortEscapes, List.mem_cons, List.not_mem_nil, or_false, Prod.mk.injEq] at h
  rcases h with ⟨rfl, rfl⟩ | ⟨rfl, rfl⟩ | ⟨rfl, rfl⟩ | ⟨rfl, rfl⟩ | ⟨rfl, rfl⟩ | ⟨rfl, rfl⟩ |
    ⟨rfl, rfl⟩ | ⟨rfl, rfl⟩ <;> rfl

theorem readChars_escape (fuel : Nat) {c : Char} {cs rest : List Char}
    (h : (readEscape cs : Except (ReadError ε) _) = .ok (c, rest)) :
    (readChars (fuel + 1) ('\\' :: cs) : Except (ReadError ε) _) =
      (readChars fuel rest).map fun (ds, cs) => (c :: ds, cs) := by
  rw [readChars, if_neg (by decide), if_pos rfl, h]
  change (readChars fuel rest >>= _) = _
  cases readChars fuel rest <;> rfl

theorem readChars_charText (fuel : Nat) {c : Char} {cs : List Char} (h : CharText c cs)
    (rest : List Char) : (readChars (fuel + 1) (cs ++ rest) : Except (ReadError ε) _) =
      (readChars fuel rest).map fun (ds, cs) => (c :: ds, cs) := by
  cases h with
  | itself quote backslash printable =>
    rw [List.singleton_append, readChars, if_neg quote, if_neg backslash, if_neg printable]
    cases readChars fuel rest <;> rfl
  | short h => exact readChars_escape fuel (readEscape_short h rest)
  | unit h => exact readChars_escape fuel (readEscapedUnit_unit h rest)
  | pair h h' high low =>
    simp only [List.cons_append, List.append_assoc]
    exact readChars_escape fuel (readEscapedUnit_pair h h' high low rest)

theorem readChars_parts {cs : List Char} {parts : List (List Char)}
    (h : List.Forall₂ CharText cs parts) {fuel : Nat} (enough : cs.length < fuel)
    (rest : List Char) :
    (readChars fuel (parts.flatten ++ '"' :: rest) : Except (ReadError ε) _) =
      .ok (cs, rest) := by
  induction h generalizing fuel with
  | nil =>
    obtain ⟨fuel, rfl⟩ := Nat.exists_eq_add_one_of_ne_zero (Nat.ne_of_gt enough)
    rfl
  | cons first _ ih =>
    obtain ⟨fuel, rfl⟩ := Nat.exists_eq_add_one_of_ne_zero (Nat.ne_of_gt (Nat.zero_lt_of_lt enough))
    rw [List.flatten_cons, List.append_assoc, readChars_charText fuel first,
      ih (by simpa using enough)]
    rfl

theorem CharText.length_pos {c : Char} {cs : List Char} (h : CharText c cs) : 1 ≤ cs.length := by
  cases h <;> simp

theorem length_le_flatten {cs : List Char} {parts : List (List Char)}
    (h : List.Forall₂ CharText cs parts) : cs.length ≤ parts.flatten.length := by
  induction h with
  | nil => exact Nat.le_refl _
  | cons first _ ih =>
    have one := first.length_pos
    rw [List.flatten_cons, List.length_append, List.length_cons]
    omega

/-- Every text of a string reads as that string. -/
theorem readString_of_stringText {s : String} {cs : List Char} (h : StringText s cs) {fuel : Nat}
    (enough : cs.length < fuel) (rest : List Char) : ∃ tail, cs ++ rest = '"' :: tail ∧
      (readString fuel tail : Except (ReadError ε) _) = .ok (s, rest) := by
  obtain ⟨parts, chars, rfl⟩ := h
  refine ⟨parts.flatten ++ '"' :: rest, by simp, ?_⟩
  have length := length_le_flatten chars
  simp only [List.length_append, List.length_cons] at enough
  rw [readString, readChars_parts chars (by omega)]
  simp [Except.map]

end

theorem hex_of_control : ∀ n < 0x20,
    ['0', '0', hexDigit (n / 16), hexDigit (n % 16)].mapM hexValue? =
      some [0, 0, n / 16, n % 16] := by
  decide

theorem isUnit_control {n : Nat} (control : n < 0x20) :
    IsUnit n ['0', '0', hexDigit (n / 16), hexDigit (n % 16)] := by
  refine ⟨rfl, _, hex_of_control n control, ?_⟩
  change 16 * (16 * (16 * (16 * 0 + 0) + 0) + n / 16) + n % 16 = n
  omega

theorem charText_escapedChar (c : Char) : CharText c (escapedChar c) := by
  unfold escapedChar
  split
  · next h => exact .short (by rw [h]; decide)
  split
  · next h => exact .short (by rw [h]; decide)
  split
  · next h => exact .short (by rw [h]; decide)
  split
  · next h => exact .short (by rw [h]; decide)
  split
  · next h => exact .short (by rw [h]; decide)
  split
  · next h => exact .short (by rw [← Char.ofNat_toNat c, h]; decide)
  split
  · next h => exact .short (by rw [← Char.ofNat_toNat c, h]; decide)
  split
  · next control => exact .unit (isUnit_control control)
  · next quote backslash _ _ _ _ _ printable => exact .itself quote backslash printable

theorem stringText_writeString (s : String) : StringText s (writeString s) := by
  refine ⟨s.toList.map escapedChar, ?_, ?_⟩
  · rw [List.forall₂_map_right_iff, List.forall₂_same]
    exact fun c _ => charText_escapedChar c
  · rw [writeString, List.flatMap_def, List.cons_append]

end CellFormula.Json
