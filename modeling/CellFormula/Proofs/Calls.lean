import CellFormula.Proofs.Pieces
import CellFormula.Proofs.Surface
import CellFormula.Reading.Rules

/-!
# Calls

What makes a text a call is its head alone, the word up to the opening parenthesis, and its
arguments are found without looking past the parenthesis that closes it. So a call is the same call
whatever follows it.
-/

namespace CellFormula

namespace Nesting

/-- A class of characters without quotes and delimiters. -/
theorem isPlain_of {p : Char → Bool} {c : Char} (h : p c = true)
    (out : ['"', '\'', '(', ')', '[', ']'].any p = false) : isPlain c = true := by
  have ne : ∀ d ∈ ['"', '\'', '(', ')', '[', ']'], c ≠ d := by
    rintro d hd rfl
    have := List.any_eq_false.mp out c hd
    exact this h
  simp only [List.mem_cons, List.not_mem_nil, or_false, forall_eq_or_imp, forall_eq] at ne
  simp [isPlain, isQuote, ne]

theorem isPlain_of_isBlank {c : Char} (h : Text.isBlank c = true) : isPlain c = true :=
  isPlain_of h (by decide)

end Nesting

namespace Scan

/-- A class of characters without operators. -/
theorem isOperator_eq_false_of {p : Char → Bool} {c : Char} (h : p c = true)
    (out : ['+', '-', '*', '/'].any p = false) : isOperator c = false := by
  rw [Bool.eq_false_iff]
  intro hc
  obtain ⟨op, hop⟩ := Option.isSome_iff_exists.mp hc
  obtain rfl := Operator.ofChar?_eq_some_iff.mp hop
  have := List.any_eq_false.mp out op.symbol (by cases op <;> simp [Operator.symbol])
  exact this h

theorem closing?_append {depth : Int} {xs inside rest : List Char}
    (h : closing? depth xs = some (inside, rest)) (ys : List Char) :
    closing? depth (xs ++ ys) = some (inside, rest ++ ys) := by
  induction xs generalizing depth inside with
  | nil => cases h
  | cons c xs ih =>
    have onward : ∀ d : Int,
        (closing? d xs).map (fun p => (c :: p.1, p.2)) = some (inside, rest) →
          (closing? d (xs ++ ys)).map (fun p => (c :: p.1, p.2)) = some (inside, rest ++ ys) := by
      intro d hd
      obtain ⟨⟨i, r⟩, hi, he⟩ := Option.map_eq_some_iff.mp hd
      cases he
      rw [ih hi]
      rfl
    simp only [List.cons_append, closing?] at h ⊢
    split
    · next hc => exact onward _ (by simpa [hc] using h)
    · next hc =>
      rw [if_neg hc] at h
      split
      · next hd =>
        rw [if_pos hd] at h
        split
        · next last =>
          rw [if_pos last] at h
          cases h
          rfl
        · next more => exact onward _ (by rwa [if_neg more] at h)
      · next hd => exact onward _ (by simpa [hd] using h)

theorem splitCall_append {xs inside rest : List Char} (h : splitCall xs = some (inside, rest))
    (ys : List Char) : splitCall (xs ++ ys) = some (inside, rest ++ ys) := by
  induction xs with
  | nil => cases h
  | cons c xs ih =>
    simp only [List.cons_append, splitCall] at h ⊢
    split
    · next hc => exact closing?_append (by simpa [hc] using h) ys
    · next hc => exact ih (by simpa [hc] using h)

end Scan

namespace Reading

open Text Scan Nesting

theorem isAlpha_of_toLower {c : Char} (h : c.toLower.isAlpha = true) : c.isAlpha = true := by
  unfold Char.toLower at h
  split at h
  · next hc =>
    have upper : c.isUpper = true := by
      unfold Char.isUpper
      simpa using hc
    exact Bool.or_eq_true_iff.mpr (.inl upper)
  · exact h

theorem range_of_isAlpha {c : Char} (h : c.isAlpha = true) :
    (65 ≤ c.toNat ∧ c.toNat ≤ 90) ∨ (97 ≤ c.toNat ∧ c.toNat ≤ 122) := by
  unfold Char.isAlpha Char.isUpper Char.isLower at h
  simpa [UInt32.le_iff_toNat_le] using h

theorem range_of_isDigit {c : Char} (h : c.isDigit = true) : 48 ≤ c.toNat ∧ c.toNat ≤ 57 := by
  simpa [Char.isDigit, UInt32.le_iff_toNat_le] using h

theorem isDigit_eq_false_of_isAlpha {c : Char} (h : c.isAlpha = true) : c.isDigit = false := by
  rw [Bool.eq_false_iff]
  intro digit
  have letters := range_of_isAlpha h
  have digits := range_of_isDigit digit
  omega

theorem isAlpha_of_sameWord {word letters : List Char} (h : sameWord word letters = true)
    (alpha : letters.all (fun c => c.toLower.isAlpha) = true) :
    ∀ c ∈ word, c.isAlpha = true := by
  intro c hc
  have mem : c.toLower ∈ letters.map Char.toLower := by
    rw [← beq_iff_eq.mp h]
    exact List.mem_map_of_mem hc
  obtain ⟨d, hd, he⟩ := List.mem_map.mp mem
  exact isAlpha_of_toLower (he ▸ List.all_eq_true.mp alpha d hd)

/-- The call that a text begins with. -/
def keyword? (cs : List Char) : Option Keyword :=
  if startsConditional cs then some .conditional
  else if startsLookup cs then some .lookup
  else none

/-- A head without its parenthesis: the word in any letter case, and only after `IF` blanks. -/
def IsWord : Keyword → List Char → Prop
  | .conditional, before => ∃ word blanks, before = word ++ blanks ∧
      sameWord word "if".toList = true ∧ ∀ c ∈ blanks, isBlank c = true
  | .lookup, before => sameWord before "lookup".toList = true

theorem length_of_sameWord {xs ys : List Char} (h : sameWord xs ys = true) :
    xs.length = ys.length := by
  simpa using congrArg List.length (beq_iff_eq.mp h)

theorem startsConditional_iff {cs : List Char} : startsConditional cs = true ↔
    ∃ before rest, IsWord .conditional before ∧ cs = before ++ '(' :: rest := by
  constructor
  · intro h
    obtain ⟨word, paren⟩ := Bool.and_eq_true_iff.mp h
    obtain ⟨rest, hrest⟩ : ∃ rest, trimStart (cs.drop 2) = '(' :: rest := by
      cases ht : trimStart (cs.drop 2) with
      | nil => simp [ht] at paren
      | cons c rest => exact ⟨rest, by simpa [ht] using paren⟩
    refine ⟨cs.take 2 ++ (cs.drop 2).takeWhile isBlank, rest, ?_, ?_⟩
    · refine ⟨_, _, rfl, word, fun c hc => List.all_eq_true.mp List.all_takeWhile c hc⟩
    · rw [List.append_assoc, ← hrest, trimStart, List.takeWhile_append_dropWhile,
        List.take_append_drop]
  · rintro ⟨before, rest, ⟨word, blanks, rfl, hword, hblanks⟩, rfl⟩
    have two : word.length = 2 := length_of_sameWord hword
    have paren : trimStart (blanks ++ '(' :: rest) = '(' :: rest := by
      rw [trimStart, List.dropWhile_append_of_pos hblanks]
      rfl
    rw [startsConditional, List.append_assoc, List.take_left' two, List.drop_left' two, paren]
    exact Bool.and_eq_true_iff.mpr ⟨hword, rfl⟩

theorem eq_paren_of_toLower {c : Char} (h : c.toLower = '(') : c = '(' := by
  unfold Char.toLower at h
  split at h
  · next hc =>
    -- No lower-case letter is a parenthesis.
    have folded : c.val + ('a'.val - 'A'.val) = '('.val := congrArg Char.val h
    have hn := congrArg UInt32.toNat folded
    rw [UInt32.toNat_add] at hn
    change (c.val.toNat + 32) % 2 ^ 32 = 40 at hn
    have low : 65 ≤ c.val.toNat := hc.1
    have high : c.val.toNat ≤ 90 := hc.2
    omega
  · exact h

theorem startsLookup_iff {cs : List Char} : startsLookup cs = true ↔
    ∃ before rest, IsWord .lookup before ∧ cs = before ++ '(' :: rest := by
  constructor
  · intro h
    have seven : (cs.take 7).length = 7 := length_of_sameWord h
    have long : 6 < cs.length := by
      rw [List.length_take] at seven
      omega
    have split : cs.take 7 = cs.take 6 ++ [cs[6]] := by
      rw [List.take_append_getElem]
    have target : "lookup(".toList.map Char.toLower = "lookup".toList.map Char.toLower ++ ['('] :=
      rfl
    have folded := beq_iff_eq.mp h
    rw [split, List.map_append, target] at folded
    obtain ⟨word, paren⟩ := List.append_inj' folded rfl
    refine ⟨cs.take 6, cs.drop 7, beq_iff_eq.mpr word, ?_⟩
    have last := eq_paren_of_toLower (List.head_eq_of_cons_eq paren)
    rw [last] at split
    calc cs = cs.take 7 ++ cs.drop 7 := (List.take_append_drop 7 cs).symm
      _ = cs.take 6 ++ '(' :: cs.drop 7 := by rw [split, List.append_assoc]; rfl
  · rintro ⟨before, rest, word, rfl⟩
    have six : before.length = 6 := length_of_sameWord word
    have seven : (before ++ ['(']).length = 7 := by simp [six]
    have split : before ++ '(' :: rest = (before ++ ['(']) ++ rest := by simp
    rw [startsLookup, split, List.take_left' seven, sameWord, List.map_append,
      beq_iff_eq.mp word]
    rfl

theorem not_startsConditional_of_lookup {before : List Char} (word : IsWord .lookup before)
    (rest : List Char) : startsConditional (before ++ rest) = false := by
  have six : before.length = 6 := length_of_sameWord word
  have folded : (before.take 2).map Char.toLower = ['l', 'o'] := by
    rw [List.map_take, beq_iff_eq.mp word]
    rfl
  rw [startsConditional, List.take_append_of_le_length (by omega), sameWord, folded]
  rfl

theorem keyword?_eq_some_iff {keyword : Keyword} {cs : List Char} : keyword? cs = some keyword ↔
    ∃ before rest, IsWord keyword before ∧ cs = before ++ '(' :: rest := by
  cases keyword with
  | conditional =>
    rw [← startsConditional_iff, keyword?]
    constructor
    · intro h
      split at h
      · assumption
      · split at h <;> cases h
    · intro h
      rw [if_pos h]
  | lookup =>
    constructor
    · intro h
      rw [keyword?] at h
      split at h
      · cases h
      · split at h
        · next hl => exact startsLookup_iff.mp hl
        · cases h
    · rintro ⟨before, rest, word, rfl⟩
      rw [keyword?, not_startsConditional_of_lookup word, startsLookup_iff.mpr ⟨_, _, word, rfl⟩]
      rfl

theorem keyword?_eq_none_iff {cs : List Char} :
    keyword? cs = none ↔ startsConditional cs = false ∧ startsLookup cs = false := by
  rw [keyword?]
  cases startsConditional cs <;> cases startsLookup cs <;> simp

/-- The characters of a word are letters and blanks. -/
def isWordPart (c : Char) : Bool :=
  c.isAlpha || isBlank c

theorem IsWord.isWordPart {keyword : Keyword} {before : List Char} (h : IsWord keyword before) :
    ∀ c ∈ before, isWordPart c = true := by
  cases keyword with
  | conditional =>
    obtain ⟨word, blanks, rfl, hword, hblanks⟩ := h
    intro c hc
    rcases List.mem_append.mp hc with hc | hc
    · simp [Reading.isWordPart, isAlpha_of_sameWord hword rfl c hc]
    · simp [Reading.isWordPart, hblanks c hc]
  | lookup =>
    intro c hc
    simp [Reading.isWordPart, isAlpha_of_sameWord h rfl c hc]

theorem isBlank_eq_false_of_isAlpha {c : Char} (h : c.isAlpha = true) : isBlank c = false := by
  have range := range_of_isAlpha h
  simp only [isBlank, Bool.or_eq_false_iff, Bool.and_eq_false_iff, decide_eq_false_iff_not,
    beq_eq_false_iff_ne]
  omega

theorem isBlank_eq_false_of_isDigit {c : Char} (h : c.isDigit = true) : isBlank c = false := by
  have range := range_of_isDigit h
  simp only [isBlank, Bool.or_eq_false_iff, Bool.and_eq_false_iff, decide_eq_false_iff_not,
    beq_eq_false_iff_ne]
  omega

theorem IsWord.head? {keyword : Keyword} {before : List Char} (h : IsWord keyword before) :
    ∃ c rest, before = c :: rest ∧ isBlank c = false := by
  have first : ∀ word letters : List Char, sameWord word letters = true → letters ≠ [] →
      letters.all (fun c => c.toLower.isAlpha) = true →
        ∃ c rest, word = c :: rest ∧ isBlank c = false := by
    intro word letters same ne alpha
    cases word with
    | nil => exact absurd (List.length_eq_zero_iff.mp (length_of_sameWord same).symm) ne
    | cons c rest =>
      exact ⟨c, rest, rfl, isBlank_eq_false_of_isAlpha
        (isAlpha_of_sameWord same alpha c List.mem_cons_self)⟩
  cases keyword with
  | conditional =>
    obtain ⟨word, blanks, rfl, hword, -⟩ := h
    obtain ⟨c, rest, rfl, hc⟩ := first word _ hword (by decide) rfl
    exact ⟨c, rest ++ blanks, rfl, hc⟩
  | lookup => exact first before _ h (by decide) rfl

theorem IsWord.isPlain {keyword : Keyword} {before : List Char} (h : IsWord keyword before) :
    ∀ c ∈ before, isPlain c = true :=
  fun c hc => isPlain_of (h.isWordPart c hc) (by decide)

theorem IsWord.not_mem_paren {keyword : Keyword} {before : List Char}
    (h : IsWord keyword before) : '(' ∉ before := by
  intro mem
  cases h.isPlain _ mem

theorem IsWord.isOperator_eq_false {keyword : Keyword} {before : List Char}
    (h : IsWord keyword before) : ∀ c ∈ before, isOperator c = false :=
  fun c hc => isOperator_eq_false_of (h.isWordPart c hc) (by decide)

theorem isWord_if : IsWord .conditional "IF".toList :=
  ⟨"IF".toList, [], by simp, rfl, by simp⟩

theorem isWord_lookup : IsWord .lookup "LOOKUP".toList :=
  rfl

/-- A call has no blank ends. -/
theorem IsWord.trimmed_call {keyword : Keyword} {word : List Char} (h : IsWord keyword word)
    (content : List Char) : Trimmed (word ++ '(' :: content ++ [')']) := by
  obtain ⟨c, rest, rfl, dark⟩ := h.head?
  rw [List.append_assoc, List.cons_append, ← List.append_assoc rest]
  exact trimmed_ends dark rfl _

/-- A head has no blank ends. -/
theorem IsWord.trimmed {keyword : Keyword} {before : List Char} (h : IsWord keyword before) :
    Trimmed (before ++ ['(']) := by
  obtain ⟨c, rest, rfl, hc⟩ := h.head?
  constructor
  · intro d hd
    cases hd
    exact hc
  · intro d hd
    rw [List.getLast?_append] at hd
    cases hd
    rfl

end Reading

end CellFormula
