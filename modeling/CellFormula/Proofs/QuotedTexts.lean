import CellFormula.Proofs.Inverse
import CellFormula.Proofs.ValidTrees

/-!
# Quoted texts below calls

The end of a call is found by counting parentheses, those in quotes too, while its commas and its
comparator are only looked for outside quotes. So a tree that comes back from its text has balanced
parentheses between those of each of its calls, and a quoted text among cells comes back from a
call exactly if its own parentheses balance.
-/

namespace CellFormula

namespace Scan

open Text Nesting

/-- What stands before the closing parenthesis brings the depth down to zero and never below. -/
theorem depthAfter?_of_closing? {depth : Nat} {cs inside rest : List Char}
    (h : closing? (depth + 1 : Int) cs = some (inside, rest)) :
    depthAfter? depth inside = some 0 := by
  induction cs generalizing depth inside with
  | nil => cases h
  | cons c cs ih =>
    have onward : ∀ d : Nat,
        (closing? (d + 1 : Int) cs).map (fun p => (c :: p.1, p.2)) = some (inside, rest) →
          ∃ before, inside = c :: before ∧ depthAfter? d before = some 0 := by
      intro d hd
      obtain ⟨⟨before, _⟩, found, same⟩ := Option.map_eq_some_iff.mp hd
      cases same
      exact ⟨before, rfl, ih found⟩
    simp only [closing?] at h
    split at h
    · next opening =>
      obtain ⟨before, rfl, zero⟩ := onward (depth + 1) (by exact_mod_cast h)
      simpa only [depthAfter?, if_pos opening] using zero
    · next other =>
      split at h
      · next closing =>
        cases depth with
        | zero =>
          cases h
          rfl
        | succ depth =>
          have open_left : ¬ ((depth + 1 : Nat) + 1 - 1 : Int) = 0 := by omega
          have one_less : ((depth + 1 : Nat) + 1 - 1 : Int) = depth + 1 := by omega
          rw [if_neg open_left, one_less] at h
          obtain ⟨before, rfl, zero⟩ := onward depth h
          simpa only [depthAfter?, if_neg other, if_pos closing] using zero
      · next neither =>
        obtain ⟨before, rfl, zero⟩ := onward depth h
        simpa only [depthAfter?, if_neg other, if_neg neither] using zero

/-- The arguments that a call is found to have balance. -/
theorem balanced_of_splitCall {cs inside rest : List Char}
    (h : splitCall cs = some (inside, rest)) : Balanced inside := by
  induction cs with
  | nil => cases h
  | cons c cs ih =>
    simp only [splitCall] at h
    split at h
    · have one : ((0 : Nat) + 1 : Int) = 1 := rfl
      exact depthAfter?_of_closing? (one ▸ h)
    · exact ih h

theorem Balanced.append_iff_right {xs : List Char} (hx : Balanced xs) (ys : List Char) :
    Balanced (xs ++ ys) ↔ Balanced ys := by
  rw [Balanced, depthAfter?_append, hx]
  rfl

theorem Balanced.append_iff_left {ys : List Char} (hy : Balanced ys) (xs : List Char) :
    Balanced (xs ++ ys) ↔ Balanced xs := by
  constructor
  · intro h
    rw [Balanced, depthAfter?_append] at h
    obtain ⟨depth, hx, rest⟩ := Option.bind_eq_some_iff.mp h
    have kept := depthAfter?_add hy depth
    rw [Nat.zero_add, rest] at kept
    rw [Balanced, hx, ← Option.some.inj kept]
  · exact fun hx => hx.append hy

end Scan

namespace Formula

open Text Scan Nesting

/-- What is written between the parentheses of a call. -/
def callContent (spelling : EqualitySpelling) : Formula → List Char
  | .conditional comparator l r t f =>
    joined [','] [l.write spelling ++ spelling.write comparator ++ r.write spelling,
      t.write spelling, f.write spelling]
  | .call _ arguments => joined [','] (arguments.map (write spelling))
  | _ => []

end Formula

namespace Reading

open Text Scan Nesting Formula

section

variable {known : Registry} {spelling : EqualitySpelling}

/-- What was written between parentheses is all that is found there, unless a parenthesis in it is
taken for the last one. -/
theorem content_eq {word word' content content' rest : List Char} (h : '(' ∉ word)
    (h' : '(' ∉ word')
    (same : word ++ '(' :: content ++ [')'] = word' ++ '(' :: content' ++ ')' :: rest)
    (kept : ∀ tail, content ≠ content' ++ ')' :: tail) : content = content' := by
  simp only [List.append_assoc, List.cons_append] at same
  obtain ⟨-, same⟩ := append_paren_inj h h' same
  rcases append_singleton_cases same with ⟨whole, -⟩ | ⟨tail, longer⟩
  · exact whole
  · exact absurd longer (kept tail)

theorem balanced_of_faithful_conditional {comparator : Comparator} {l r t f : Formula}
    (h : Faithful known spelling (.conditional comparator l r t f)) :
    Balanced ((Formula.conditional comparator l r t f).callContent spelling) := by
  have text := write_conditional_eq spelling comparator l r t f
  cases Ruled.of_eq h with
  | @comparison content rest test _ _ _ _ more _ call cut pieces sides =>
    obtain ⟨word, head, whole⟩ := eq_call call cut
    have total := weight_comparison sides spelling
    rw [← weight_append, ← weight_append] at total
    have most := weight_write_conditional spelling comparator l r t f
    rw [← weight_append, ← weight_append, ← total] at most
    have joins := joined_rawPieces ',' .start content
    rw [rawPieces_of_conditional head whole pieces (Nat.le_of_eq most)] at joins
    have same := content_eq isWord_if.not_mem_paren head.not_mem_paren (text.symm.trans whole) (by
      intro tail longer
      rw [← joins] at longer
      obtain ⟨-, -, last⟩ := joined_three_aligned total rfl longer.symm
      simp at last)
    rw [callContent, same]
    exact balanced_of_splitCall cut

theorem balanced_of_faithful_lookup {arguments : List Formula}
    (h : Faithful known spelling (.call lookupName arguments)) :
    Balanced ((Formula.call lookupName arguments).callContent spelling) := by
  have text := write_lookup_eq spelling arguments
  cases Ruled.of_eq h.2 with
  | @lookup content rest _ call cut pieces =>
    obtain ⟨word, head, whole⟩ := eq_call call cut
    have weighs := weight_call_le head whole
    have six : Keyword.lookup.name.length = 6 := rfl
    have total := weight_write_lookup spelling arguments
    rw [Formula.lookup] at total
    have joins := joined_of_weights (show weight content ≤ _ by
      rw [pieces, List.length_map]
      omega)
    rw [pieces] at joins
    have same := content_eq isWord_lookup.not_mem_paren head.not_mem_paren (text.symm.trans whole)
      (by simp [← joins])
    rw [callContent, same]
    exact balanced_of_splitCall cut

/-- Between the parentheses of a call that is cut where it was put together, parentheses balance. -/
theorem balanced_of_faithful {f : Formula} (h : Faithful known spelling f) :
    Balanced (f.callContent spelling) := by
  cases f with
  | cell | number | text | chain => rfl
  | conditional => exact balanced_of_faithful_conditional h
  | call name arguments =>
    obtain rfl := h.1
    exact balanced_of_faithful_lookup h

/-- Between the parentheses of every call in a tree that is read back from its text, parentheses
balance. -/
theorem balanced_of_same (named : known.contains "" = false) {n : Nat} {f : Formula}
    (same : (parse ⟨known, n⟩ (f.toText spelling)).same f = true) :
    f.Every fun g => Balanced (g.callContent spelling) :=
  ((same_iff_faithful named n f).mp same).1.imp fun _ => balanced_of_faithful

end

end Reading

namespace Formula

open Text Scan Nesting

theorem isBlank_eq_false_of_isColumnLetter {c : Char} (h : isColumnLetter c = true) :
    isBlank c = false := by
  simp only [isColumnLetter, Bool.or_eq_true, beq_iff_eq] at h
  rcases h with (letter | rfl) | rfl
  · exact Reading.isBlank_eq_false_of_isAlpha letter
  · rfl
  · rfl

theorem isDigit_eq_false_of_isColumnLetter {c : Char} (h : isColumnLetter c = true) :
    c.isDigit = false := by
  simp only [isColumnLetter, Bool.or_eq_true, beq_iff_eq] at h
  rcases h with (letter | rfl) | rfl
  · exact Reading.isDigit_eq_false_of_isAlpha letter
  · rfl
  · rfl

/-- The name of a column and a row is nowhere cut and does not begin like a numeral. -/
theorem cleanName_of_isSpreadsheetName {cs : List Char} (h : isSpreadsheetName cs = true) :
    CleanName cs := by
  simp only [isSpreadsheetName, isNumbered, Bool.and_eq_true, decide_eq_true_eq] at h
  obtain ⟨⟨column, -⟩, row⟩ := h
  have parts : ∀ c ∈ cs, isNamePart c = true ∧ isBlank c = false := by
    intro c hc
    rw [← List.takeWhile_append_dropWhile (p := isColumnLetter) (l := cs)] at hc
    rcases List.mem_append.mp hc with hc | hc
    · have letter := List.mem_takeWhile_imp hc
      exact ⟨isNamePart_of letter (by decide), isBlank_eq_false_of_isColumnLetter letter⟩
    · have digit := List.all_eq_true.mp row c hc
      exact ⟨isNamePart_of digit (by decide), Reading.isBlank_eq_false_of_isDigit digit⟩
  have first : ∀ c, cs.head? = some c → isColumnLetter c = true := by
    intro c head
    obtain ⟨rest, rfl⟩ := List.head?_eq_some_iff.mp head
    by_contra other
    simp [other] at column
  have trimmed : Trimmed cs :=
    ⟨fun c hc => (parts c (List.mem_of_head? hc)).2,
      fun c hc => (parts c (List.mem_of_getLast? hc)).2⟩
  refine .inr ⟨?_, trimmed.trim_eq, fun c hc => (parts c hc).1, ?_⟩
  · rintro rfl
    cases column
  · intro c head
    have letter := first c head
    refine ⟨isDigit_eq_false_of_isColumnLetter letter, ?_⟩
    rintro rfl
    cases letter

/-- The text alone in a lookup, between two cells in one, or in one of the four places of a
conditional with cells in the others. -/
inductive AmongCells (v : String) : Formula → Prop
  | alone : AmongCells v (.lookup [.text v])
  | between {a b : String} (ha : isSpreadsheetName a.toList = true)
    (hb : isSpreadsheetName b.toList = true) : AmongCells v (.lookup [.cell a, .text v, .cell b])
  | left (comparator : Comparator) {a b c : String} (ha : isSpreadsheetName a.toList = true)
    (hb : isSpreadsheetName b.toList = true) (hc : isSpreadsheetName c.toList = true) :
    AmongCells v (.conditional comparator (.text v) (.cell a) (.cell b) (.cell c))
  | right (comparator : Comparator) {a b c : String} (ha : isSpreadsheetName a.toList = true)
    (hb : isSpreadsheetName b.toList = true) (hc : isSpreadsheetName c.toList = true) :
    AmongCells v (.conditional comparator (.cell a) (.text v) (.cell b) (.cell c))
  | whenTrue (comparator : Comparator) {a b c : String} (ha : isSpreadsheetName a.toList = true)
    (hb : isSpreadsheetName b.toList = true) (hc : isSpreadsheetName c.toList = true) :
    AmongCells v (.conditional comparator (.cell a) (.cell b) (.text v) (.cell c))
  | whenFalse (comparator : Comparator) {a b c : String} (ha : isSpreadsheetName a.toList = true)
    (hb : isSpreadsheetName b.toList = true) (hc : isSpreadsheetName c.toList = true) :
    AmongCells v (.conditional comparator (.cell a) (.cell b) (.cell c) (.text v))

section

variable {v : String} {t : Formula}

theorem AmongCells.clean (h : AmongCells v t) (unquoted : ∀ c ∈ v.toList, isQuote c = false)
    (balanced : Balanced v.toList) : t.Clean false := by
  have text : (Formula.text v).Clean true := ⟨unquoted, fun _ => balanced⟩
  have cell : ∀ {a : String}, isSpreadsheetName a.toList = true → (Formula.cell a).Clean true :=
    cleanName_of_isSpreadsheetName
  cases h with
  | alone => exact ⟨rfl, text, trivial⟩
  | between ha hb => exact ⟨rfl, cell ha, text, cell hb, trivial⟩
  | left _ ha hb hc => exact ⟨text, cell ha, cell hb, cell hc⟩
  | right _ ha hb hc => exact ⟨cell ha, text, cell hb, cell hc⟩
  | whenTrue _ ha hb hc => exact ⟨cell ha, cell hb, text, cell hc⟩
  | whenFalse _ ha hb hc => exact ⟨cell ha, cell hb, cell hc, text⟩

/-- There is no chain in such a tree and no number. -/
theorem AmongCells.plain (h : AmongCells v t) : t.Every NotLed ∧ t.Every Listed := by
  cases h <;> constructor <;> trivial

theorem AmongCells.need_eq (h : AmongCells v t) : t.need = 2 := by
  cases h <;> rfl

theorem AmongCells.head_ne (h : AmongCells v t) (spelling : EqualitySpelling) :
    (t.write spelling).head? ≠ some '=' := by
  cases h with
  | alone | between => simp [Formula.lookup, write_lookup_eq]
  | left | right | whenTrue | whenFalse => simp [write_conditional_eq]

/-- Among arguments that balance, one more balances exactly if they do together. -/
theorem balanced_joined_iff (ps : List (List Char)) {qs : List (List Char)}
    (hp : ∀ p ∈ ps, Balanced p) (hq : ∀ q ∈ qs, Balanced q) (w : List Char) :
    Balanced (joined [','] (ps ++ w :: qs)) ↔ Balanced w := by
  have comma : Balanced [','] := rfl
  induction ps with
  | nil =>
    cases qs with
    | nil => rfl
    | cons q qs =>
      rw [List.nil_append, joined, List.append_assoc,
        (comma.append (balanced_joined hq)).append_iff_left]
      simp
  | cons p ps ih =>
    obtain ⟨first, others⟩ := List.forall_mem_cons.mp hp
    rw [List.cons_append, joined, (first.append comma).append_iff_right]
    · exact ih others
    · simp

theorem AmongCells.callContent_balanced_iff (h : AmongCells v t) (spelling : EqualitySpelling) :
    Balanced (t.callContent spelling) ↔ Balanced v.toList := by
  have cell : ∀ {a : String}, isSpreadsheetName a.toList = true → Balanced a.toList :=
    fun ha => (tidy_name (cleanName_of_isSpreadsheetName ha) true).balanced rfl
  have quote : Balanced ['"'] := rfl
  have text : Balanced ('"' :: v.toList ++ ['"']) ↔ Balanced v.toList :=
    (quote.append_iff_left _).trans (quote.append_iff_right _)
  have symbol := fun comparator => balanced_of_isPlain (isPlain_write spelling comparator)
  cases h with
  | alone => exact text
  | between ha hb =>
    have argument := balanced_joined_iff [_] (List.forall_mem_singleton.mpr (cell ha))
      (List.forall_mem_singleton.mpr (cell hb)) ('"' :: v.toList ++ ['"'])
    exact argument.trans text
  | left comparator ha hb hc =>
    have condition := ((cell ha).append_iff_left _).trans
      (((symbol comparator).append_iff_left _).trans text)
    have branches := List.forall_mem_cons.mpr ⟨cell hb, List.forall_mem_singleton.mpr (cell hc)⟩
    exact (balanced_joined_iff [] (List.forall_mem_nil _) branches _).trans condition
  | right comparator ha hb hc =>
    have before := (cell ha).append (symbol comparator)
    have condition := (before.append_iff_right _).trans text
    have branches := List.forall_mem_cons.mpr ⟨cell hb, List.forall_mem_singleton.mpr (cell hc)⟩
    exact (balanced_joined_iff [] (List.forall_mem_nil _) branches _).trans condition
  | whenTrue comparator ha hb hc =>
    have condition := ((cell ha).append (symbol comparator)).append (cell hb)
    have argument := balanced_joined_iff [_] (List.forall_mem_singleton.mpr condition)
      (List.forall_mem_singleton.mpr (cell hc)) ('"' :: v.toList ++ ['"'])
    exact argument.trans text
  | whenFalse comparator ha hb hc =>
    have condition := ((cell ha).append (symbol comparator)).append (cell hb)
    have argument := balanced_joined_iff [_, _]
      (List.forall_mem_cons.mpr ⟨condition, List.forall_mem_singleton.mpr (cell hc)⟩)
      (List.forall_mem_nil _) ('"' :: v.toList ++ ['"'])
    exact argument.trans text

end

end Formula

end CellFormula
