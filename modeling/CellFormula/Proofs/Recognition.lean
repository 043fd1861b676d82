import CellFormula.Proofs.Layouts
import CellFormula.Proofs.Rereading
import CellFormula.Proofs.Retry

/-!
# Which rule takes a written text

The rules overlap and the first that applies decides, so for every kind of node the rules before its
own have to be shut out. For a chain without its parentheses these are all of them: the text of the
operands must be no call, no quoted or bracketed text, no numeral and no known name.
-/

namespace CellFormula

/-- No known name holds an arithmetic operator. -/
def Registry.WithoutOperators (known : Registry) : Prop :=
  ∀ name ∈ known.names, ∀ c ∈ name.toList, Scan.isOperator c = false

instance (known : Registry) : Decidable known.WithoutOperators :=
  decidable_of_iff (known.names.all fun name => name.toList.all fun c => !Scan.isOperator c)
    (by simp [Registry.WithoutOperators])

namespace Numeral

theorem exponent?_eq_none {c : Char} (h : c ≠ 'e' ∧ c ≠ 'E') (cs : List Char) :
    exponent? (c :: cs) = none := by
  rw [exponent?, if_neg]
  simp [h]

/-- Past the digits that begin it, a text of digits and points stops at a point or at its end. -/
theorem dropWhile_digits {xs : List Char} {c : Char} (ys : List Char)
    (parts : ∀ b ∈ xs, b.isDigit = true ∨ b = '.') (other : c.isDigit = false) :
    (xs ++ c :: ys).dropWhile Char.isDigit = c :: ys ∨
      ∃ zs, (∀ b ∈ zs, b.isDigit = true ∨ b = '.') ∧
        (xs ++ c :: ys).dropWhile Char.isDigit = '.' :: (zs ++ c :: ys) := by
  induction xs with
  | nil => simp [other]
  | cons b xs ih =>
    have rest : ∀ d ∈ xs, d.isDigit = true ∨ d = '.' :=
      fun d hd => parts d (List.mem_cons_of_mem b hd)
    by_cases digit : b.isDigit = true
    · simpa [digit] using ih rest
    · right
      rcases parts b List.mem_cons_self with yes | rfl
      · exact absurd yes digit
      · exact ⟨xs, rest, by simp⟩

/-- Digits and points before a character that continues no numeral. -/
theorem unsigned?_eq_none {xs : List Char} {c : Char} (ys : List Char)
    (parts : ∀ b ∈ xs, b.isDigit = true ∨ b = '.') (digit : c.isDigit = false) (point : c ≠ '.')
    (mark : c ≠ 'e' ∧ c ≠ 'E') (negative : Bool) :
    unsigned? negative (xs ++ c :: ys) = none := by
  have stops := exponent?_eq_none mark
  have pointStops := exponent?_eq_none (c := '.') (by decide)
  rcases dropWhile_digits ys parts digit with rest | ⟨zs, points, rest⟩
  · simp only [unsigned?, rest]
    split
    · next h => exact absurd (List.cons.inj h).1 point
    · simp [stops]
  · rcases dropWhile_digits ys points digit with tail | ⟨vs, -, tail⟩
    · simp [unsigned?, rest, tail, stops]
    · simp [unsigned?, rest, tail, pointStops]

/-- A text whose first character begins no numeral. -/
theorem ofText?_eq_none {c : Char} (cs : List Char) (digit : c.isDigit = false) (point : c ≠ '.')
    (minus : c ≠ '-') (plus : c ≠ '+') : ofText? (c :: cs) = none := by
  have sign : signed (c :: cs) = (false, c :: cs) := by
    unfold signed
    split
    · next h => exact absurd (List.cons.inj h).1 minus
    · next h => exact absurd (List.cons.inj h).1 plus
    · rfl
  rw [ofText?, sign]
  have whole : (c :: cs).takeWhile Char.isDigit = [] := by simp [digit]
  have rest : (c :: cs).dropWhile Char.isDigit = c :: cs := by simp [digit]
  simp only [unsigned?, whole, rest]
  split
  · next h => exact absurd (List.cons.inj h).1 point
  · rfl

end Numeral

namespace Reading

open Text Scan Nesting Formula

theorem keyword?_eq_none_of_head {c : Char} (h : isWordPart c = false) (cs : List Char) :
    keyword? (c :: cs) = none := by
  rw [Option.eq_none_iff_forall_not_mem]
  intro keyword found
  obtain ⟨before, rest, word, same⟩ := keyword?_eq_some_iff.mp found
  obtain ⟨d, ds, rfl, -⟩ := word.head?
  have first : isWordPart d = true := word.isWordPart d List.mem_cons_self
  obtain rfl : c = d := (List.cons.inj same).1
  rw [h] at first
  cases first

theorem keyword?_eq_none_of_not_mem {cs : List Char} (h : '(' ∉ cs) : keyword? cs = none := by
  rw [Option.eq_none_iff_forall_not_mem]
  intro keyword found
  obtain ⟨before, rest, -, rfl⟩ := keyword?_eq_some_iff.mp found
  exact h (by simp)

/-- An operator before the first opening parenthesis. -/
theorem keyword?_eq_none_of_operator {w : List Char} (h : '(' ∉ w) (op : Operator)
    (ys : List Char) : keyword? (w ++ op.symbol :: ys) = none := by
  have noParen : op.symbol ≠ '(' := by cases op <;> decide
  have noWord : isWordPart op.symbol = false := by cases op <;> rfl
  rw [Option.eq_none_iff_forall_not_mem]
  intro keyword found
  obtain ⟨before, rest, word, same⟩ := keyword?_eq_some_iff.mp found
  rcases append_cons_cases same with ⟨-, paren, -⟩ | ⟨ms, rfl⟩ | ⟨ms, rfl, -⟩
  · exact noParen paren
  · have part : isWordPart op.symbol = true := word.isWordPart op.symbol (by simp)
    rw [noWord] at part
    cases part
  · exact h (by simp)

/-- A word for an infinity or for no number denotes nothing finite. -/
theorem number?_eq_none {cs : List Char} (h : Numeral.ofText? cs = none) : number? cs = none := by
  rw [number?, Binary64.ofText?, h]
  dsimp only
  split
  · rfl
  · split <;> rfl

theorem isOperator_eq_false_of_identifier {cs : List Char}
    (h : isSpreadsheetName cs = true ∨ isIdentifier cs = true) :
    ∀ c ∈ cs, isOperator c = false := by
  intro c hc
  rcases h with h | h
  · simp only [isSpreadsheetName, isNumbered, Bool.and_eq_true] at h
    have digits := List.all_eq_true.mp h.2
    rw [← List.takeWhile_append_dropWhile (p := isColumnLetter) (l := cs)] at hc
    rcases List.mem_append.mp hc with hc | hc
    · exact isOperator_eq_false_of (List.all_eq_true.mp List.all_takeWhile c hc) (by decide)
    · exact isOperator_eq_false_of (digits c hc) (by decide)
  · obtain ⟨-, letters⟩ := Bool.and_eq_true_iff.mp h
    exact isOperator_eq_false_of (List.all_eq_true.mp letters c hc) (by decide)

/-- A text with an operator is no name, whatever names are known. -/
theorem leaf?_eq_none {known : Registry} (names : known.WithoutOperators) {cs : List Char}
    (operator : ∃ c ∈ cs, isOperator c = true) (quoted : quotedInterior cs = none)
    (bracketed : wrappedInterior .bracket cs = none) (number : Numeral.ofText? cs = none) :
    leaf? known cs = none := by
  obtain ⟨c, hc, shown⟩ := operator
  have hidden : ∀ {p : Prop}, isOperator c = false → p := by
    intro p h
    rw [shown] at h
    cases h
  refine leaf?_eq_none_iff.mpr ⟨quoted, bracketed, number?_eq_none number, ?_, ?_, ?_⟩
  · rw [Bool.eq_false_iff]
    intro found
    have mem : String.ofList cs ∈ known.names := by simpa [Registry.contains] using found
    exact hidden (names _ mem c (by simpa using hc))
  · rw [Bool.eq_false_iff]
    intro found
    exact hidden (isOperator_eq_false_of_identifier (.inl found) c hc)
  · rw [Bool.eq_false_iff]
    intro found
    exact hidden (isOperator_eq_false_of_identifier (.inr found) c hc)

theorem quotedInterior_eq_none_of_head {α : Type} [Depth α] {c : Char} (h : isQuote c = false)
    (cs : List Char) : quotedInterior (c :: cs) α = none := by
  simp [quotedInterior, h]

theorem wrappedInterior_eq_none_of_head {α : Type} [Depth α] {d : Delimiter} {c : Char}
    (h : c ≠ d.opening) (cs : List Char) : wrappedInterior d (c :: cs) α = none := by
  rw [wrappedInterior, if_neg fun ends => h ends.1]

theorem outline_of_leaf {known : Registry} {cs : List Char} {f : Formula}
    (keyword : keyword? cs = none) (leaf : leaf? known cs = some f) :
    outline known cs = .leaf f := by
  rw [outline, keyword]
  simp only [leaf]

theorem leaf?_of_quoted {known : Registry} {cs interior : List Char}
    (h : quotedInterior cs = some interior) :
    leaf? known cs = some (.text (String.ofList interior)) := by
  rw [leaf?, h]

theorem leaf?_of_bracketed {known : Registry} {cs interior : List Char}
    (quoted : quotedInterior cs = none) (h : wrappedInterior .bracket cs = some interior) :
    leaf? known cs = some (cellNamed cs) := by
  rw [leaf?, quoted, h]
  rfl

theorem outline_bracketed (known : Registry) {cs : List Char}
    (plain : ∀ c ∈ cs, isPlain c = true) :
    outline known ('[' :: cs ++ [']']) = .leaf (cellNamed ('[' :: cs ++ [']'])) := by
  apply outline_of_leaf (keyword?_eq_none_of_head rfl _)
  have quoted : quotedInterior ('[' :: cs ++ [']']) = none := quotedInterior_eq_none_of_head rfl _
  have wrapped : wrappedInterior .bracket ('[' :: cs ++ [']']) = some cs :=
    wrappedInterior_bracket plain []
  exact leaf?_of_bracketed quoted wrapped

theorem outline_name (known : Registry) {cs : List Char} (h : CleanName cs) :
    outline known cs = .leaf (cellNamed cs) := by
  rcases h with ⟨inside, rfl, plain⟩ | ⟨ne, -, parts, start⟩
  · exact outline_bracketed known plain
  · obtain ⟨c, cs, rfl⟩ := List.exists_cons_of_ne_nil ne
    obtain ⟨digit, point⟩ := start c rfl
    have part := fun d hd => isNamePart_iff.mp (parts d hd)
    obtain ⟨plain, operator, -⟩ := part c List.mem_cons_self
    have notSign : ∀ op : Operator, c ≠ op.symbol := by
      rintro op rfl
      cases op <;> cases operator
    have notQuote : isQuote c = false := by
      simp only [isPlain, Bool.and_eq_true, Bool.not_eq_true'] at plain
      exact plain.1.1.1.1
    have notOpening : ∀ d : Delimiter, c ≠ d.opening := by
      rintro d rfl
      cases d <;> cases plain
    have keyword : keyword? (c :: cs) = none := by
      apply keyword?_eq_none_of_not_mem
      intro mem
      cases (part _ mem).1
    have number := number?_eq_none
      (Numeral.ofText?_eq_none cs digit point (notSign .subtract) (notSign .add))
    have surface : hasTopLevelOperator (c :: cs) = false := by
      rw [hasTopLevelOperator_eq, List.any_eq_false]
      intro d hd
      simp [(part d (surface_subset _ _ hd)).2.1]
    rw [outline, keyword]
    simp only [leaf?, quotedInterior_eq_none_of_head notQuote, number,
      wrappedInterior_eq_none_of_head (notOpening .bracket), Option.isSome_none]
    cases known.contains (String.ofList (c :: cs)) || isSpreadsheetName (c :: cs) ||
      isIdentifier (c :: cs) with
    | true => rfl
    | false =>
      simp [surface, groupingOutline, wrappedInterior_eq_none_of_head (notOpening .paren)]

theorem outline_text (known : Registry) {cs : List Char}
    (quotes : ∀ c ∈ cs, isQuote c = false) :
    outline known ('"' :: cs ++ ['"']) = .leaf (.text (String.ofList cs)) := by
  have fixed : ∀ c ∈ cs, (start.step '"').step c = start.step '"' :=
    fun c hc => step_of_quoted rfl (quotes c hc)
  have surface : hasTopLevelOperator ('"' :: cs ++ ['"']) = false := by
    rw [hasTopLevelOperator_eq, surface_span rfl fixed rfl (by decide)]
    rfl
  apply outline_of_leaf (keyword?_eq_none_of_head rfl _)
  have quoted : quotedInterior ('"' :: cs ++ ['"']) = some cs := by
    rw [List.cons_append] at surface ⊢
    simp [quotedInterior, surface, isQuote]
  exact leaf?_of_quoted quoted

theorem outline_number (known : Registry) {x : Binary64} (finite : x.isFinite = true) :
    outline known x.toText =
      .leaf (.number (if x.isZero then .zero false else x)) := by
  have number : number? x.toText = some (if x.isZero then .zero false else x) := by
    rw [number?, Binary64.ofText?_toText finite, Option.filter_some, if_pos]
    split
    · rfl
    · exact finite
  have leads : quotedInterior x.toText = none ∧ wrappedInterior .bracket x.toText = none := by
    obtain ⟨c, rest, text⟩ := List.exists_cons_of_ne_nil (Binary64.toText_ne_nil finite)
    have ne : ∀ d : Char, d.isDigit = false → d ≠ '.' → d ≠ '-' → c ≠ d := by
      rintro d digit point minus rfl
      exact Binary64.not_mem_toText finite digit point minus (text ▸ List.mem_cons_self)
    have noQuote : isQuote c = false := by
      simp [isQuote, ne '"' rfl (by decide) (by decide), ne '\'' rfl (by decide) (by decide)]
    rw [text]
    exact ⟨quotedInterior_eq_none_of_head noQuote rest,
      wrappedInterior_eq_none_of_head (ne '[' rfl (by decide) (by decide)) rest⟩
  apply outline_of_leaf
  · exact keyword?_eq_none_of_not_mem
      (Binary64.not_mem_toText finite rfl (by decide) (by decide))
  · simp [leaf?, leads.1, leads.2, number]

/-- A call is outlined by its arguments, whatever follows it. -/
theorem outline_call (known : Registry) {keyword : Keyword} {word content : List Char}
    (head : IsWord keyword word) (balanced : Balanced content) (rest : List Char) :
    outline known (word ++ '(' :: content ++ ')' :: rest) =
      callOutline keyword (.ok (splitTopLevel ',' content)) := by
  have found : keyword? (word ++ '(' :: content ++ ')' :: rest) = some keyword :=
    keyword?_eq_some_iff.mpr ⟨word, content ++ ')' :: rest, head, by simp⟩
  rw [outline_of_keyword found, callArguments, splitCall_of_balanced head.not_mem_paren balanced]

/-- The text begins neither as a call nor as a numeral and does not stand in brackets. -/
structure Unrecognised (cs : List Char) : Prop where
  keyword : keyword? cs = none
  bracketed : wrappedInterior .bracket cs = none
  number : Numeral.ofText? cs = none

theorem quotedInterior_eq_none_of_operator {cs : List Char} (h : hasTopLevelOperator cs = true) :
    quotedInterior cs = none := by
  cases cs with
  | nil => rfl
  | cons c cs => simp [quotedInterior, h]

section

variable {known : Registry} (names : known.WithoutOperators) {inCall : Bool} {p : List Char}
  {s : Operator × List Char} {more : List (Operator × List Char)}

theorem exists_operator (p : List Char) (s : Operator × List Char)
    (more : List (Operator × List Char)) :
    ∃ c ∈ p ++ links (s :: more), isOperator c = true := by
  refine ⟨s.1.symbol, by simp [links], ?_⟩
  cases s.1 <;> rfl

include names

/-- A chain in parentheses is a group and nothing else. -/
theorem outline_chain (first : Loose inCall p) (rest : ∀ t ∈ s :: more, Loose inCall t.2) :
    outline known ('(' :: (p ++ links (s :: more)) ++ [')']) =
      .inside (p ++ links (s :: more)) := by
  have closed := closed_interior first rest
  have surface : hasTopLevelOperator ('(' :: (p ++ links (s :: more)) ++ [')']) = false := by
    rw [hasTopLevelOperator_eq, closed.surface_wrap]
    rfl
  obtain ⟨c, hc, shown⟩ := exists_operator p s more
  have operator : ∃ c ∈ '(' :: (p ++ links (s :: more)) ++ [')'], isOperator c = true :=
    ⟨c, List.mem_append_left _ (List.mem_cons_of_mem _ hc), shown⟩
  have leaf := leaf?_eq_none names operator (quotedInterior_eq_none_of_head rfl _)
    (wrappedInterior_eq_none_of_head (by decide) _)
    (Numeral.ofText?_eq_none _ rfl (by decide) (by decide) (by decide))
  have keyword : keyword? ('(' :: (p ++ links (s :: more)) ++ [')']) = none :=
    keyword?_eq_none_of_head rfl _
  rw [outline, keyword, leaf, surface, groupingOutline, closed.wrappedInterior_wrap]
  rfl

/-- Operands and operators that no rule before the one for chains takes. -/
theorem outline_interior (first : Operand p) (rest : ∀ t ∈ s :: more, Operand t.2)
    (shut : Unrecognised (trim (p ++ links (s :: more)))) :
    outline known (trim (p ++ links (s :: more))) =
      .chain ((p :: (s :: more).map (·.2)).map trim) ((s :: more).map (·.1)) := by
  have operator : hasTopLevelOperator (trim (p ++ links (s :: more))) = true := by
    rw [hasTopLevelOperator_trim]
    exact hasTopLevelOperator_links first
  have shown : ∃ c ∈ trim (p ++ links (s :: more)), isOperator c = true := by
    rw [hasTopLevelOperator_eq, List.any_eq_true] at operator
    obtain ⟨c, hc, shown⟩ := operator
    exact ⟨c, surface_subset _ _ hc, shown⟩
  have leaf := leaf?_eq_none names shown (quotedInterior_eq_none_of_operator operator)
    shut.bracketed shut.number
  rw [outline, shut.keyword, leaf, operator, chainOutline, ofText_trim, ofText_links first rest]
  simp

end

section

variable {after : List Char} (blank : ∀ c ∈ after, isBlank c = true) (op : Operator)
  (ys : List Char)

include blank

/-- Digits and points end before an operator, with blanks before it or not. -/
theorem unsigned?_before_operator {cs : List Char}
    (parts : ∀ b ∈ cs, b.isDigit = true ∨ b = '.') (negative : Bool) :
    Numeral.unsigned? negative (cs ++ (after ++ op.symbol :: ys)) = none := by
  cases after with
  | nil =>
    have other : op.symbol.isDigit = false ∧ op.symbol ≠ '.' ∧ op.symbol ≠ 'e' ∧
        op.symbol ≠ 'E' := by
      cases op <;> decide
    exact Numeral.unsigned?_eq_none ys parts other.1 other.2.1 other.2.2 negative
  | cons d after =>
    have dark := blank d List.mem_cons_self
    have notMark : d ≠ '.' ∧ d ≠ 'e' ∧ d ≠ 'E' := by
      refine ⟨?_, ?_, ?_⟩ <;>
        · rintro rfl
          cases dark
    have notDigit : d.isDigit = false := by
      rw [Bool.eq_false_iff]
      intro digit
      rw [isBlank_eq_false_of_isDigit digit] at dark
      cases dark
    exact Numeral.unsigned?_eq_none _ parts notDigit notMark.1 notMark.2 negative

/-- Numeral, point and sign belong to numbers, and a number ends before an operator. -/
theorem number_unrecognised {x : Binary64} (finite : x.isFinite = true) :
    Unrecognised (x.toText ++ after ++ op.symbol :: ys) := by
  have noParen : '(' ∉ x.toText := Binary64.not_mem_toText finite rfl (by decide) (by decide)
  have noBracket : '[' ∉ x.toText := Binary64.not_mem_toText finite rfl (by decide) (by decide)
  refine ⟨?_, ?_, ?_⟩
  · apply keyword?_eq_none_of_operator
    intro mem
    rcases List.mem_append.mp mem with mem | mem
    · exact noParen mem
    · cases blank _ mem
  · obtain ⟨c, rest, text⟩ := List.exists_cons_of_ne_nil (Binary64.toText_ne_nil finite)
    rw [text] at noBracket ⊢
    exact wrappedInterior_eq_none_of_head (List.ne_of_not_mem_cons noBracket).symm _
  · obtain ⟨sign, c, rest, text, signs, digit, others⟩ := Binary64.toText_shape finite
    have stops := unsigned?_before_operator blank op ys
      (List.forall_mem_cons.mpr ⟨.inl digit, others⟩)
    rw [text, List.append_assoc]
    rcases signs with rfl | rfl
    · have sign : Numeral.signed (c :: rest ++ (after ++ op.symbol :: ys)) =
          (false, c :: rest ++ (after ++ op.symbol :: ys)) := Numeral.signed_of_isDigit digit _
      rw [List.nil_append, Numeral.ofText?, sign]
      exact stops false
    · exact stops true

/-- No rule before the one for chains takes a clean operand other than a call with an operator after
it. -/
theorem unrecognised {inCall : Bool} {x : Formula} (clean : x.Clean inCall)
    (other : x.isCall = false) {w : List Char} (laid : LaidOut x w) :
    Unrecognised (w ++ after ++ op.symbol :: ys) := by
  have byHead : ∀ c cs, isWordPart c = false → c ≠ '[' → c.isDigit = false → c ≠ '.' → c ≠ '-' →
      c ≠ '+' → Unrecognised (c :: cs) := by
    intro c cs word bracket digit point minus plus
    exact ⟨keyword?_eq_none_of_head word cs, wrappedInterior_eq_none_of_head bracket cs,
      Numeral.ofText?_eq_none cs digit point minus plus⟩
  cases laid with
  | cell name =>
    rcases clean with ⟨inside, text, plain⟩ | ⟨ne, -, parts, start⟩
    · have wrapped := wrappedInterior_bracket plain (after ++ op.symbol :: ys)
      have shape : name.toList ++ after ++ op.symbol :: ys =
          '[' :: inside ++ ']' :: (after ++ op.symbol :: ys) := by
        simp [text]
      rw [List.isEmpty_eq_false_iff.mpr (by simp), if_neg Bool.false_ne_true] at wrapped
      rw [shape]
      exact ⟨keyword?_eq_none_of_head rfl _, wrapped,
        Numeral.ofText?_eq_none _ rfl (by decide) (by decide) (by decide)⟩
    · obtain ⟨c, cs, hname⟩ := List.exists_cons_of_ne_nil ne
      rw [hname] at parts start
      obtain ⟨digit, point⟩ := start c rfl
      have part := fun d hd => isNamePart_iff.mp (parts d hd)
      obtain ⟨plain, operator, -⟩ := part c List.mem_cons_self
      have notSign : ∀ op : Operator, c ≠ op.symbol := by
        rintro op rfl
        cases op <;> cases operator
      rw [hname]
      refine ⟨keyword?_eq_none_of_operator ?_ op ys, wrappedInterior_eq_none_of_head ?_ _,
        Numeral.ofText?_eq_none _ digit point (notSign .subtract) (notSign .add)⟩
      · intro mem
        rcases List.mem_append.mp mem with mem | mem
        · cases (part _ mem).1
        · cases blank _ mem
      · rintro rfl
        cases plain
  | number value => exact number_unrecognised blank op ys clean
  | text value => exact byHead _ _ rfl (by decide) rfl (by decide) (by decide) (by decide)
  | chain => exact byHead _ _ rfl (by decide) rfl (by decide) (by decide) (by decide)
  | conditional | lookup | noArguments => cases other

end

end Reading

end CellFormula
