import CellFormula.Proofs.Alike
import CellFormula.Proofs.Shapes

/-!
# What reading loses

A tree weighs, as written, at most what the text weighed that it was read from: what is put in is
light, and each heavy character that is written was read.
-/

namespace CellFormula

theorem Binary64.negative_ofParts (negative : Bool) (m : Nat) (e : Int) :
    (ofParts negative m e).negative = negative := by
  unfold ofParts
  by_cases carry : m = 2 ^ 53
  all_goals
    simp only [carry, if_true, if_false]
    split
    · rfl
    · split <;> rfl

namespace Numeral

theorem negative_round (n : Numeral) : n.round.negative = n.negative := by
  unfold round
  dsimp only
  split
  · rfl
  · split
    · rfl
    · unfold Binary64.ofRatio
      split
      · rfl
      · exact Binary64.negative_ofParts _ _ _

theorem negative_unsigned? {negative : Bool} {cs : List Char} {n : Numeral}
    (h : unsigned? negative cs = some n) : n.negative = negative := by
  unfold unsigned? at h
  dsimp only at h
  split at h
  all_goals
    dsimp only at h
    split at h
    · cases h
    · obtain ⟨e, -, rfl⟩ := Option.map_eq_some_iff.mp h
      rfl

end Numeral

namespace Reading

open Text Scan Nesting Formula

theorem weight_toText {x : Binary64} (finite : x.isFinite = true) :
    weight x.toText = if x.negative && !x.isZero then 1 else 0 := by
  by_cases zero : x.isZero = true
  · rw [Binary64.toText_of_isZero zero, zero]
    cases x.negative <;> rfl
  · have nonzero : x.isZero = false := by simpa using zero
    obtain ⟨c, rest, plain, digit, others⟩ :=
      Decimal.plain_shape (Binary64.wellFormed_shortest nonzero .upward).1
    have light : weight (c :: rest) = 0 := by
      rw [weight_eq_zero_iff, List.forall_mem_cons]
      exact ⟨isLight_of_isDigit (.inl digit), fun b hb => isLight_of_isDigit (others b hb)⟩
    rw [Binary64.toText_of_not_isZero finite nonzero, plain, weight_append, light, nonzero]
    cases x.negative <;> rfl

/-- A negative number is read from nothing lighter than its minus. -/
theorem weight_number {cs : List Char} {x : Binary64} (h : number? cs = some x) :
    weight x.toText ≤ weight cs := by
  obtain ⟨h, finite⟩ := Option.filter_eq_some_iff.mp h
  rw [weight_toText finite]
  split
  · next negative =>
    have negative : x.negative = true := (Bool.and_eq_true_iff.mp negative).1
    have sign : (Numeral.signed cs).1 = true := by
      unfold Binary64.ofText? at h
      split at h
      · next n hn =>
        cases h
        have kept : n.negative = (Numeral.signed cs).1 := Numeral.negative_unsigned? hn
        rw [← kept, ← Numeral.negative_round, negative]
      · dsimp only at h
        split at h
        · cases h
          cases finite
        · split at h
          · cases h
            cases finite
          · cases h
    unfold Numeral.signed at sign
    split at sign
    · next rest =>
      rw [weight_heavy rfl]
      omega
    · cases sign
    · cases sign
  · exact Nat.zero_le _

theorem isLight_of_isWordPart {c : Char} (h : isWordPart c = true) : isLight c = false := by
  rw [Bool.eq_false_iff]
  intro light
  rcases Bool.or_eq_true_iff.mp h with letter | blank
  · simp only [isLight, isQuote, Bool.or_eq_true, beq_iff_eq] at light
    rcases light with ((((digit | rfl) | rfl) | rfl) | rfl) | rfl | rfl
    · rw [isDigit_eq_false_of_isAlpha letter] at digit
      cases digit
    all_goals cases letter
  · rw [isBlank_of_isLight light] at blank
    cases blank

theorem weight_word {keyword : Keyword} {word : List Char} (head : IsWord keyword word) :
    keyword.name.length ≤ weight word := by
  have heavy : weight word = word.length := by
    rw [weight, List.countP_eq_length]
    intro c hc
    rw [isLight_of_isWordPart (head.isWordPart c hc)]
    rfl
  rw [heavy]
  cases keyword with
  | conditional =>
    obtain ⟨letters, blanks, rfl, same, -⟩ := head
    have two : letters.length = 2 := length_of_sameWord same
    rw [List.length_append, two]
    exact Nat.le_add_right 2 _
  | lookup =>
    have six : word.length = 6 := length_of_sameWord head
    rw [six]
    exact Nat.le_refl 6

theorem weight_call_le {keyword : Keyword} {cs word content rest : List Char}
    (head : IsWord keyword word) (whole : cs = word ++ '(' :: content ++ ')' :: rest) :
    keyword.name.length + weight content ≤ weight cs := by
  have letters := weight_word head
  rw [whole, List.append_assoc, weight_append, List.cons_append, weight_light rfl, weight_append]
  omega

/-- Of a conditional, its word and two commas weigh something besides the arguments. -/
theorem weight_conditional_le {cs word content rest test t f : List Char}
    {more : List (List Char)} (head : IsWord .conditional word)
    (whole : cs = word ++ '(' :: content ++ ')' :: rest)
    (pieces : splitTopLevel ',' content = test :: t :: f :: more) :
    weight test + weight t + weight f + 4 ≤ weight cs := by
  have call := weight_call_le head whole
  have two : Keyword.conditional.name.length = 2 := rfl
  have budget := weights_splitTopLevel content
  rw [pieces] at budget
  simp only [weights_cons, List.length_cons] at budget
  omega

/-- Every spelling of a comparator weighs the same. -/
theorem weight_spelling {symbol : List Char} {comparator : Comparator}
    (h : (symbol, comparator) ∈ Comparator.spellings) (spelling : EqualitySpelling) :
    weight symbol = weight (spelling.write comparator) := by
  have each : ∀ s ∈ Comparator.spellings, ∀ spelling : EqualitySpelling,
      weight s.1 = weight (spelling.write s.2) := by
    intro s hs spelling
    simp only [Comparator.spellings, List.mem_cons, List.not_mem_nil, or_false] at hs
    rcases hs with rfl | rfl | rfl | rfl | rfl | rfl | rfl
    all_goals cases spelling <;> rfl
  exact each _ h spelling

theorem weight_comparison {test left right : List Char} {comparator : Comparator}
    (h : comparison? test = some (comparator, left, right)) (spelling : EqualitySpelling) :
    weight test = weight left + weight (spelling.write comparator) + weight right := by
  obtain ⟨symbol, mem, found⟩ := comparison?_cases h
  rw [eq_append_of_findFrom found, weight_append, weight_append, weight_spelling mem spelling]

section

variable (spelling : EqualitySpelling)

theorem writeChain_eq_glue {operators : List Operator} {operands : List Formula}
    (fits : operators.length + 1 = operands.length) : writeChain spelling operators operands =
      glue (operators.map Operator.symbol) (operands.map (write spelling)) := by
  cases operands with
  | nil => cases fits
  | cons x xs =>
    have count : operators.length = xs.length := by simpa using fits
    rw [writeChain_eq count, append_links_eq_glue, List.map_cons]
    congr 1
    · have symbols : (operators.zip (xs.map (write spelling))).map (·.1) = operators :=
        List.map_fst_zip (by simp [count])
      rw [← congrArg (List.map Operator.symbol) symbols, List.map_map]
      rfl
    · rw [List.map_snd_zip (by simp [count])]

theorem weight_write_chain {operators : List Operator} {operands : List Formula}
    (fits : operators.length + 1 = operands.length) :
    weight ((Formula.chain operands (.perPair operators)).write spelling) =
      weights (operands.map (write spelling)) + operators.length := by
  have total := weight_glue (heavy_symbols operators)
    (show _ = (operands.map (write spelling)).length by simpa using fits)
  rw [write_chain, List.cons_append, weight_light rfl, weight_append, Operators.toList,
    writeChain_eq_glue spelling fits, total, List.length_map]
  rfl

theorem weight_write_conditional (comparator : Comparator)
    (left right whenTrue whenFalse : Formula) :
    weight ((Formula.conditional comparator left right whenTrue whenFalse).write spelling) =
      weight (left.write spelling) + weight (spelling.write comparator) +
        weight (right.write spelling) + weight (whenTrue.write spelling) +
          weight (whenFalse.write spelling) + 4 := by
  have word : weight "IF(".toList = 2 := rfl
  have comma : isLight ',' = false := rfl
  have paren : weight [')'] = 0 := rfl
  simp only [write_conditional, weight_append, weight_heavy comma, word, paren]
  omega

theorem weight_write_lookup (arguments : List Formula) :
    weight ((Formula.lookup arguments).write spelling) =
      6 + (weights (arguments.map (write spelling)) + (arguments.length - 1)) := by
  have word : weight "LOOKUP(".toList = 6 := rfl
  have paren : weight [')'] = 0 := rfl
  rw [Formula.lookup, write_lookup, weight_append, weight_append, word, paren, writeArguments_eq]
  cases arguments with
  | nil => rfl
  | cons x xs =>
    have fits : (List.replicate (xs.map (write spelling)).length ',').length + 1 =
        (x.write spelling :: xs.map (write spelling)).length := by simp
    rw [List.map_cons, joined_eq_glue, weight_glue (heavy_commas _) fits]
    simp

theorem weights_write_le {ps : List (List Char)} {fs : List Formula}
    (h : List.Forall₂ (fun p g => weight (g.write spelling) ≤ weight p) ps fs) :
    weights (fs.map (write spelling)) ≤ weights ps := by
  apply weights_le
  rw [List.forall₂_map_left_iff]
  exact h.flip

/-- Reading never puts in a heavy character: a tree weighs no more than its text. -/
theorem Shape.weight_write_le {cs : List Char} {o : Outline} {fs : List Formula} {f : Formula}
    (shape : Shape cs o) (trimmed : Trimmed cs) (build : o.Builds fs f)
    (parts : List.Forall₂ (fun p g => weight (g.write spelling) ≤ weight p) o.parts fs) :
    weight (f.write spelling) ≤ weight cs := by
  cases shape with
  | refused e => cases build
  | quoted q value quote whole =>
    cases build
    rw [whole, write_text, String.toList_ofList, List.cons_append, List.cons_append,
      weight_light rfl, weight_light (isLight_of_isQuote quote), weight_append, weight_append,
      weight_light rfl, weight_light (isLight_of_isQuote quote)]
  | empty whole =>
    cases build
    exact Nat.zero_le _
  | number x value =>
    cases build
    exact weight_number value
  | cell =>
    cases build
    rw [cellNamed, write_cell, String.toList_ofList]
  | group text whole =>
    cases build
    cases parts with
    | cons le _ =>
      rw [whole, List.cons_append, weight_light rfl, weight_append]
      exact Nat.le_trans le (Nat.le_add_right _ _)
  | single text less =>
    cases build
    cases parts with
    | cons le _ => exact Nat.le_trans le (Nat.le_of_lt (less trimmed))
  | chain operators whole count joins =>
    cases build
    have lengths := parts.length_eq
    have trims := weights_map_trim_le (Segments.raw cs)
    have le := weights_write_le spelling parts
    have total := congrArg weight whole
    rw [Outline.parts, List.length_map] at lengths
    rw [Outline.parts] at le
    rw [weight_glue (heavy_symbols operators) (by simp [count]), List.length_map] at total
    rw [weight_write_chain spelling (by omega)]
    omega
  | comparison word content rest head whole pieces sides =>
    cases build
    obtain _ | ⟨hl, _ | ⟨hr, _ | ⟨ht, _ | ⟨hf, _⟩⟩⟩⟩ := parts
    have test := weight_comparison sides spelling
    have budget := weight_conditional_le head whole pieces
    rw [weight_write_conditional]
    omega
  | bare word content rest head whole pieces absent =>
    cases build
    obtain _ | ⟨hl, _ | ⟨ht, _ | ⟨hf, _⟩⟩⟩ := parts
    have budget := weight_conditional_le head whole pieces
    -- The equality and the zero that are put in are both light.
    have zero : weight ((Formula.number (.zero false)).write spelling) = 0 := rfl
    have symbol : weight (spelling.write .equal) = 0 := by cases spelling <;> rfl
    rw [weight_write_conditional]
    omega
  | lookup word content rest head whole =>
    cases build
    have lengths := parts.length_eq
    have call := weight_call_le head whole
    have six : Keyword.lookup.name.length = 6 := rfl
    have budget := weights_splitTopLevel content
    have le := weights_write_le spelling parts
    rw [Outline.parts] at lengths le
    rw [weight_write_lookup]
    cases fs with
    | nil =>
      rw [List.map_nil, weights_nil, List.length_nil]
      omega
    | cons f fs =>
      rw [List.length_cons] at lengths ⊢
      omega

theorem weight_le_of_expression {options : ParseOptions} {levels : Nat} {cs : List Char}
    {f : Formula} (h : expression options levels cs = .ok f) :
    weight (f.write spelling) ≤ weight cs := by
  refine expression_induction (fun levels cs fs f build parts => ?_) h
  have whole := (shape options.known (trim cs)).weight_write_le spelling (trimmed_trim cs)
    build parts
  exact Nat.le_trans whole (weight_trim_le cs)

end

end Reading

end CellFormula
