import CellFormula.Proofs.Weights

/-!
# Shapes of texts

What a text looks like for each outline it can have: the pieces named in the outline, up to the
blanks around them, and what stands between them.
-/

namespace CellFormula

namespace Scan

open Text Nesting

/-- What an operator cuts off holds no operator to cut at. -/
theorem rawSegments_piece (n : Nesting) (blank : Bool) (cs : List Char) :
    rawSegments n blank (rawSegments n blank cs).1 = ((rawSegments n blank cs).1, []) ∧
      ∀ s ∈ (rawSegments n blank cs).2, rawSegments .start true s.2 = (s.2, []) := by
  induction cs generalizing n blank with
  | nil => exact ⟨rfl, by simp [rawSegments]⟩
  | cons c cs ih =>
    cases joins : if (n.step c).isTopLevel && !blank then Operator.ofChar? c else none with
    | some op =>
      have level : n.step c = start := by
        apply isTopLevel_iff.mp
        by_contra deep
        simp [deep] at joins
      obtain ⟨first, rest⟩ := ih (n.step c) true
      rw [level] at joins first rest
      simp only [rawSegments, joins, level]
      refine ⟨trivial, ?_⟩
      intro s hs
      rcases List.mem_cons.mp hs with rfl | hs
      · exact first
      · exact rest s hs
    | none =>
      obtain ⟨first, rest⟩ := ih (n.step c) (blank && isBlank c)
      simp only [rawSegments, joins, first]
      exact ⟨trivial, rest⟩

theorem Segments.solid_of_mem_raw {p cs : List Char} (h : p ∈ Segments.raw cs) :
    (rawSegments .start true p).2 = [] := by
  obtain ⟨first, rest⟩ := rawSegments_piece .start true cs
  rcases List.mem_cons.mp h with rfl | h
  · rw [first]
  · obtain ⟨s, hs, rfl⟩ := List.mem_map.mp h
    rw [rest s hs]

theorem Segments.ofText_eq (cs : List Char) : Segments.ofText cs =
    ⟨dropEmptyLast ((Segments.raw cs).map trim), (rawSegments .start true cs).2.map (·.1)⟩ := rfl

theorem Segments.eq_glue (cs : List Char) :
    cs = glue ((Segments.ofText cs).operators.map Operator.symbol) (Segments.raw cs) := by
  have whole := append_rawSegments .start true cs
  have glued := append_links_eq_glue (rawSegments .start true cs).1 (rawSegments .start true cs).2
  rw [links, whole] at glued
  rw [Segments.ofText_eq, List.map_map]
  exact glued

theorem Segments.length_raw (cs : List Char) :
    (Segments.raw cs).length = (Segments.ofText cs).operators.length + 1 := by
  simp [Segments.raw, Segments.ofText_eq]

end Scan

namespace Reading

open Text Scan Nesting

/-- What a text looks like that has the outline. An outline may name another text to be read
instead, and then that text stands in parentheses or something heavy is left out. -/
inductive Shape (cs : List Char) : Outline → Prop where
  | refused (e : ReadingError) : Shape cs (.refused e)
  | quoted (q : Char) (value : List Char) (quote : isQuote q = true)
    (whole : cs = q :: value ++ [q]) : Shape cs (.leaf (.text (String.ofList value)))
  | empty (whole : cs = []) : Shape cs (.leaf (.text ""))
  | number (x : Binary64) (value : number? cs = some x) : Shape cs (.leaf (.number x))
  | cell : Shape cs (.leaf (cellNamed cs))
  | group (text : List Char) (whole : cs = '(' :: text ++ [')']) : Shape cs (.inside text)
  | single (text : List Char) (less : Trimmed cs → weight text < weight cs) :
    Shape cs (.inside text)
  | chain (operators : List Operator)
    (whole : cs = glue (operators.map Operator.symbol) (Segments.raw cs))
    (count : (Segments.raw cs).length = operators.length + 1) (joins : 1 ≤ operators.length) :
    Shape cs (.chain ((Segments.raw cs).map trim) operators)
  | comparison (word content rest : List Char) {test whenTrue whenFalse : List Char}
    {more : List (List Char)} {comparator : Comparator} {left right : List Char}
    (head : IsWord .conditional word) (whole : cs = word ++ '(' :: content ++ ')' :: rest)
    (pieces : splitTopLevel ',' content = test :: whenTrue :: whenFalse :: more)
    (sides : comparison? test = some (comparator, left, right)) :
    Shape cs (.conditional comparator left (some right) whenTrue whenFalse)
  | bare (word content rest : List Char) {test whenTrue whenFalse : List Char}
    {more : List (List Char)} (head : IsWord .conditional word)
    (whole : cs = word ++ '(' :: content ++ ')' :: rest)
    (pieces : splitTopLevel ',' content = test :: whenTrue :: whenFalse :: more)
    (absent : comparison? test = none) :
    Shape cs (.conditional .equal test none whenTrue whenFalse)
  | lookup (word content rest : List Char) (head : IsWord .lookup word)
    (whole : cs = word ++ '(' :: content ++ ')' :: rest) :
    Shape cs (.lookup (splitTopLevel ',' content))

theorem eq_call {keyword : Keyword} {cs content rest : List Char}
    (found : keyword? cs = some keyword) (split : splitCall cs = some (content, rest)) :
    ∃ word, IsWord keyword word ∧ cs = word ++ '(' :: content ++ ')' :: rest := by
  obtain ⟨word, tail, head, rfl⟩ := keyword?_eq_some_iff.mp found
  obtain ⟨before, none, whole⟩ := eq_append_of_splitCall split
  rw [List.append_assoc, List.cons_append] at whole
  obtain ⟨rfl, rfl⟩ := append_paren_inj head.not_mem_paren none whole
  exact ⟨word, head, by simp⟩

theorem shape_leaf {known : Registry} {cs : List Char} {f : Formula}
    (h : leaf? known cs = some f) : Shape cs (.leaf f) := by
  unfold leaf? at h
  split at h
  · next interior quoted =>
    cases h
    cases cs with
    | nil => cases quoted
    | cons q rest =>
      rw [quotedInterior] at quoted
      split at quoted
      · next quote =>
        cases quoted
        simp only [Bool.and_eq_true, beq_iff_eq] at quote
        refine .quoted q rest.dropLast quote.1.1 ?_
        rw [List.cons_append, List.dropLast_append_getLast? q quote.1.2]
      · cases quoted
  · split at h
    · cases h
      exact .cell
    · split at h
      · next value =>
        cases h
        exact .number _ value
      · split at h
        · cases h
          exact .cell
        · cases h

/-- A single operand of a text with an operator leaves something heavy out. -/
theorem weight_lt_of_headD {cs p : List Char} (trimmed : Trimmed cs)
    (first : (Segments.ofText cs).operands.headD cs = p) (ne : p ≠ cs) :
    weight p < weight cs := by
  subst first
  have whole := append_rawSegments .start true cs
  rw [Segments.ofText_eq, Segments.raw] at ne ⊢
  cases more : (rawSegments .start true cs).2 with
  | nil =>
    rw [more, List.flatMap_nil, List.append_nil] at whole
    rw [more, whole] at ne
    simp only [List.map_nil, List.map_cons, trimmed.trim_eq] at ne
    cases cs <;> exact absurd rfl ne
  | cons s rest =>
    have kept : dropEmptyLast ((((rawSegments .start true cs).1) ::
        (s :: rest).map (·.2)).map trim) = trim (rawSegments .start true cs).1 ::
          dropEmptyLast (((s :: rest).map (·.2)).map trim) := by
      rw [List.map_cons, dropEmptyLast]
      simp
    simp only [kept, List.headD_cons]
    have le := weight_trim_le (rawSegments .start true cs).1
    have total := congrArg weight whole
    rw [more, List.flatMap_cons, weight_append, List.cons_append,
      weight_heavy (isLight_symbol s.1)] at total
    omega

/-- An operator for each pair of operands leaves no empty operand out. -/
theorem operands_of_count {cs : List Char}
    (count : (Segments.ofText cs).operators.length + 1 = (Segments.ofText cs).operands.length) :
    (Segments.ofText cs).operands = (Segments.raw cs).map trim := by
  have raw := Segments.length_raw cs
  have kept : (Segments.ofText cs).operands = dropEmptyLast ((Segments.raw cs).map trim) := rfl
  rw [kept] at count ⊢
  rcases dropEmptyLast_cases ((Segments.raw cs).map trim) with same | less
  · exact same
  · have lengths := congrArg List.length less
    rw [List.length_map, List.length_append, List.length_singleton] at lengths
    omega

theorem Ruled.shape {known : Registry} {cs : List Char} {o : Outline} (h : Ruled known cs o) :
    Shape cs o := by
  cases h with
  | refused e => exact .refused e
  | comparison call cut pieces sides =>
    obtain ⟨word, head, whole⟩ := eq_call call cut
    exact .comparison word _ _ head whole pieces sides
  | bare call cut pieces absent =>
    obtain ⟨word, head, whole⟩ := eq_call call cut
    exact .bare word _ _ head whole pieces absent
  | lookup call cut pieces =>
    subst pieces
    obtain ⟨word, head, whole⟩ := eq_call call cut
    exact .lookup word _ _ head whole
  | leaf _ leaf => exact shape_leaf leaf
  | single _ _ _ few first ne => exact .single _ fun trimmed => weight_lt_of_headD trimmed first ne
  | chain _ _ _ many count cut =>
    have raw := Segments.length_raw cs
    have operands := operands_of_count (by rw [cut]; exact count)
    rw [cut] at raw operands
    dsimp only at raw operands
    have whole := Segments.eq_glue cs
    rw [cut] at whole
    subst operands
    exact .chain _ whole raw (by rw [List.length_map] at many; omega)
  | group _ _ _ wrapped => exact .group _ ((wrappedInterior_eq_some_iff.mp wrapped).1)
  | name _ _ _ _ named =>
    subst named
    split
    · next none => exact .empty (List.isEmpty_iff.mp none)
    · exact .cell

theorem shape (known : Registry) (cs : List Char) : Shape cs (outline known cs) :=
  (ruled known cs).shape

theorem Shape.of_eq {known : Registry} {cs : List Char} {o : Outline}
    (h : outline known cs = o) : Shape cs o :=
  h ▸ shape known cs

/-- What an operator cuts off is no chain itself. -/
theorem outline_ne_chain {known : Registry} {p cs : List Char} (h : p ∈ Segments.raw cs)
    (ps : List (List Char)) (ops : List Operator) : outline known p ≠ .chain ps ops := by
  intro ho
  have solid := Segments.solid_of_mem_raw h
  cases Shape.of_eq ho with
  | chain _ _ count joins =>
    simp only [Segments.raw, solid, List.map_nil, List.length_singleton] at count
    omega

end Reading

end CellFormula
