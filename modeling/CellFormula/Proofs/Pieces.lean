import CellFormula.Proofs.Blanks
import CellFormula.Scan.Split
import CellFormula.Scan.Wrapped

/-!
# Pieces of a cut text

Whatever a cut returns is a contiguous piece of the text, and a proper one as soon as a delimiter or
an operator was taken out.
-/

namespace CellFormula.Scan

open Text

/-- Two cuts of one text are the same cut, or one of them comes first. -/
theorem append_cons_cases {c c' : Char} {xs xs' ys ys' : List Char}
    (h : xs ++ c :: ys = xs' ++ c' :: ys') :
    xs = xs' ∧ c = c' ∧ ys = ys' ∨ (∃ ms, xs' = xs ++ c :: ms) ∨
      ∃ ms, xs = xs' ++ c' :: ms ∧ ys' = ms ++ c :: ys := by
  rcases List.append_eq_append_iff.mp h with ⟨ms, rfl, tail⟩ | ⟨ms, rfl, tail⟩
  · cases ms with
    | nil => exact .inl ⟨by simp, List.cons.inj tail⟩
    | cons d ms =>
      obtain ⟨rfl, -⟩ := List.cons.inj tail
      exact .inr (.inl ⟨ms, rfl⟩)
  · cases ms with
    | nil =>
      obtain ⟨rfl, rfl⟩ := List.cons.inj tail
      exact .inl ⟨by simp, rfl, rfl⟩
    | cons d ms =>
      obtain ⟨rfl, rest⟩ := List.cons.inj tail
      exact .inr (.inr ⟨ms, rfl, rest⟩)

theorem mem_of_mem_dropEmptyLast {t : List Char} {ts : List (List Char)}
    (h : t ∈ dropEmptyLast ts) : t ∈ ts := by
  induction ts using dropEmptyLast.induct with
  | case1 => exact h
  | case2 => simp [dropEmptyLast] at h
  | case3 u us hne ih =>
    rw [dropEmptyLast] at h
    · rcases List.mem_cons.mp h with rfl | h
      · exact List.mem_cons_self
      · exact List.mem_cons_of_mem _ (ih h)
    · exact hne

theorem dropEmptyLast_cons {t : List Char} (h : t ≠ []) (ts : List (List Char)) :
    dropEmptyLast (t :: ts) = t :: dropEmptyLast ts := by
  rw [dropEmptyLast]
  rintro rfl
  contradiction

theorem dropEmptyLast_cases (ts : List (List Char)) :
    dropEmptyLast ts = ts ∨ ts = dropEmptyLast ts ++ [[]] := by
  induction ts using dropEmptyLast.induct with
  | case1 => exact .inl rfl
  | case2 => exact .inr rfl
  | case3 t ts ne ih =>
    rw [dropEmptyLast]
    · rcases ih with ih | ih
      · exact .inl (by rw [ih])
      · exact .inr (by rw [List.cons_append, ← ih])
    · exact ne

theorem infix_joined {separator p : List Char} {ps : List (List Char)} (h : p ∈ ps) :
    p <:+: joined separator ps := by
  induction ps using joined.induct with
  | case1 => cases h
  | case2 q => simp [joined, List.mem_singleton.mp h]
  | case3 q qs hne ih =>
    rw [joined]
    · rcases List.mem_cons.mp h with rfl | h
      · exact ⟨[], separator ++ joined separator qs, by simp⟩
      · exact (ih h).trans (List.suffix_append _ _).isInfix
    · exact hne

theorem infix_of_mem_splitTopLevel {separator : Char} {p cs : List Char}
    (h : p ∈ splitTopLevel separator cs) : p <:+: cs := by
  obtain ⟨q, hq, rfl⟩ := List.mem_map.mp (mem_of_mem_dropEmptyLast h)
  have piece : q <:+: joined [separator] _ := infix_joined hq
  rw [joined_rawPieces] at piece
  exact (trim_isInfix q).trans piece

theorem infix_of_findTopLevel {needle cs before rest : List Char}
    (h : findTopLevel needle cs = some (before, rest)) : before <:+: cs ∧ rest <:+: cs := by
  rw [eq_append_of_findFrom h]
  exact ⟨⟨[], needle ++ rest, by simp⟩, (List.suffix_append _ _).isInfix⟩

theorem byteLength_splitCall {cs inside rest : List Char}
    (h : splitCall cs = some (inside, rest)) : byteLength inside < byteLength cs := by
  obtain ⟨before, -, rfl⟩ := eq_append_of_splitCall h
  have := Char.utf8Size_pos '('
  simp only [byteLength_append, byteLength_cons]
  omega

theorem byteLength_wrappedInterior {d : Delimiter} {cs inside : List Char}
    (h : wrappedInterior d cs = some inside) : byteLength inside < byteLength cs := by
  obtain ⟨rfl, -⟩ := wrappedInterior_eq_some_iff.mp h
  have := d.opening.utf8Size_pos
  simp only [byteLength_append, byteLength_cons]
  omega

/-- The pieces that the joining operators of a text leave, as they stand. -/
def Segments.raw (cs : List Char) : List (List Char) :=
  (rawSegments .start true cs).1 :: (rawSegments .start true cs).2.map (·.2)

theorem Segments.mem_raw {p cs : List Char} (h : p ∈ (Segments.ofText cs).operands) :
    ∃ q ∈ Segments.raw cs, trim q = p :=
  List.mem_map.mp (mem_of_mem_dropEmptyLast h)

theorem infix_flatMap_rawSegments {op : Operator} {p : List Char}
    {more : List (Operator × List Char)} (h : (op, p) ∈ more) :
    op.symbol :: p <:+: more.flatMap fun s => s.1.symbol :: s.2 := by
  obtain ⟨before, after, rfl⟩ := List.append_of_mem h
  rw [List.flatMap_append, List.flatMap_cons, ← List.append_assoc]
  exact (List.infix_append _ _ _)

theorem Segments.infix_of_mem {p cs : List Char} (h : p ∈ (Segments.ofText cs).operands) :
    p <:+: cs := by
  obtain ⟨q, hq, rfl⟩ := Segments.mem_raw h
  apply (trim_isInfix q).trans
  have whole := append_rawSegments .start true cs
  rw [Segments.raw] at hq
  rcases List.mem_cons.mp hq with rfl | hq
  · exact ⟨[], _, by simpa using whole⟩
  · obtain ⟨⟨op, _⟩, hmem, rfl⟩ := List.mem_map.mp hq
    have tail := (List.suffix_cons op.symbol _).isInfix.trans (infix_flatMap_rawSegments hmem)
    have suffix := List.suffix_append (rawSegments .start true cs).1
      ((rawSegments .start true cs).2.flatMap fun s => s.1.symbol :: s.2)
    rw [whole] at suffix
    exact tail.trans suffix.isInfix

/-- Once an operator joins two operands, each is shorter than the text. -/
theorem Segments.byteLength_lt_of_mem {p cs : List Char} (h : p ∈ (Segments.ofText cs).operands)
    (joins : (Segments.ofText cs).operators ≠ []) : byteLength p < byteLength cs := by
  obtain ⟨q, hq, rfl⟩ := Segments.mem_raw h
  apply Nat.lt_of_le_of_lt (byteLength_trim_le q)
  have whole := congrArg byteLength (append_rawSegments .start true cs)
  rw [byteLength_append] at whole
  rw [Segments.raw] at hq
  rcases List.mem_cons.mp hq with rfl | hq
  · cases hm : (rawSegments .start true cs).2 with
    | nil => exact absurd (by simp [Segments.ofText, hm]) joins
    | cons s more =>
      have := s.1.symbol.utf8Size_pos
      simp only [hm, List.flatMap_cons, List.cons_append, byteLength_cons] at whole
      omega
  · obtain ⟨⟨op, p⟩, hmem, rfl⟩ := List.mem_map.mp hq
    have le := byteLength_le_of_sublist (infix_flatMap_rawSegments hmem).sublist
    have := op.symbol.utf8Size_pos
    rw [byteLength_cons] at le
    dsimp only
    omega

end CellFormula.Scan
