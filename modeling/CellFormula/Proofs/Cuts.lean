import CellFormula.Proofs.Composition
import CellFormula.Proofs.TreeSizes

/-!
# Cuts

Every cut is at top level, where the nesting is that of the start of a text. So the scan begins anew
after each cut: the scan of a text is the scans of its raw pieces, with what was cut out between
them. No piece depends on the text around it, and a piece is not cut again.
-/

namespace CellFormula

theorem Nesting.scan_cons (n : Nesting) (c : Char) (cs : List Char) :
    n.scan (c :: cs) = (c, n.step c) :: (n.step c).scan cs := rfl

theorem Nesting.mem_surface_iff {n : Nesting} {c : Char} {cs : List Char} :
    c ∈ n.surface cs ↔ ∃ s ∈ n.scan cs, s.2.isTopLevel = true ∧ s.1 = c := by
  induction cs generalizing n with
  | nil => simp [surface, scan]
  | cons d cs ih =>
    rw [surface_cons, scan_cons, List.exists_mem_cons_iff, ← ih]
    by_cases top : (n.step d).isTopLevel = true
    · simp [top, eq_comm]
    · simp [top]

namespace Scan

open Text Nesting

theorem trim_eq_nil_iff {cs : List Char} : trim cs = [] ↔ cs.all isBlank = true := by
  rw [List.all_eq_true]
  refine ⟨fun empty => ?_, trim_blanks⟩
  by_contra visible
  push Not at visible
  exact trim_ne_nil (by simpa using visible) empty

theorem dropEmptyLast_append (ts : List (List Char)) {us : List (List Char)} (ne : us ≠ []) :
    dropEmptyLast (ts ++ us) = ts ++ dropEmptyLast us := by
  induction ts with
  | nil => rfl
  | cons t ts ih =>
    obtain ⟨v, vs, more⟩ := List.exists_cons_of_ne_nil (List.append_ne_nil_of_right_ne_nil ts ne)
    rw [List.cons_append, more, dropEmptyLast_cons_cons, ← more, ih, List.cons_append]

/-- Only the last piece is left out, and only if it is blank. -/
theorem dropEmptyLast_map_trim (ts : List (List Char)) (t : List Char) :
    dropEmptyLast ((ts ++ [t]).map trim) =
      if t.all isBlank then ts.map trim else (ts ++ [t]).map trim := by
  rw [List.map_append, dropEmptyLast_append _ (by simp), List.map_singleton]
  split
  · next blank => simp [trim_eq_nil_iff.mpr blank, dropEmptyLast]
  · next visible =>
    rw [dropEmptyLast_cons (mt trim_eq_nil_iff.mp visible)]
    rfl

/-- Trimming a text uncovers nothing. -/
theorem surface_trim_subset (cs : List Char) : start.surface (trim cs) ⊆ start.surface cs := by
  obtain ⟨before, after, whole, blank, -⟩ := exists_blanks_around cs
  intro c hc
  rw [whole, List.append_assoc, surface_append, (closed_of_isBlank blank).run, surface_append]
  exact List.mem_append_right _ (List.mem_append_left _ hc)

section

variable {separator : Char} {n : Nesting} {cs p : List Char} {ps : List (List Char)}

/-- A separator at top level stands before a piece; any other character is the first of its
piece. -/
theorem rawPieces_cons_cases (separator : Char) (n : Nesting) (c : Char) (cs : List Char) :
    ∃ q qs, rawPieces separator (n.step c) cs = q :: qs ∧
      ((c = separator ∧ (n.step c).isTopLevel = true ∧
          rawPieces separator n (c :: cs) = [] :: q :: qs) ∨
        (¬ (c = separator ∧ (n.step c).isTopLevel = true) ∧
          rawPieces separator n (c :: cs) = (c :: q) :: qs)) := by
  obtain ⟨q, qs, rest⟩ := List.exists_cons_of_ne_nil (rawPieces_ne_nil separator (n.step c) cs)
  refine ⟨q, qs, rest, ?_⟩
  simp only [rawPieces, rest]
  by_cases cut : c = separator ∧ (n.step c).isTopLevel = true
  · exact .inl ⟨cut.1, cut.2, if_pos cut⟩
  · exact .inr ⟨cut, if_neg cut⟩

theorem scan_of_rawPieces (h : rawPieces separator n cs = p :: ps) :
    n.scan cs = [(separator, start)].intercalate (n.scan p :: ps.map start.scan) := by
  induction cs generalizing n p ps with
  | nil =>
    obtain ⟨rfl, rfl⟩ := List.cons.inj h
    rfl
  | cons c cs ih =>
    obtain ⟨q, qs, rest, ⟨rfl, top, pieces⟩ | ⟨-, pieces⟩⟩ := rawPieces_cons_cases separator n c cs
    · obtain ⟨rfl, rfl⟩ := List.cons.inj (pieces.symm.trans h)
      have tail := ih rest
      rw [isTopLevel_iff.mp top] at tail
      rw [scan_cons, isTopLevel_iff.mp top, tail]
      simp [scan]
    · obtain ⟨rfl, rfl⟩ := List.cons.inj (pieces.symm.trans h)
      rw [scan_cons, ih rest, scan_cons, List.intercalate_cons_cons_left]

theorem not_mem_surface_of_rawPieces (h : rawPieces separator n cs = p :: ps) :
    separator ∉ n.surface p ∧ ∀ q ∈ ps, separator ∉ start.surface q := by
  induction cs generalizing n p ps with
  | nil =>
    obtain ⟨rfl, rfl⟩ := List.cons.inj h
    simp [surface]
  | cons c cs ih =>
    obtain ⟨q, qs, rest, cut⟩ := rawPieces_cons_cases separator n c cs
    obtain ⟨first, others⟩ := ih rest
    rcases cut with ⟨-, top, pieces⟩ | ⟨uncut, pieces⟩
    · obtain ⟨rfl, rfl⟩ := List.cons.inj (pieces.symm.trans h)
      rw [isTopLevel_iff.mp top] at first
      exact ⟨List.not_mem_nil, List.forall_mem_cons.mpr ⟨first, others⟩⟩
    · obtain ⟨rfl, rfl⟩ := List.cons.inj (pieces.symm.trans h)
      refine ⟨fun mem => ?_, others⟩
      rw [surface_cons] at mem
      split at mem
      · next top =>
        rcases List.mem_cons.mp mem with rfl | mem
        · exact uncut ⟨rfl, top⟩
        · exact first mem
      · exact first mem

/-- Before a separator at top level a text is cut as if it ended there, and after it as if it began
there. -/
theorem rawPieces_append_separator (top : (n.run (cs ++ [separator])).isTopLevel = true)
    (rest : List Char) : rawPieces separator n (cs ++ separator :: rest) =
      rawPieces separator n cs ++ rawPieces separator start rest := by
  induction cs generalizing n with
  | nil =>
    have here : (n.step separator).isTopLevel = true := top
    simp only [List.nil_append, rawPieces, isTopLevel_iff.mp here]
    rfl
  | cons c cs ih =>
    simp only [List.cons_append, rawPieces, ih top]
    obtain ⟨q, qs, pieces⟩ := List.exists_cons_of_ne_nil (rawPieces_ne_nil separator (n.step c) cs)
    rw [pieces]
    split <;> rfl

end

theorem not_mem_surface_of_mem {separator : Char} {p cs : List Char}
    (h : p ∈ rawPieces separator start cs) : separator ∉ start.surface p := by
  obtain ⟨q, qs, pieces⟩ := List.exists_cons_of_ne_nil (rawPieces_ne_nil separator start cs)
  obtain ⟨first, others⟩ := not_mem_surface_of_rawPieces pieces
  rw [pieces] at h
  rcases List.mem_cons.mp h with rfl | h
  · exact first
  · exact others p h

/-- A piece is not cut again. -/
theorem splitTopLevel_of_mem {separator : Char} {p cs : List Char}
    (h : p ∈ splitTopLevel separator cs) (ne : p ≠ []) : splitTopLevel separator p = [p] := by
  obtain ⟨q, hq, rfl⟩ := List.mem_map.mp (mem_of_mem_dropEmptyLast h)
  have absent : separator ∉ start.surface (trim q) :=
    fun mem => not_mem_surface_of_mem hq (surface_trim_subset q mem)
  rw [splitTopLevel, rawPieces_eq_singleton absent, List.map_singleton, trim_trim,
    dropEmptyLast_cons ne]
  rfl

/-- The separators at top level cut a text, they alone and every one of them, and each piece is
scanned as it is in the text. The pieces are returned trimmed, without the last one if it is blank.
A piece that is not blank is not cut again, and a separator at top level parts what is before it
from what is after it. -/
theorem splitTopLevel_exact (separator : Char) (cs : List Char) :
    joined [separator] (rawPieces separator start cs) = cs ∧
    start.scan cs =
      [(separator, start)].intercalate ((rawPieces separator start cs).map start.scan) ∧
    (∀ p ∈ rawPieces separator start cs,
      ∀ s ∈ start.scan p, s.2.isTopLevel = true → s.1 ≠ separator) ∧
    (∃ before last, rawPieces separator start cs = before ++ [last] ∧
      splitTopLevel separator cs =
        if last.all isBlank then before.map trim else (before ++ [last]).map trim) ∧
    (∀ p ∈ splitTopLevel separator cs, p ≠ [] → splitTopLevel separator p = [p]) ∧
    ∀ rest, (start.run (cs ++ [separator])).isTopLevel = true →
      splitTopLevel separator (cs ++ separator :: rest) =
        (rawPieces separator start cs).map trim ++ splitTopLevel separator rest := by
  refine ⟨joined_rawPieces separator start cs, ?_, ?_, ?_, fun p => splitTopLevel_of_mem, ?_⟩
  · obtain ⟨p, ps, pieces⟩ := List.exists_cons_of_ne_nil (rawPieces_ne_nil separator start cs)
    rw [scan_of_rawPieces pieces, pieces, List.map_cons]
  · intro p hp s hs top same
    exact not_mem_surface_of_mem hp (mem_surface_iff.mpr ⟨s, hs, top, same⟩)
  · have ne := rawPieces_ne_nil separator start cs
    refine ⟨_, _, (List.dropLast_append_getLast ne).symm, ?_⟩
    rw [← dropEmptyLast_map_trim, List.dropLast_append_getLast ne, splitTopLevel]
  · intro rest top
    have more : (rawPieces separator start rest).map trim ≠ [] := by
      simpa using rawPieces_ne_nil separator start rest
    rw [splitTopLevel, rawPieces_append_separator top, List.map_append,
      dropEmptyLast_append _ more, splitTopLevel]

/-- A closing parenthesis cuts where it closes the outermost one, and a quote where it ends a
span. -/
example : splitTopLevel ')' "f(a) + (b".toList = ["f(a".toList, "+ (b".toList] ∧
    splitTopLevel '"' "\" ,\" ".toList = ["\" ,".toList] := by
  decide

/-- The scan of a text is the scans of its segments, with the joining operators at top level between
them. -/
theorem scan_rawSegments (n : Nesting) (blank : Bool) (cs : List Char) :
    n.scan cs = n.scan (rawSegments n blank cs).1 ++
      (rawSegments n blank cs).2.flatMap fun s => (s.1.symbol, start) :: start.scan s.2 := by
  induction cs generalizing n blank with
  | nil => rfl
  | cons c cs ih =>
    cases joins : if (n.step c).isTopLevel && !blank then Operator.ofChar? c else none with
    | some op =>
      obtain ⟨level, symbol⟩ : n.step c = start ∧ c = op.symbol := by
        split at joins
        · next top =>
          simp only [Bool.and_eq_true] at top
          exact ⟨isTopLevel_iff.mp top.1, Operator.ofChar?_eq_some_iff.mp joins⟩
        · cases joins
      rw [level] at joins
      simp only [rawSegments, joins, level, scan_cons, List.flatMap_cons, List.cons_append]
      rw [← ih, symbol]
      rfl
    | none =>
      simp only [rawSegments, joins, scan_cons, List.cons_append]
      rw [← ih]

/-- Past its first visible character, an uncut text shows no operator. -/
theorem ofChar?_eq_none_of_uncut {n : Nesting} {cs : List Char}
    (h : (rawSegments n false cs).2 = []) :
    ∀ s ∈ n.scan cs, s.2.isTopLevel = true → Operator.ofChar? s.1 = none := by
  induction cs generalizing n with
  | nil => simp [scan]
  | cons c cs ih =>
    cases joins : if (n.step c).isTopLevel && !false then Operator.ofChar? c else none with
    | some op =>
      simp only [rawSegments, joins] at h
      cases h
    | none =>
      simp only [rawSegments, joins, Bool.false_and] at h
      rw [scan_cons, List.forall_mem_cons]
      refine ⟨fun top => ?_, ih h⟩
      simpa [top] using joins

section

variable {p cs : List Char} (h : p ∈ (Segments.ofText cs).operands)

include h

theorem Segments.trimmed_of_mem : Trimmed p := by
  obtain ⟨q, -, rfl⟩ := Segments.mem_raw h
  exact trimmed_trim q

/-- An operand is not cut again. -/
theorem Segments.uncut_of_mem : rawSegments start true p = (p, []) := by
  obtain ⟨q, hq, rfl⟩ := Segments.mem_raw h
  have operators := congrArg Segments.operators (ofText_trim q)
  have uncut : (rawSegments start true (trim q)).2 = [] := by
    simpa [Segments.ofText_eq, Segments.solid_of_mem_raw hq] using operators
  have whole := append_rawSegments start true (trim q)
  rw [uncut, List.flatMap_nil, List.append_nil] at whole
  exact Prod.ext whole uncut

theorem Segments.ofText_of_mem : Segments.ofText p = ⟨[p], []⟩ := by
  rw [Segments.ofText_eq, Segments.raw, Segments.uncut_of_mem h]
  simp only [List.map_cons, List.map_nil, (Segments.trimmed_of_mem h).trim_eq,
    dropEmptyLast_cons (Segments.ne_nil_of_mem h)]
  rfl

/-- An operand shows an operator as its first character only. -/
theorem Segments.ofChar?_eq_none_of_mem :
    ∀ s ∈ (start.scan p).tail, s.2.isTopLevel = true → Operator.ofChar? s.1 = none := by
  have uncut := Segments.uncut_of_mem h
  have trimmed := Segments.trimmed_of_mem h
  cases p with
  | nil => simp [scan]
  | cons c cs =>
    have visible : isBlank c = false := trimmed.1 c rfl
    rw [scan_cons, List.tail_cons]
    apply ofChar?_eq_none_of_uncut
    simpa [rawSegments, visible] using congrArg Prod.snd uncut

end

/-- The operands are the pieces, trimmed. A last piece that is blank is left out, and then the
operators are as many as the operands, else one less. -/
theorem Segments.operands_cases (cs : List Char) :
    ∃ before last, Segments.raw cs = before ++ [last] ∧
      if last.all isBlank then
        (Segments.ofText cs).operands = before.map trim ∧
          (Segments.ofText cs).operators.length = (Segments.ofText cs).operands.length
      else
        (Segments.ofText cs).operands = (before ++ [last]).map trim ∧
          (Segments.ofText cs).operators.length + 1 = (Segments.ofText cs).operands.length := by
  obtain ⟨before, last, pieces⟩ : ∃ before last, Segments.raw cs = before ++ [last] :=
    ⟨_, _, (List.dropLast_append_getLast (List.cons_ne_nil _ _)).symm⟩
  have operands : (Segments.ofText cs).operands = if last.all isBlank then
      before.map trim else (before ++ [last]).map trim := by
    rw [Segments.ofText_eq, pieces]
    exact dropEmptyLast_map_trim before last
  have count := Segments.length_raw cs
  rw [pieces, List.length_append, List.length_singleton] at count
  refine ⟨before, last, pieces, ?_⟩
  split
  · next blank =>
    rw [if_pos blank] at operands
    refine ⟨operands, ?_⟩
    rw [operands, List.length_map]
    omega
  · next visible =>
    rw [if_neg visible] at operands
    refine ⟨operands, ?_⟩
    rw [operands, List.length_map, List.length_append, List.length_singleton]
    omega

/-- The joining operators cut a text at top level, and each piece is scanned as it is in the text.
The operands are the pieces, trimmed, without the last one if it is blank. No operand is empty or
has blanks at its ends; it shows an operator as its first character only, and it is not cut
again. -/
theorem Segments.ofText_exact (cs : List Char) : ∃ first more,
    rawSegments start true cs = (first, more) ∧
    (Segments.ofText cs).operators = more.map (·.1) ∧
    cs = first ++ more.flatMap (fun s => s.1.symbol :: s.2) ∧
    start.scan cs =
      start.scan first ++ more.flatMap (fun s => (s.1.symbol, start) :: start.scan s.2) ∧
    (∃ before last, first :: more.map (·.2) = before ++ [last] ∧
      if last.all isBlank then
        (Segments.ofText cs).operands = before.map trim ∧
          (Segments.ofText cs).operators.length = (Segments.ofText cs).operands.length
      else
        (Segments.ofText cs).operands = (before ++ [last]).map trim ∧
          (Segments.ofText cs).operators.length + 1 = (Segments.ofText cs).operands.length) ∧
    ∀ p ∈ (Segments.ofText cs).operands, p ≠ [] ∧ Trimmed p ∧
      (∀ s ∈ (start.scan p).tail, s.2.isTopLevel = true → Operator.ofChar? s.1 = none) ∧
      rawSegments start true p = (p, []) ∧ Segments.ofText p = ⟨[p], []⟩ := by
  refine ⟨_, _, rfl, rfl, (append_rawSegments start true cs).symm, scan_rawSegments start true cs,
    Segments.operands_cases cs, ?_⟩
  intro p hp
  exact ⟨Segments.ne_nil_of_mem hp, Segments.trimmed_of_mem hp,
    Segments.ofChar?_eq_none_of_mem hp, Segments.uncut_of_mem hp, Segments.ofText_of_mem hp⟩

/-- A sign stays with its operand, but a second sign cuts it off. -/
example : Segments.ofText "A1*--2+ ".toList =
    ⟨["A1".toList, ['-'], ['2']], [.multiply, .subtract, .add]⟩ := rfl

end Scan

end CellFormula
