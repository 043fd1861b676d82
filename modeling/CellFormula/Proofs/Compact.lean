import CellFormula.Formula.Text
import CellFormula.Proofs.Closed

/-!
# Compact texts

A compact text can stand as an operand, as an argument or as a side of a comparison, and each cut
gives it back whole. Only as its first character may it show an operator, which is a sign there.
With blanks around it, it still stands as an operand.
-/

namespace CellFormula

namespace Scan

open Text Nesting

def isSeparator (c : Char) : Bool :=
  c == ',' || c == '<' || c == '>' || c == '='

/-- A text that each cut gives back whole. -/
structure Operand (w : List Char) : Prop where
  closed : Closed w
  visible : ∃ c ∈ w, isBlank c = false
  quiet : ∀ c ∈ start.surface w, isSeparator c = false
  solid : ∀ ys, rawSegments .start true (w ++ ys) =
    (w ++ (rawSegments .start false ys).1, (rawSegments .start false ys).2)

structure Compact (w : List Char) : Prop extends Operand w where
  trimmed : Trimmed w

theorem Operand.ne_nil {w : List Char} (h : Operand w) : w ≠ [] := by
  rintro rfl
  obtain ⟨c, hc, -⟩ := h.visible
  cases hc

theorem visible_of_trimmed {w : List Char} (trimmed : Trimmed w) (ne : w ≠ []) :
    ∃ c ∈ w, isBlank c = false :=
  ⟨w.head ne, List.head_mem ne, trimmed.1 _ (List.head?_eq_some_head ne)⟩

theorem compact_of_surface {w : List Char} (closed : Closed w) (trimmed : Trimmed w) (ne : w ≠ [])
    (h : ∀ c ∈ start.surface w, isSeparator c = false ∧ isOperator c = false) : Compact w where
  closed := closed
  visible := visible_of_trimmed trimmed ne
  trimmed := trimmed
  quiet c hc := (h c hc).1
  solid ys := by
    obtain ⟨c, cs, rfl⟩ := List.exists_cons_of_ne_nil ne
    have visible : isBlank c = false := trimmed.1 c rfl
    have cut := rawSegments_append (fun d hd => (h d hd).2) true ys
    rw [closed.run] at cut
    simpa [visible] using cut

/-- A sign before a text without operators. -/
theorem compact_signed {op : Operator} {cs : List Char} (closed : Closed cs)
    (trimmed : Trimmed (op.symbol :: cs))
    (h : ∀ c ∈ start.surface cs, isSeparator c = false ∧ isOperator c = false) :
    Compact (op.symbol :: cs) := by
  have plain : isPlain op.symbol = true := by cases op <;> rfl
  have step : start.step op.symbol = start := step_of_isPlain plain start
  have visible : isBlank op.symbol = false := by cases op <;> rfl
  refine ⟨⟨closed.cons plain, visible_of_trimmed trimmed (by simp), ?_, ?_⟩, trimmed⟩
  · intro c hc
    rw [surface_cons_of_isTopLevel (by rw [step]; rfl)] at hc
    rcases List.mem_cons.mp hc with rfl | hc
    · cases op <;> rfl
    · exact (h c hc).1
  · intro ys
    have cut := rawSegments_append (fun d hd => (h d hd).2) false ys
    rw [closed.run] at cut
    simp [rawSegments, step, visible, cut]

theorem isOperator_of_isBlank {c : Char} (h : isBlank c = true) : isOperator c = false :=
  isOperator_eq_false_of h (by decide)

theorem isSeparator_of_isBlank {c : Char} (h : isBlank c = true) : isSeparator c = false := by
  rw [Bool.eq_false_iff]
  intro separator
  simp only [isSeparator, Bool.or_eq_true, beq_iff_eq] at separator
  rcases separator with ((rfl | rfl) | rfl) | rfl <;> cases h

section

variable {bs : List Char} (blank : ∀ c ∈ bs, isBlank c = true)

include blank

theorem closed_of_isBlank : Closed bs :=
  closed_of_isPlain fun c hc => isPlain_of_isBlank (blank c hc)

theorem rawSegments_blanks_append (b : Bool) (cs : List Char) :
    rawSegments .start b (bs ++ cs) =
      (bs ++ (rawSegments .start b cs).1, (rawSegments .start b cs).2) := by
  have cut := rawSegments_append (n := start)
    (fun c hc => isOperator_of_isBlank (blank c (surface_subset _ _ hc))) b cs
  rw [cut, (closed_of_isBlank blank).run, List.all_eq_true.mpr blank, Bool.and_true]

/-- Blanks at the end become the end of the last segment. -/
theorem rawSegments_append_blanks (n : Nesting) (b : Bool) (cs : List Char) :
    trimEnd (rawSegments n b (cs ++ bs)).1 = trimEnd (rawSegments n b cs).1 ∧
      (rawSegments n b (cs ++ bs)).2.map (fun s => (s.1, trimEnd s.2)) =
        (rawSegments n b cs).2.map fun s => (s.1, trimEnd s.2) := by
  induction cs generalizing n b with
  | nil =>
    have cut := rawSegments_append (n := n)
      (fun c hc => isOperator_of_isBlank (blank c (surface_subset _ _ hc))) b []
    rw [List.append_nil] at cut
    rw [List.nil_append, cut]
    simp only [rawSegments, List.append_nil, trimEnd_blanks blank, List.map_nil, and_true]
    rfl
  | cons c cs ih =>
    simp only [List.cons_append, rawSegments]
    split
    · next op joins =>
      obtain ⟨first, rest⟩ := ih (n.step c) true
      simp [first, rest]
    · obtain ⟨first, rest⟩ := ih (n.step c) (b && isBlank c)
      exact ⟨trimEnd_cons_congr first c, rest⟩

end

/-- Blanks around a text do not change where it is cut. -/
theorem ofText_trim (cs : List Char) : Segments.ofText (trim cs) = Segments.ofText cs := by
  obtain ⟨before, after, whole, blankBefore, blankAfter⟩ := exists_blanks_around cs
  generalize trim cs = ds at whole
  subst whole
  obtain ⟨first, rest⟩ := rawSegments_append_blanks blankAfter .start true ds
  have operators := congrArg (List.map fun s => s.1) rest
  have pieces := congrArg (List.map fun s => trim s.2) rest
  simp only [List.map_map, Function.comp_def, trim_trimEnd] at operators pieces
  have head : trim (before ++ (rawSegments .start true (ds ++ after)).1) =
      trim (rawSegments .start true ds).1 := by
    rw [trim_blanks_append blankBefore, ← trim_trimEnd, first, trim_trimEnd]
  rw [List.append_assoc, Segments.ofText, Segments.ofText, rawSegments_blanks_append blankBefore]
  simp only [List.map_cons, List.map_map, Function.comp_def, head, pieces, operators]

theorem hasTopLevelOperator_trim (cs : List Char) :
    hasTopLevelOperator (trim cs) = hasTopLevelOperator cs := by
  obtain ⟨before, after, whole, blankBefore, blankAfter⟩ := exists_blanks_around cs
  generalize trim cs = ds at whole
  subst whole
  have quiet : ∀ {bs : List Char} {n : Nesting}, (∀ c ∈ bs, isBlank c = true) →
      (n.surface bs).any isOperator = false := by
    intro bs n blank
    rw [List.any_eq_false]
    intro c hc
    simp [isOperator_of_isBlank (blank c (surface_subset _ _ hc))]
  rw [hasTopLevelOperator_eq, hasTopLevelOperator_eq, surface_append, surface_append,
    List.any_append, List.any_append, quiet blankBefore, quiet blankAfter,
    (closed_of_isBlank blankBefore).run, Bool.false_or, Bool.or_false]

/-- An operand with blanks around it. -/
theorem Operand.pad {before w after : List Char} (h : Operand w)
    (blankBefore : ∀ c ∈ before, isBlank c = true) (blankAfter : ∀ c ∈ after, isBlank c = true) :
    Operand (before ++ w ++ after) := by
  have closed := (closed_of_isBlank blankBefore).append h.closed
  constructor
  · exact closed.append (closed_of_isBlank blankAfter)
  · obtain ⟨c, hc, dark⟩ := h.visible
    exact ⟨c, by simp [hc], dark⟩
  · intro c hc
    rw [surface_append, surface_append, closed.run, (closed_of_isBlank blankBefore).run] at hc
    rcases List.mem_append.mp hc with hc | hc
    · rcases List.mem_append.mp hc with hc | hc
      · exact isSeparator_of_isBlank (blankBefore c (surface_subset _ _ hc))
      · exact h.quiet c hc
    · exact isSeparator_of_isBlank (blankAfter c (surface_subset _ _ hc))
  · intro ys
    rw [List.append_assoc, List.append_assoc, rawSegments_blanks_append blankBefore, h.solid,
      rawSegments_blanks_append blankAfter]
    simp

theorem isPlain_symbol (op : Operator) : isPlain op.symbol = true := by
  cases op <;> rfl

/-- Operators with the operands after them. -/
def links (more : List (Operator × List Char)) : List Char :=
  more.flatMap fun s => s.1.symbol :: s.2

theorem links_cons (op : Operator) (w : List Char) (more : List (Operator × List Char)) :
    links ((op, w) :: more) = op.symbol :: (w ++ links more) := rfl

section

variable {more : List (Operator × List Char)} (rest : ∀ s ∈ more, Operand s.2)

include rest

theorem closed_links : Closed (links more) := by
  induction more with
  | nil => exact ⟨rfl, trivial⟩
  | cons s more ih =>
    have tail := ih fun t ht => rest t (List.mem_cons_of_mem s ht)
    exact ((rest s List.mem_cons_self).closed.append tail).cons (isPlain_symbol s.1)

theorem rawSegments_links : rawSegments .start false (links more) = ([], more) := by
  induction more with
  | nil => rfl
  | cons s more ih =>
    obtain ⟨op, w⟩ := s
    have step : start.step op.symbol = start := step_of_isPlain (isPlain_symbol op) start
    have top : start.isTopLevel = true := rfl
    have tail := ih fun t ht => rest t (List.mem_cons_of_mem _ ht)
    have cut := (rest (op, w) List.mem_cons_self).solid (links more)
    simp [links_cons, rawSegments, step, top, Operator.ofChar?_eq_some_iff.mpr rfl, cut, tail]

end

theorem trimmed_links {w : List Char} {more : List (Operator × List Char)} (first : Trimmed w)
    (ne : w ≠ []) (rest : ∀ s ∈ more, Trimmed s.2 ∧ s.2 ≠ []) : Trimmed (w ++ links more) := by
  induction more generalizing w with
  | nil => simpa [links] using first
  | cons s more ih =>
    obtain ⟨op, v⟩ := s
    obtain ⟨hv, neV⟩ := rest (op, v) List.mem_cons_self
    have visible : isBlank op.symbol = false := by cases op <;> rfl
    have sign : Trimmed [op.symbol] := by
      constructor <;>
        · intro c hc
          cases hc
          exact visible
    have tail := ih hv neV fun t ht => rest t (List.mem_cons_of_mem _ ht)
    have signed := sign.append (by simp) tail (by simp [neV])
    rw [links_cons]
    exact first.append ne signed (by simp)

theorem dropEmptyLast_eq_self {ts : List (List Char)} (h : ∀ t ∈ ts, t ≠ []) :
    dropEmptyLast ts = ts := by
  induction ts with
  | nil => rfl
  | cons t ts ih =>
    rw [dropEmptyLast_cons (h t List.mem_cons_self),
      ih fun u hu => h u (List.mem_cons_of_mem t hu)]

theorem map_trim_eq_self {ts : List (List Char)} (h : ∀ t ∈ ts, Trimmed t) : ts.map trim = ts := by
  rw [List.map_congr_left fun t ht => (h t ht).trim_eq, List.map_id']

/-- The operands, without the blanks around them, and the operators of a chain as they were put
together. -/
theorem ofText_links {w : List Char} {more : List (Operator × List Char)} (first : Operand w)
    (rest : ∀ s ∈ more, Operand s.2) : Segments.ofText (w ++ links more) =
      ⟨(w :: more.map (·.2)).map trim, more.map (·.1)⟩ := by
  have filled : ∀ t ∈ (w :: more.map (·.2)).map trim, t ≠ [] := by
    simp only [List.forall_mem_map, List.forall_mem_cons]
    exact ⟨trim_ne_nil first.visible, fun s hs => trim_ne_nil (rest s hs).visible⟩
  rw [Segments.ofText, first.solid, rawSegments_links rest]
  simp only [List.append_nil, dropEmptyLast_eq_self filled]

theorem hasTopLevelOperator_links {w : List Char} {s : Operator × List Char}
    {more : List (Operator × List Char)} (first : Operand w) :
    hasTopLevelOperator (w ++ links (s :: more)) = true := by
  obtain ⟨op, v⟩ := s
  have step : start.step op.symbol = start := step_of_isPlain (isPlain_symbol op) start
  have shown : isOperator op.symbol = true := by cases op <;> rfl
  rw [hasTopLevelOperator_eq, surface_append, first.closed.run, links_cons,
    surface_cons_of_isTopLevel (by rw [step]; rfl), List.any_append, List.any_cons, shown]
  simp

/-- A text that a comma separates from its neighbours. -/
structure Argument (w : List Char) : Prop where
  run : start.run w = start
  comma : ',' ∉ start.surface w
  trimmed : Trimmed w
  ne_nil : w ≠ []

theorem Compact.argument {w : List Char} (h : Compact w) : Argument w where
  run := h.closed.run
  comma hc := by cases h.quiet _ hc
  trimmed := h.trimmed
  ne_nil := h.toOperand.ne_nil

/-- Texts that end at top level and show no comma are cut where they were joined. -/
theorem rawPieces_joined {w : List Char} {ws : List (List Char)}
    (h : ∀ v ∈ w :: ws, start.run v = start ∧ ',' ∉ start.surface v) :
    rawPieces ',' .start (joined [','] (w :: ws)) = w :: ws := by
  induction ws generalizing w with
  | nil => exact rawPieces_eq_singleton (h w List.mem_cons_self).2
  | cons v ws ih =>
    obtain ⟨run, comma⟩ := h w List.mem_cons_self
    have tail := ih fun u hu => h u (List.mem_cons_of_mem w hu)
    have cut : rawPieces ',' (start.run w) (',' :: joined [','] (v :: ws)) = [] :: v :: ws := by
      have step : start.step ',' = start := rfl
      have top : start.isTopLevel = true := rfl
      rw [run, rawPieces]
      simp only [step, top, and_self, if_true, tail]
    have whole := rawPieces_append comma cut
    have glue : joined [','] (w :: v :: ws) = w ++ ',' :: joined [','] (v :: ws) := by
      simp [joined]
    rw [glue, whole, List.append_nil]

/-- The arguments of a call as they were put together. -/
theorem splitTopLevel_joined {ws : List (List Char)} (h : ∀ w ∈ ws, Argument w) :
    splitTopLevel ',' (joined [','] ws) = ws := by
  cases ws with
  | nil => rfl
  | cons w ws =>
    rw [splitTopLevel, rawPieces_joined fun v hv => ⟨(h v hv).run, (h v hv).comma⟩,
      map_trim_eq_self fun t ht => (h t ht).trimmed,
      dropEmptyLast_eq_self fun t ht => (h t ht).ne_nil]

theorem splitTopLevel_blanks {bs : List Char} (blank : ∀ c ∈ bs, isBlank c = true) :
    splitTopLevel ',' bs = [] := by
  have absent : ',' ∉ start.surface bs := by
    intro comma
    cases blank _ (surface_subset _ _ comma)
  rw [splitTopLevel, rawPieces_eq_singleton absent, List.map_singleton, trim_blanks blank]
  rfl

/-- No comparator begins at top level. -/
def WithoutComparator (cs : List Char) : Prop :=
  ∀ c ∈ start.surface cs, c ≠ '<' ∧ c ≠ '>' ∧ c ≠ '='

instance (cs : List Char) : Decidable (WithoutComparator cs) :=
  decidable_of_iff ((start.surface cs).all (fun c => c != '<' && c != '>' && c != '=') = true)
    (by simp [WithoutComparator, and_assoc])

theorem Operand.withoutComparator {w : List Char} (h : Operand w) : WithoutComparator w := by
  intro c hc
  have quiet := h.quiet c hc
  simp only [isSeparator, Bool.or_eq_false_iff, beq_eq_false_iff_ne] at quiet
  exact ⟨quiet.1.1.2, quiet.1.2, quiet.2⟩

section

variable {a : Char} (needle : List Char) {cs : List Char}

theorem findTopLevel_append (absent : a ∉ start.surface cs) (run : start.run cs = start)
    (ys : List Char) : findTopLevel (a :: needle) (cs ++ ys) =
      (findTopLevel (a :: needle) ys).map fun (before, rest) => (cs ++ before, rest) := by
  rw [findTopLevel, findFrom_append absent, run]
  rfl

theorem findTopLevel_eq_none (absent : a ∉ start.surface cs) :
    findTopLevel (a :: needle) cs = none := by
  have scan : findFrom (a :: needle) start (cs ++ []) = _ := findFrom_append absent []
  rw [List.append_nil] at scan
  rw [findTopLevel, scan]
  rfl

/-- A plain character at the beginning is at top level. -/
theorem after?_eq_none (plain : isPlain a = true) (absent : a ∉ start.surface cs) :
    after? (a :: needle) cs = none := by
  cases cs with
  | nil => rfl
  | cons c cs =>
    have other : a ≠ c := by
      rintro rfl
      apply absent
      rw [surface_cons_of_isTopLevel (by rw [step_of_isPlain plain]; rfl)]
      exact List.mem_cons_self
    simp [after?, other]

end

theorem findTopLevel_cons (needle : List Char) {c : Char} (plain : isPlain c = true)
    (cs : List Char) : findTopLevel needle (c :: cs) =
      match after? needle (c :: cs) with
      | some rest => some ([], rest)
      | none => (findTopLevel needle cs).map fun (before, rest) => (c :: before, rest) := by
  have step : start.step c = start := step_of_isPlain plain start
  have top : start.isTopLevel = true := rfl
  cases found : after? needle (c :: cs) <;> simp [findTopLevel, findFrom, step, top, found]

/-- A compact text does not begin with a separator. -/
theorem Compact.head {c : Char} {cs : List Char} (h : Compact (c :: cs)) :
    isSeparator c = false := by
  by_cases plain : isPlain c = true
  · apply h.quiet
    rw [surface_cons_of_isTopLevel (by rw [step_of_isPlain plain]; rfl)]
    exact List.mem_cons_self
  · rw [Bool.eq_false_iff]
    intro separator
    exact plain (isPlain_of separator (by decide))

end Scan

namespace Formula

open Text Scan

theorem writeLinks_eq {spelling : EqualitySpelling} {operators : List Operator}
    {operands : List Formula} (fit : operators.length = operands.length) :
    writeLinks spelling operators operands =
      links (operators.zip (operands.map (write spelling))) := by
  induction operands generalizing operators with
  | nil => simp [links]
  | cons x xs ih =>
    cases operators with
    | nil => cases fit
    | cons op ops =>
      rw [writeLinks_cons, ih (by simpa using fit)]
      rfl

theorem writeChain_eq {spelling : EqualitySpelling} {operators : List Operator} {x : Formula}
    {xs : List Formula} (fit : operators.length = xs.length) :
    writeChain spelling operators (x :: xs) =
      x.write spelling ++ links (operators.zip (xs.map (write spelling))) := by
  rw [writeChain_cons, writeLinks_eq fit]

theorem writeArguments_eq (spelling : EqualitySpelling) (arguments : List Formula) :
    writeArguments spelling arguments = joined [','] (arguments.map (write spelling)) := by
  cases arguments with
  | nil => rfl
  | cons x xs =>
    rw [writeArguments_cons]
    induction xs generalizing x with
    | nil => simp [joined]
    | cons y ys ih =>
      have tail := ih y
      simp only [List.map_cons] at tail
      simp [joined, tail]

end Formula

namespace Reading

open Text Scan Nesting

theorem spelling_of_mem {symbol : List Char} {comparator : Comparator}
    (h : (symbol, comparator) ∈ Comparator.spellings) :
    symbol ≠ [] ∧ ∀ c ∈ symbol, isPlain c = true ∧ isBlank c = false ∧ c ≠ ',' := by
  have all : ∀ s ∈ Comparator.spellings,
      s.1 ≠ [] ∧ s.1.all (fun c => isPlain c && !isBlank c && c != ',') = true := by decide
  obtain ⟨ne, each⟩ := all _ h
  refine ⟨ne, fun c hc => ?_⟩
  simpa [and_assoc] using List.all_eq_true.mp each c hc

theorem write_mem_spellings (spelling : EqualitySpelling) (comparator : Comparator) :
    (spelling.write comparator, comparator) ∈ Comparator.spellings := by
  cases comparator <;> cases spelling <;> decide

/-- The first spelling in order that occurs is the one that was written: a longer one that begins
like it fails on what follows, since the right side begins with no comparator. -/
theorem comparison?_spelled {left right symbol : List Char} {comparator : Comparator}
    (spelled : (symbol, comparator) ∈ Comparator.spellings) (run : start.run left = start)
    (hl : WithoutComparator left) (hr : WithoutComparator right) :
    comparison? (left ++ symbol ++ right) = some (comparator, left, right) := by
  have less : '<' ∉ start.surface left := fun h => (hl _ h).1 rfl
  have more : '>' ∉ start.surface left := fun h => (hl _ h).2.1 rfl
  have same : '=' ∉ start.surface left := fun h => (hl _ h).2.2 rfl
  have lessEnd : '<' ∉ start.surface right := fun h => (hr _ h).1 rfl
  have moreEnd : '>' ∉ start.surface right := fun h => (hr _ h).2.1 rfl
  have sameEnd : '=' ∉ start.surface right := fun h => (hr _ h).2.2 rfl
  have greater := after?_eq_none [] rfl moreEnd
  have equal := after?_eq_none [] rfl sameEnd
  have spellings : Comparator.spellings = [(['<', '>'], .notEqual), (['>', '='], .greaterEqual),
    (['<', '='], .lessEqual), (['=', '='], .equal), (['>'], .greaterThan), (['<'], .lessThan),
    (['='], .equal)] := rfl
  rw [comparison?, spellings]
  simp only [spellings, List.mem_cons, List.not_mem_nil, or_false, Prod.mk.injEq] at spelled
  rcases spelled with ⟨rfl, rfl⟩ | ⟨rfl, rfl⟩ | ⟨rfl, rfl⟩ | ⟨rfl, rfl⟩ | ⟨rfl, rfl⟩ | ⟨rfl, rfl⟩ |
    ⟨rfl, rfl⟩ <;>
    simp [List.findSome?, findTopLevel_append, less, more, same, run, findTopLevel_cons, isPlain,
      isQuote, Text.after?, findTopLevel_eq_none, lessEnd, moreEnd, sameEnd, greater, equal]

/-- A condition that shows no comparator has none. -/
theorem comparison?_eq_none {cs : List Char} (h : WithoutComparator cs) :
    comparison? cs = none := by
  have less : '<' ∉ start.surface cs := fun mem => (h _ mem).1 rfl
  have more : '>' ∉ start.surface cs := fun mem => (h _ mem).2.1 rfl
  have same : '=' ∉ start.surface cs := fun mem => (h _ mem).2.2 rfl
  simp [comparison?, Comparator.spellings, List.findSome?, findTopLevel_eq_none, less, more, same]

/-- The sides of a comparison and its comparator as they were put together. -/
theorem comparison?_write {left right : List Char} (hl : Compact left) (hr : Compact right)
    (spelling : EqualitySpelling) (comparator : Comparator) :
    comparison? (left ++ spelling.write comparator ++ right) = some (comparator, left, right) :=
  comparison?_spelled (write_mem_spellings spelling comparator) hl.closed.run
    hl.withoutComparator hr.withoutComparator

end Reading

end CellFormula
