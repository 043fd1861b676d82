import CellFormula.Proofs.Recognition
import CellFormula.Proofs.TreeSizes

/-!
# Calls put together from texts

A call whose arguments are closed in themselves is read as the call of what its arguments are read
as, whatever they look like, and whatever follows the call. Three scans have to cut at the same
places for that: the end of the call is found by counting parentheses alone, the commas by a scan
that knows quotes, and the comparator by trying the spellings in order, some of which begin others.
-/

namespace CellFormula

open Text Scan Nesting

namespace Scan

/-- What is opened in the text is closed in it, whether quotes are looked at or not, and no comma
stands at top level. -/
structure SelfContained (cs : List Char) : Prop where
  ends : (start.run cs).isTopLevel = true
  balanced : Balanced cs
  comma : ',' ∉ start.surface cs

instance (cs : List Char) : Decidable (SelfContained cs) :=
  decidable_of_iff ((start.run cs).isTopLevel = true ∧ Balanced cs ∧ ',' ∉ start.surface cs)
    ⟨fun ⟨ends, balanced, comma⟩ => ⟨ends, balanced, comma⟩,
      fun h => ⟨h.ends, h.balanced, h.comma⟩⟩

theorem SelfContained.run {cs : List Char} (h : SelfContained cs) : start.run cs = start :=
  isTopLevel_iff.mp h.ends

/-- Characters that neither nest nor cut can stand between two such texts. -/
theorem SelfContained.glue {xs ys symbol : List Char} (hx : SelfContained xs)
    (hy : SelfContained ys) (plain : ∀ c ∈ symbol, isPlain c = true) (comma : ',' ∉ symbol) :
    SelfContained (xs ++ symbol ++ ys) where
  ends := by
    rw [run_append, run_append, hx.run, run_of_isPlain plain]
    exact hy.ends
  balanced := (hx.balanced.append (balanced_of_isPlain plain)).append hy.balanced
  comma := by
    rw [surface_append, surface_append, run_append, hx.run, run_of_isPlain plain]
    simp only [List.mem_append, not_or]
    exact ⟨⟨hx.comma, fun h => comma (surface_subset _ _ h)⟩, hy.comma⟩

theorem splitTopLevel_selfContained {w : List Char} {ws : List (List Char)}
    (h : ∀ v ∈ w :: ws, SelfContained v) :
    splitTopLevel ',' (joined [','] (w :: ws)) = dropEmptyLast ((w :: ws).map trim) := by
  rw [splitTopLevel, rawPieces_joined fun v hv => ⟨(h v hv).run, (h v hv).comma⟩]

theorem dropEmptyLast_of_getLast? {ts : List (List Char)}
    (h : ∀ t, ts.getLast? = some t → t ≠ []) : dropEmptyLast ts = ts := by
  rcases dropEmptyLast_cases ts with same | empty
  · exact same
  · exact absurd rfl (h [] (by rw [empty]; simp))

theorem dropEmptyLast_cons_cons (t u : List Char) (ts : List (List Char)) :
    dropEmptyLast (t :: u :: ts) = t :: dropEmptyLast (u :: ts) := by
  cases t <;> rfl

theorem run_trimStart (cs : List Char) : start.run (trimStart cs) = start.run cs := by
  conv_rhs => rw [← List.takeWhile_append_dropWhile (p := isBlank) (l := cs), run_append]
  rw [run_of_isPlain fun c hc => isPlain_of_isBlank (List.mem_takeWhile_imp hc)]
  rfl

theorem WithoutComparator.trimStart {cs : List Char} (h : WithoutComparator cs) :
    WithoutComparator (trimStart cs) := by
  intro c hc
  apply h c
  rw [← List.takeWhile_append_dropWhile (p := isBlank) (l := cs), surface_append,
    run_of_isPlain fun c hc => isPlain_of_isBlank (List.mem_takeWhile_imp hc)]
  exact List.mem_append_right _ hc

theorem WithoutComparator.trimEnd {cs : List Char} (h : WithoutComparator cs) :
    WithoutComparator (trimEnd cs) := by
  intro c hc
  obtain ⟨bs, text, -⟩ := exists_blanks cs
  apply h c
  rw [text, surface_append]
  exact List.mem_append_left _ hc

end Scan

namespace Reading

/-- Of a comparison only the outer blanks of its sides are trimmed. -/
theorem trim_comparison {symbol : List Char} (ne : symbol ≠ [])
    (dark : ∀ c ∈ symbol, isBlank c = false) (left right : List Char) :
    trim (left ++ symbol ++ right) = trimStart left ++ symbol ++ trimEnd right := by
  have head : ∀ c, (symbol ++ right).head? = some c → isBlank c = false := by
    intro c hc
    rw [List.head?_append, List.head?_eq_some_head ne, Option.some_or] at hc
    cases hc
    exact dark _ (List.head_mem ne)
  have last : ∀ c, (trimStart left ++ symbol).getLast? = some c → isBlank c = false := by
    intro c hc
    rw [List.getLast?_append, List.getLast?_eq_some_getLast ne, Option.some_or] at hc
    cases hc
    exact dark _ (List.getLast_mem ne)
  rw [trim, List.append_assoc, trimStart_append head, ← List.append_assoc, trimEnd_append last]

section

variable (options : ParseOptions) (n : Nat)

/-- The blanks around a text do not count. -/
theorem expression_congr {xs ys : List Char} (h : trim xs = trim ys) :
    expression options n xs = expression options n ys := by
  cases n with
  | zero => rfl
  | succ n => rw [expression_succ, expression_succ, h]

theorem mapM_trim (texts : List (List Char)) :
    (texts.map trim).mapM (expression options n) = texts.mapM (expression options n) := by
  induction texts with
  | nil => rfl
  | cons t ts ih => rw [List.map_cons, List.mapM_cons, List.mapM_cons, ih,
      expression_congr options n (trim_trim t)]

theorem expression_of_call {keyword : Keyword} {word content : List Char}
    (head : IsWord keyword word) (balanced : Balanced content) (rest : List Char) :
    expression options (n + 1) (word ++ '(' :: content ++ ')' :: rest) =
      (callOutline keyword (.ok (splitTopLevel ',' content))).read (expression options n) := by
  have trims : trim (word ++ '(' :: content ++ ')' :: rest) =
      word ++ '(' :: content ++ ')' :: trimEnd rest := by
    simpa using (head.trimmed_call content).trim_append (by simp) rest
  rw [expression_succ, trims, rules_eq_read, outline_call _ head balanced]

theorem conditionalOutline_dropEmptyLast {f : List Char} (ne : f ≠ []) (c t : List Char)
    (more : List (List Char)) : conditionalOutline (dropEmptyLast (c :: t :: f :: more)) =
      conditionalOutline (c :: t :: f :: more) := by
  rw [dropEmptyLast_cons_cons, dropEmptyLast_cons_cons, dropEmptyLast_cons ne]
  rfl

theorem expression_conditional {word c a b : List Char} {extras : List (List Char)}
    (head : IsWord .conditional word) (contained : ∀ w ∈ c :: a :: b :: extras, SelfContained w)
    (visible : ∃ c ∈ b, isBlank c = false) (rest : List Char) :
    expression options (n + 1)
        (word ++ '(' :: joined [','] (c :: a :: b :: extras) ++ ')' :: rest) =
      (conditionalOutline (trim c :: trim a :: trim b :: extras.map trim)).read
        (expression options n) := by
  have balanced := Formula.balanced_joined fun w hw => (contained w hw).balanced
  rw [expression_of_call options n head balanced, splitTopLevel_selfContained contained]
  change (conditionalOutline (dropEmptyLast (trim c :: trim a :: trim b :: extras.map trim))).read
    _ = _
  rw [conditionalOutline_dropEmptyLast (trim_ne_nil visible)]

theorem expression_comparison {word l r a b : List Char} {extras : List (List Char)}
    (head : IsWord .conditional word)
    (contained : ∀ w ∈ l :: r :: a :: b :: extras, SelfContained w) (hl : WithoutComparator l)
    (hr : WithoutComparator r) (visible : ∃ c ∈ b, isBlank c = false) {symbol : List Char}
    {comparator : Comparator} (spelled : (symbol, comparator) ∈ Comparator.spellings)
    (rest : List Char) :
    expression options (n + 1)
        (word ++ '(' :: joined [','] ((l ++ symbol ++ r) :: a :: b :: extras) ++ ')' :: rest) = (do
      let left ← expression options n l
      let right ← expression options n r
      let whenTrue ← expression options n a
      let whenFalse ← expression options n b
      .ok (.conditional comparator left right whenTrue whenFalse)) := by
  obtain ⟨ne, each⟩ := spelling_of_mem spelled
  obtain ⟨cl, cr, others⟩ : SelfContained l ∧ SelfContained r ∧
      ∀ w ∈ a :: b :: extras, SelfContained w := by
    simpa only [List.forall_mem_cons] using contained
  have whole : SelfContained (l ++ symbol ++ r) :=
    cl.glue cr (fun c hc => (each c hc).1) fun comma => (each _ comma).2.2 rfl
  have sides : comparison? (trim (l ++ symbol ++ r)) =
      some (comparator, trimStart l, trimEnd r) := by
    rw [trim_comparison ne (fun c hc => (each c hc).2.1)]
    exact comparison?_spelled spelled ((run_trimStart l).trans cl.run) hl.trimStart hr.trimEnd
  rw [expression_conditional options n head (List.forall_mem_cons.mpr ⟨whole, others⟩) visible,
    conditionalOutline, sides]
  simp only [Outline.read, expression_congr options n (trim_trimStart l),
    expression_congr options n (trim_trimEnd r), expression_congr options n (trim_trim a),
    expression_congr options n (trim_trim b)]

theorem expression_bare {word q a b : List Char} {extras : List (List Char)}
    (head : IsWord .conditional word) (contained : ∀ w ∈ q :: a :: b :: extras, SelfContained w)
    (hq : WithoutComparator q) (visible : ∃ c ∈ b, isBlank c = false) (rest : List Char) :
    expression options (n + 1)
        (word ++ '(' :: joined [','] (q :: a :: b :: extras) ++ ')' :: rest) = (do
      let left ← expression options n q
      let whenTrue ← expression options n a
      let whenFalse ← expression options n b
      .ok (.conditional .equal left (.number (.zero false)) whenTrue whenFalse)) := by
  have absent : comparison? (trim q) = none := comparison?_eq_none hq.trimStart.trimEnd
  rw [expression_conditional options n head contained visible, conditionalOutline, absent]
  simp only [Outline.read, expression_congr options n (trim_trim q),
    expression_congr options n (trim_trim a), expression_congr options n (trim_trim b)]

theorem expression_lookup {word : List Char} {texts : List (List Char)}
    (head : IsWord .lookup word) (contained : ∀ w ∈ texts, SelfContained w)
    (visible : ∀ t, texts.getLast? = some t → ∃ c ∈ t, isBlank c = false) (rest : List Char) :
    expression options (n + 1) (word ++ '(' :: joined [','] texts ++ ')' :: rest) = (do
      let arguments ← texts.mapM (expression options n)
      .ok (.lookup arguments)) := by
  have balanced := Formula.balanced_joined fun w hw => (contained w hw).balanced
  have arguments : splitTopLevel ',' (joined [','] texts) = texts.map trim := by
    cases texts with
    | nil => rfl
    | cons w ws =>
      rw [splitTopLevel_selfContained contained, dropEmptyLast_of_getLast?]
      intro t last
      rw [List.getLast?_map] at last
      obtain ⟨u, hu, rfl⟩ := Option.map_eq_some_iff.mp last
      exact trim_ne_nil (visible u hu)
  rw [expression_of_call options n head balanced, arguments]
  simp only [callOutline, Outline.read, mapM_trim]

end

end Reading

end CellFormula
