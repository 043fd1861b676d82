import CellFormula.Formula.Analysis
import CellFormula.Proofs.Losses
import CellFormula.Proofs.Retry

/-!
# Sizes of trees read from texts

A tree has no more nodes than its text has bytes. Each node takes a byte of its own: the operands of
a chain are not empty and have an operator between them, and the word and the commas of a call pay
for the arguments that are empty and for the zero put in where a condition has no comparator.
-/

namespace CellFormula

open Text Scan

/-- What precedes an operator that joins is not blank. -/
theorem Scan.rawSegments_nonblank (n : Nesting) (blank : Bool) (cs : List Char) :
    (blank = true → (rawSegments n blank cs).2 ≠ [] →
        ∃ c ∈ (rawSegments n blank cs).1, isBlank c = false) ∧
      ∀ s ∈ (rawSegments n blank cs).2.dropLast, ∃ c ∈ s.2, isBlank c = false := by
  induction cs generalizing n blank with
  | nil => simp [rawSegments]
  | cons c cs ih =>
    cases joins : if (n.step c).isTopLevel && !blank then Operator.ofChar? c else none with
    | some op =>
      have dark : blank = false := by
        cases blank with
        | false => rfl
        | true => simp at joins
      obtain ⟨first, others⟩ := ih (n.step c) true
      simp only [rawSegments, joins]
      refine ⟨fun h => (Bool.false_ne_true (dark ▸ h)).elim, ?_⟩
      intro s hs
      cases more : (rawSegments (n.step c) true cs).2 with
      | nil => simp [more] at hs
      | cons t ts =>
        rw [more, List.dropLast_cons_cons] at hs
        rcases List.mem_cons.mp hs with rfl | hs
        · exact first rfl (by simp [more])
        · exact others s (more ▸ hs)
    | none =>
      obtain ⟨first, others⟩ := ih (n.step c) (blank && isBlank c)
      simp only [rawSegments, joins]
      refine ⟨?_, others⟩
      intro blankSoFar more
      by_cases here : isBlank c = true
      · obtain ⟨d, hd, nonblank⟩ := first (by rw [blankSoFar, here]; rfl) more
        exact ⟨d, List.mem_cons_of_mem c hd, nonblank⟩
      · exact ⟨c, List.mem_cons_self, by simpa using here⟩

theorem Scan.ne_nil_of_mem_dropEmptyLast {ts : List (List Char)} (h : ∀ t ∈ ts.dropLast, t ≠ []) :
    ∀ t ∈ dropEmptyLast ts, t ≠ [] := by
  induction ts using dropEmptyLast.induct with
  | case1 => simp [dropEmptyLast]
  | case2 => simp [dropEmptyLast]
  | case3 t ts ne ih =>
    rw [dropEmptyLast]
    · cases ts with
      | nil =>
        intro u hu
        rcases List.mem_cons.mp hu with rfl | hu
        · exact fun empty => ne empty rfl
        · cases hu
      | cons u us =>
        rw [List.dropLast_cons_cons] at h
        obtain ⟨first, others⟩ := List.forall_mem_cons.mp h
        exact List.forall_mem_cons.mpr ⟨first, ih others⟩
    · exact ne

/-- No operand of a text is empty. -/
theorem Scan.Segments.ne_nil_of_mem {p cs : List Char} (h : p ∈ (Segments.ofText cs).operands) :
    p ≠ [] := by
  obtain ⟨first, others⟩ := rawSegments_nonblank .start true cs
  refine ne_nil_of_mem_dropEmptyLast ?_ p h
  rw [← List.map_dropLast]
  intro t ht
  obtain ⟨q, hq, rfl⟩ := List.mem_map.mp ht
  apply trim_ne_nil
  cases more : (rawSegments .start true cs).2 with
  | nil => simp [more] at hq
  | cons s rest =>
    rw [more, List.map_cons, List.dropLast_cons_cons] at hq
    rcases List.mem_cons.mp hq with rfl | hq
    · exact first rfl (by simp [more])
    · rw [← List.map_cons, ← List.map_dropLast, ← more] at hq
      obtain ⟨s, hs, rfl⟩ := List.mem_map.mp hq
      exact others s hs

namespace Text

def bytes (pieces : List (List Char)) : Nat :=
  (pieces.map byteLength).sum

@[simp] theorem bytes_cons (p : List Char) (ps : List (List Char)) :
    bytes (p :: ps) = byteLength p + bytes ps := rfl

end Text

namespace Reading

open Formula

theorem bytes_splitTopLevel (content : List Char) :
    bytes (splitTopLevel ',' content) + (splitTopLevel ',' content).length ≤
      byteLength content + 1 :=
  sum_splitTopLevel_le byteLength_append rfl content

theorem byteLength_lt_of_inside {known : Registry} {cs text : List Char}
    (h : outline known cs = .inside text) : byteLength text < byteLength cs := by
  have part : text ∈ (outline known cs).parts := by
    rw [h]
    exact List.mem_singleton_self text
  exact byteLength_lt_of_mem_parts part

/-- The operands of a chain are not empty, and the operators between them are left out. -/
theorem bytes_chain {known : Registry} {cs : List Char} {operands : List (List Char)}
    {operators : List Operator} (h : outline known cs = .chain operands operators) :
    bytes operands + operators.length ≤ byteLength cs ∧ ∀ p ∈ operands, p ≠ [] := by
  constructor
  · cases Shape.of_eq h with
    | chain _ whole count joins =>
      have trims : bytes ((Segments.raw cs).map trim) ≤ bytes (Segments.raw cs) :=
        sum_map_trim_le byteLength_append (Segments.raw cs)
      have total : byteLength cs =
          bytes (Segments.raw cs) + byteLength (operators.map Operator.symbol) :=
        (congrArg byteLength whole).trans (additive_glue byteLength_append (by simp [count]))
      have symbols := length_le_byteLength (operators.map Operator.symbol)
      rw [List.length_map] at symbols
      omega
  · intro p hp
    cases Ruled.of_eq h with
    | chain _ _ _ many count cut =>
      have segment : p ∈ (Segments.ofText cs).operands := by rwa [cut]
      exact Segments.ne_nil_of_mem segment

/-- The word and the parentheses of a call take bytes besides its arguments. -/
theorem byteLength_call {keyword : Keyword} {cs word content rest : List Char}
    (head : IsWord keyword word) (whole : cs = word ++ '(' :: content ++ ')' :: rest) :
    keyword.name.length + 2 + byteLength content ≤ byteLength cs := by
  have letters : keyword.name.length ≤ word.length :=
    Nat.le_trans (weight_word head) List.countP_le_length
  have bytes := length_le_byteLength word
  have opening : Char.utf8Size '(' = 1 := rfl
  have closing : Char.utf8Size ')' = 1 := rfl
  rw [whole, List.append_assoc, byteLength_append, List.cons_append, byteLength_cons,
    byteLength_append, byteLength_cons, opening, closing]
  omega

theorem byteLength_comparison {test left right : List Char} {comparator : Comparator}
    (h : comparison? test = some (comparator, left, right)) :
    byteLength left + byteLength right < byteLength test := by
  obtain ⟨symbol, mem, found⟩ := comparison?_cases h
  have spelled : ∀ s ∈ Comparator.spellings, 0 < byteLength s.1 := by decide
  have positive := spelled _ mem
  rw [eq_append_of_findFrom found, byteLength_append, byteLength_append]
  dsimp only at positive
  omega

/-- A node for each byte, or one for none. -/
def Sized (p : List Char) (f : Formula) : Prop :=
  f.size ≤ max 1 (byteLength p)

theorem Sized.le {p : List Char} {f : Formula} (h : Sized p f) : f.size ≤ byteLength p + 1 := by
  unfold Sized at h
  omega

theorem sizeList_le {ps : List (List Char)} {fs : List Formula} (h : List.Forall₂ Sized ps fs) :
    sizeList fs ≤ bytes ps + ps.length := by
  induction h with
  | nil => exact Nat.zero_le _
  | cons first _ ih =>
    have := first.le
    rw [sizeList, bytes_cons, List.length_cons]
    omega

theorem sizeList_le_bytes {ps : List (List Char)} {fs : List Formula}
    (h : List.Forall₂ Sized ps fs) (ne : ∀ p ∈ ps, p ≠ []) : sizeList fs ≤ bytes ps := by
  induction h with
  | nil => exact Nat.zero_le _
  | @cons p f ps fs first _ ih =>
    obtain ⟨here, others⟩ := List.forall_mem_cons.mp ne
    have positive := List.length_pos_iff.mpr here
    have := length_le_byteLength p
    have le := ih others
    unfold Sized at first
    rw [sizeList, bytes_cons]
    omega

theorem sized_builds {known : Registry} {cs : List Char} {fs : List Formula} {f : Formula}
    (build : (outline known cs).Builds fs f)
    (parts : List.Forall₂ Sized (outline known cs).parts fs) : Sized cs f := by
  generalize ho : outline known cs = o at build parts
  cases Shape.of_eq ho with
  | refused e => cases build
  | quoted | empty | number | cell =>
    cases build
    exact Nat.le_max_left 1 _
  | group | single =>
    cases build
    have less := byteLength_lt_of_inside ho
    cases parts with
    | cons le _ =>
      unfold Sized at le ⊢
      omega
  | chain operators whole count joins =>
    cases build
    obtain ⟨total, ne⟩ := bytes_chain ho
    have le := sizeList_le_bytes parts ne
    rw [Outline.parts] at le
    rw [Sized, size]
    omega
  | comparison word content rest head whole pieces sides =>
    cases build
    obtain _ | ⟨hl, _ | ⟨hr, _ | ⟨ht, _ | ⟨hf, _⟩⟩⟩⟩ := parts
    have call := byteLength_call head whole
    have two : Keyword.conditional.name.length = 2 := rfl
    have test := byteLength_comparison sides
    have budget := bytes_splitTopLevel content
    rw [pieces] at budget
    simp only [bytes_cons, List.length_cons] at budget
    have := hl.le
    have := hr.le
    have := ht.le
    have := hf.le
    rw [Sized, size]
    omega
  | bare word content rest head whole pieces absent =>
    cases build
    obtain _ | ⟨hl, _ | ⟨ht, _ | ⟨hf, _⟩⟩⟩ := parts
    have call := byteLength_call head whole
    have two : Keyword.conditional.name.length = 2 := rfl
    have budget := bytes_splitTopLevel content
    rw [pieces] at budget
    simp only [bytes_cons, List.length_cons] at budget
    have := hl.le
    have := ht.le
    have := hf.le
    have zero : (Formula.number (.zero false)).size = 1 := rfl
    rw [Sized, size, zero]
    omega
  | lookup word content rest head whole =>
    cases build
    have call := byteLength_call head whole
    have six : Keyword.lookup.name.length = 6 := rfl
    have budget := bytes_splitTopLevel content
    have le := sizeList_le parts
    rw [Outline.parts] at le
    rw [Sized, Formula.lookup, size]
    omega

theorem sized_of_expression {options : ParseOptions} {levels : Nat} {cs : List Char}
    {f : Formula} (h : expression options levels cs = .ok f) : Sized cs f := by
  refine expression_induction (fun levels cs fs f build parts => ?_) h
  have trimmed : Sized (trim cs) f := sized_builds build parts
  have := byteLength_trim_le cs
  unfold Sized at trimmed ⊢
  omega

/-- Every text reads as a tree with no more nodes than the text has bytes, if it has any. -/
theorem sized_parse (options : ParseOptions) (text : String) :
    Sized (strip text.toList) (parse options text) := by
  rcases parse_cases options text with ⟨_, read⟩ | kept
  · exact sized_of_expression read
  · rw [kept]
    exact Nat.le_max_left 1 _

end Reading

namespace Formula

theorem complexityList_le {fs : List Formula} (ih : ∀ f ∈ fs, f.complexity ≤ f.size) :
    complexityList fs ≤ sizeList fs := by
  induction fs with
  | nil => exact Nat.le_refl 0
  | cons f fs rest =>
    obtain ⟨first, ih⟩ := List.forall_mem_cons.mp ih
    have := rest ih
    rw [complexityList, sizeList]
    omega

theorem complexity_le_size (f : Formula) : f.complexity ≤ f.size := by
  induction f using induction with
  | cell | number | text => exact Nat.le_refl 1
  | chain operands operators ih =>
    have := complexityList_le ih
    rw [complexity, size]
    omega
  | conditional comparator l r t f ihl ihr iht ihf =>
    rw [complexity, size]
    omega
  | call name arguments ih => exact Nat.le_add_right 1 _

/-- A text is never read as a tree of more nodes than the bytes left of it without the blanks and
the equals sign around it, unless nothing is left. The complexity counts some of these nodes
only. -/
theorem size_parse_le (options : ParseOptions) (text : String) :
    (parse options text).size ≤ max 1 (byteLength (Reading.strip text.toList)) ∧
      (parse options text).complexity ≤ max 1 (byteLength (Reading.strip text.toList)) := by
  have sized : (parse options text).size ≤ max 1 (byteLength (Reading.strip text.toList)) :=
    Reading.sized_parse options text
  exact ⟨sized, Nat.le_trans (complexity_le_size _) sized⟩

end Formula

end CellFormula
