import CellFormula.Formula.Analysis
import CellFormula.Proofs.Losses
import CellFormula.Proofs.Retry

/-!
# Where the names and texts of a tree come from

Every rule names the texts inside from left to right, and no two of them overlap. So the names and
the texts in a tree stand in the text that it was read from one after another, in the order of the
tree: reading makes up no name, and it neither repeats nor reorders any.
-/

namespace CellFormula

namespace Text

/-- The pieces stand in the text one after another, with anything before, between and after them. -/
def InOrder : List (List Char) → List Char → Prop
  | [], _ => True
  | p :: ps, cs => ∃ before rest, cs = before ++ p ++ rest ∧ InOrder ps rest

section

variable {ps qs : List (List Char)} {cs ds : List Char}

theorem InOrder.append (hp : InOrder ps cs) (hq : InOrder qs ds) :
    InOrder (ps ++ qs) (cs ++ ds) := by
  induction ps generalizing cs with
  | nil =>
    cases qs with
    | nil => trivial
    | cons q qs =>
      obtain ⟨before, rest, rfl, tail⟩ := hq
      exact ⟨cs ++ before, rest, by simp, tail⟩
  | cons p ps ih =>
    obtain ⟨before, rest, rfl, tail⟩ := hp
    exact ⟨before, rest ++ ds, by simp, ih tail⟩

theorem InOrder.of_isInfix (h : InOrder ps cs) (piece : cs <:+: ds) : InOrder ps ds := by
  obtain ⟨before, after, rfl⟩ := piece
  have none : ∀ es, InOrder [] es := fun _ => trivial
  have whole := ((none before).append h).append (none after)
  rwa [List.nil_append, List.append_nil] at whole

theorem inOrder_singleton_iff {p : List Char} : InOrder [p] cs ↔ p <:+: cs := by
  constructor
  · rintro ⟨before, rest, rfl, -⟩
    exact ⟨before, rest, rfl⟩
  · rintro ⟨before, rest, rfl⟩
    exact ⟨before, rest, rfl, trivial⟩

theorem InOrder.sublist (h : InOrder ps cs) (some : qs.Sublist ps) : InOrder qs cs := by
  induction some generalizing cs with
  | slnil => trivial
  | cons p _ ih =>
    obtain ⟨before, rest, rfl, tail⟩ := h
    exact (ih tail).of_isInfix (List.suffix_append _ _).isInfix
  | cons_cons p _ ih =>
    obtain ⟨before, rest, rfl, tail⟩ := h
    exact ⟨before, rest, rfl, ih tail⟩

theorem InOrder.infix_of_mem (h : InOrder ps cs) {p : List Char} (mem : p ∈ ps) : p <:+: cs :=
  inOrder_singleton_iff.mp (h.sublist (List.singleton_sublist.mpr mem))

/-- What stands in order in each piece stands in order in the whole. -/
theorem InOrder.flatten (h : InOrder ps cs) {qss : List (List (List Char))}
    (inner : List.Forall₂ (fun p qs => InOrder qs p) ps qss) : InOrder qss.flatten cs := by
  induction inner generalizing cs with
  | nil => trivial
  | @cons p qs ps qss first _ ih =>
    obtain ⟨before, rest, rfl, tail⟩ := h
    exact (first.of_isInfix (List.suffix_append before p).isInfix).append (ih tail)

theorem InOrder.map_trim (h : InOrder ps cs) : InOrder (ps.map trim) cs := by
  have each : List.Forall₂ (fun p qs => InOrder qs p) ps (ps.map fun p => [trim p]) := by
    rw [List.forall₂_map_right_iff, List.forall₂_same]
    exact fun p _ => inOrder_singleton_iff.mpr (trim_isInfix p)
  have whole := h.flatten each
  rwa [← List.flatMap_def, ← List.map_eq_flatMap] at whole

end

theorem inOrder_joined (separator : List Char) (ps : List (List Char)) :
    InOrder ps (joined separator ps) := by
  induction ps using joined.induct with
  | case1 => trivial
  | case2 p => exact inOrder_singleton_iff.mpr (List.infix_refl p)
  | case3 p ps other ih =>
    rw [joined]
    · exact ⟨[], separator ++ joined separator ps, by simp,
        ih.of_isInfix (List.suffix_append _ _).isInfix⟩
    · exact other

end Text

namespace Scan

open Text

theorem inOrder_glue {separators : List Char} {pieces : List (List Char)}
    (fits : separators.length + 1 = pieces.length) :
    InOrder pieces (glue separators pieces) := by
  induction separators generalizing pieces with
  | nil =>
    obtain ⟨p, rfl⟩ := List.length_eq_one_iff.mp fits.symm
    exact ⟨[], [], by simp [glue], trivial⟩
  | cons c separators ih =>
    cases pieces with
    | nil => cases fits
    | cons p pieces =>
      have tail := @ih pieces (by simpa using fits)
      exact ⟨[], c :: glue separators pieces, by simp [glue],
        tail.of_isInfix (List.suffix_cons _ _).isInfix⟩

theorem dropEmptyLast_sublist (ts : List (List Char)) : (dropEmptyLast ts).Sublist ts := by
  rcases dropEmptyLast_cases ts with same | less
  · rw [same]
  · conv_rhs => rw [less]
    exact List.sublist_append_left _ _

theorem inOrder_splitTopLevel (separator : Char) (cs : List Char) :
    InOrder (splitTopLevel separator cs) cs := by
  have pieces := inOrder_joined [separator] (rawPieces separator .start cs)
  rw [joined_rawPieces] at pieces
  exact pieces.map_trim.sublist (dropEmptyLast_sublist _)

theorem Segments.inOrder_operands (cs : List Char) : InOrder (Segments.ofText cs).operands cs := by
  have fits : ((Segments.ofText cs).operators.map Operator.symbol).length + 1 =
      (Segments.raw cs).length := by
    rw [List.length_map, Segments.length_raw]
  have raw := inOrder_glue fits
  rw [← Segments.eq_glue] at raw
  exact raw.map_trim.sublist (dropEmptyLast_sublist _)

end Scan

namespace Reading

open Text Scan

/-- The two sides of a comparison stand in order in their argument. -/
theorem inOrder_comparison {test left right rest : List Char} {more : List (List Char)}
    {comparator : Comparator} (sides : comparison? test = some (comparator, left, right))
    (h : InOrder (test :: more) rest) : InOrder (left :: right :: more) rest := by
  obtain ⟨before, after, rfl, others⟩ := h
  obtain ⟨symbol, -, found⟩ := comparison?_cases sides
  refine ⟨before, symbol ++ right ++ after, ?_, ⟨symbol, after, rfl, others⟩⟩
  simp [eq_append_of_findFrom found]

/-- The arguments of a call stand in order in it, as many as are looked at. -/
theorem inOrder_arguments {cs content rest : List Char} {ps more : List (List Char)}
    (cut : splitCall cs = some (content, rest)) (pieces : splitTopLevel ',' content = ps ++ more) :
    InOrder ps cs := by
  obtain ⟨before, -, rfl⟩ := eq_append_of_splitCall cut
  have arguments := inOrder_splitTopLevel ',' content
  rw [pieces] at arguments
  refine (arguments.sublist (List.prefix_append ps more).sublist).of_isInfix ?_
  exact ⟨before ++ ['('], ')' :: rest, by simp⟩

/-- The texts inside a text stand in it in the order in which they are read. -/
theorem inOrder_parts (known : Registry) (cs : List Char) :
    InOrder (outline known cs).parts cs := by
  have rule := ruled known cs
  generalize outline known cs = o at rule
  cases rule with
  | refused | leaf | name => trivial
  | @comparison _ _ test whenTrue whenFalse _ _ _ _ _ cut pieces sides =>
    have arguments : InOrder [test, whenTrue, whenFalse] cs := inOrder_arguments cut pieces
    exact inOrder_comparison sides arguments
  | @bare _ _ test whenTrue whenFalse _ _ cut pieces absent =>
    have arguments : InOrder [test, whenTrue, whenFalse] cs := inOrder_arguments cut pieces
    exact arguments
  | lookup _ cut pieces => exact inOrder_arguments cut (pieces.trans (List.append_nil _).symm)
  | single _ _ _ few first ne =>
    subst first
    cases found : (Segments.ofText cs).operands with
    | nil => exact inOrder_singleton_iff.mpr (List.infix_refl cs)
    | cons p ps =>
      exact inOrder_singleton_iff.mpr
        ((Segments.inOrder_operands cs).infix_of_mem (by simp [found]))
  | chain _ _ _ many count cut =>
    have operands := Segments.inOrder_operands cs
    rwa [cut] at operands
  | group _ _ _ wrapped =>
    rw [(wrappedInterior_eq_some_iff.mp wrapped).1]
    exact ⟨['('], [')'], rfl, trivial⟩

end Reading

namespace Formula

open Text

mutual

/-- The names of cells and the texts of text nodes, depth first and from left to right. -/
def leafTexts : Formula → List (List Char)
  | .cell name => [name.toList]
  | .number _ => []
  | .text value => [value.toList]
  | .chain operands _ => leafTextsOf operands
  | .conditional _ left right whenTrue whenFalse =>
    left.leafTexts ++ right.leafTexts ++ whenTrue.leafTexts ++ whenFalse.leafTexts
  | .call _ arguments => leafTextsOf arguments

def leafTextsOf : List Formula → List (List Char)
  | [] => []
  | x :: xs => x.leafTexts ++ leafTextsOf xs

end

theorem leafTextsOf_eq (fs : List Formula) : leafTextsOf fs = (fs.map leafTexts).flatten := by
  induction fs with
  | nil => rfl
  | cons f fs ih => rw [leafTextsOf, ih, List.map_cons, List.flatten_cons]

/-- What a walk adds to the names seen are names of the tree, in its order. -/
def AddsInOrder (leaves : List (List Char)) (seen after : List String) : Prop :=
  ∃ new, after = seen ++ new ∧ (new.map String.toList).Sublist leaves

theorem AddsInOrder.trans {leaves leaves' : List (List Char)} {seen middle after : List String}
    (h : AddsInOrder leaves seen middle) (h' : AddsInOrder leaves' middle after) :
    AddsInOrder (leaves ++ leaves') seen after := by
  obtain ⟨new, rfl, some⟩ := h
  obtain ⟨new', rfl, some'⟩ := h'
  refine ⟨new ++ new', List.append_assoc _ _ _, ?_⟩
  rw [List.map_append]
  exact some.append some'

theorem AddsInOrder.nothing (leaves : List (List Char)) (seen : List String) :
    AddsInOrder leaves seen seen :=
  ⟨[], (List.append_nil seen).symm, List.nil_sublist _⟩

theorem addsInOrder_addReference (seen : List String) (name : String) :
    AddsInOrder [name.toList] seen (addReference seen name) := by
  unfold addReference
  split
  · exact .nothing _ _
  · exact ⟨[name], rfl, List.Sublist.refl _⟩

theorem addsInOrder_collectList {fs : List Formula}
    (ih : ∀ f ∈ fs, ∀ seen, AddsInOrder f.leafTexts seen (collect seen f)) (seen : List String) :
    AddsInOrder (leafTextsOf fs) seen (collectList seen fs) := by
  induction fs generalizing seen with
  | nil => exact .nothing _ _
  | cons f fs rest =>
    obtain ⟨first, ih⟩ := List.forall_mem_cons.mp ih
    exact (first seen).trans (rest ih _)

theorem addsInOrder_collect (f : Formula) (seen : List String) :
    AddsInOrder f.leafTexts seen (collect seen f) := by
  induction f using induction generalizing seen with
  | cell name => exact addsInOrder_addReference seen name
  | number | text => exact .nothing _ _
  | chain operands operators ih => exact addsInOrder_collectList ih seen
  | conditional comparator l r t f ihl ihr iht ihf =>
    exact (((ihl seen).trans (ihr _)).trans (iht _)).trans (ihf _)
  | call name arguments ih => exact addsInOrder_collectList ih seen

theorem references_sublist (f : Formula) :
    (f.references.map String.toList).Sublist f.leafTexts := by
  obtain ⟨new, whole, some⟩ := addsInOrder_collect f []
  rw [references, whole]
  exact some

end Formula

namespace Reading

open Text Formula

theorem inOrder_leaf {known : Registry} {cs : List Char} {f : Formula}
    (h : outline known cs = .leaf f) : InOrder f.leafTexts cs := by
  cases Shape.of_eq h with
  | quoted q value quote whole =>
    refine ⟨[q], [q], ?_, trivial⟩
    rw [whole, String.toList_ofList]
    rfl
  | empty => exact ⟨[], cs, rfl, trivial⟩
  | number => trivial
  | cell => exact ⟨[], [], by simp, trivial⟩

/-- The leaves of the trees of the texts inside are those of the tree put together from them. -/
theorem inOrder_builds {known : Registry} {cs : List Char} {fs : List Formula} {f : Formula}
    (build : (outline known cs).Builds fs f)
    (parts : List.Forall₂ (fun p g => InOrder g.leafTexts p) (outline known cs).parts fs) :
    InOrder f.leafTexts cs := by
  have inside : InOrder (leafTextsOf fs) cs := by
    rw [leafTextsOf_eq]
    exact (inOrder_parts known cs).flatten (List.forall₂_map_right_iff.mpr parts)
  generalize ho : outline known cs = o at build
  cases build with
  | leaf f => exact inOrder_leaf ho
  | inside text f => simpa [leafTextsOf] using inside
  | chain operands operators fs => exact inside
  | comparison => simpa [leafTextsOf, leafTexts] using inside
  | bare => simpa [leafTextsOf, leafTexts] using inside
  | lookup arguments fs => exact inside

theorem inOrder_of_expression {options : ParseOptions} {levels : Nat} {cs : List Char}
    {f : Formula} (h : expression options levels cs = .ok f) : InOrder f.leafTexts cs := by
  refine expression_induction (fun levels cs fs f build parts => ?_) h
  exact (inOrder_builds build parts).of_isInfix (trim_isInfix cs)

theorem inOrder_parse (options : ParseOptions) (text : String) :
    InOrder (parse options text).leafTexts text.toList := by
  have inside := strip_isInfix text.toList
  rcases parse_cases options text with ⟨_, read⟩ | kept
  · exact (inOrder_of_expression read).of_isInfix inside
  · rw [kept]
    exact inOrder_singleton_iff.mpr (by rwa [String.toList_ofList])

/-- The names and texts of the tree that a text is read as stand in that text in the order of the
tree and apart from one another, and so do its references. -/
theorem leafTexts_parse_inOrder (options : ParseOptions) (text : String) :
    InOrder (parse options text).leafTexts text.toList ∧
      InOrder ((parse options text).references.map String.toList) text.toList ∧
        ∀ name ∈ (parse options text).references, name.toList <:+: text.toList := by
  have leaves := inOrder_parse options text
  have names := leaves.sublist (references_sublist (parse options text))
  exact ⟨leaves, names, fun name mem => names.infix_of_mem (List.mem_map_of_mem mem)⟩

end Reading

end CellFormula
