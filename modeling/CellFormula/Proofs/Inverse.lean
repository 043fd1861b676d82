import CellFormula.Proofs.Faithful
import CellFormula.Proofs.Retry
import CellFormula.Proofs.RoundTrip

/-!
# Where writing inverts reading

The text of a tree reads as the tree again exactly when the text of every node is cut where it was
put together, does not begin with an equals sign and takes no more levels than there are.
-/

namespace CellFormula

namespace Reading

open Text Scan Nesting Formula

section

variable {known : Registry} {spelling : EqualitySpelling}

theorem outline_nil (named : known.contains "" = false) :
    outline known [] = .leaf (.text "") := by
  have word : keyword? [] = none := keyword?_eq_none_of_not_mem (by simp)
  have leaf : leaf? known [] = none :=
    leaf?_eq_none_iff.mpr ⟨rfl, rfl, by decide, named, by decide, by decide⟩
  rw [outline, word, leaf]
  rfl

/-- A text that begins with a call is no chain. -/
theorem isCall_of_chain {x : Formula} (node : Faithful known spelling x) {rest : List Char}
    {ps : List (List Char)} {ops : List Operator}
    (h : outline known (x.write spelling ++ rest) = .chain ps ops) : x.isCall = false := by
  have no_word : ∀ keyword, keyword? (x.write spelling ++ rest) ≠ some keyword := by
    intro keyword found
    cases Ruled.of_eq h with
    | chain noCall => cases noCall.symm.trans found
  cases x with
  | cell | number | text | chain => rfl
  | conditional comparator l r t f =>
    apply absurd _ (no_word .conditional)
    rw [write_conditional_eq, List.append_assoc, List.cons_append]
    exact keyword?_eq_some_iff.mpr ⟨_, _, isWord_if, rfl⟩
  | call name arguments =>
    obtain ⟨rfl, -⟩ := node
    apply absurd _ (no_word .lookup)
    rw [write_lookup_eq, List.append_assoc, List.cons_append]
    exact keyword?_eq_some_iff.mpr ⟨_, _, isWord_lookup, rfl⟩

theorem fits_of_faithful {operands : List Formula} {operators : Operators}
    (node : Faithful known spelling (.chain operands operators)) :
    operators.Fits operands.length := by
  cases operators with
  | shared operator => cases node
  | perPair links =>
    obtain ⟨-, cut⟩ := node
    generalize texts : operands.map (write spelling) = ps at cut
    cases Shape.of_eq cut with
    | chain _ whole count joins =>
      have lengths := congrArg List.length texts
      rw [List.length_map, List.length_map, count] at lengths
      exact ⟨by omega, lengths.symm⟩

theorem finite_of_faithful {x : Binary64} (node : Faithful known spelling (.number x)) :
    x.isFinite = true := by
  obtain ⟨-, leaf⟩ := node
  rcases outline_leaf_cases leaf with ⟨v, other⟩ | ⟨y, finite, same⟩ | other
  · cases other
  · have same : (if x.isZero then Binary64.zero false else x) = y := by
      simpa [Formula.norm] using same
    by_cases zero : x.isZero = true
    · simp only [Binary64.isZero, Bool.and_eq_true, beq_iff_eq] at zero
      simp [Binary64.isFinite, zero.1]
    · rw [if_neg zero] at same
      rwa [same]
  · cases other

/-- A chain that is cut as it was put together does not begin with a call. -/
theorem outlined_of_faithful_chain {x : Formula} {xs : List Formula} {operators : Operators}
    (node : Faithful known spelling (.chain (x :: xs) operators))
    (first : Faithful known spelling x) :
    Outlined known spelling (.chain (x :: xs) operators) ∧ x.isCall = false ∧
      Listed (.chain (x :: xs) operators) := by
  have fits := fits_of_faithful node
  cases operators with
  | shared operator => cases node
  | perPair links =>
    obtain ⟨wrapped, cut⟩ := node
    have count : links.length = xs.length := by simpa using fits.2
    have notLed : x.isCall = false := by
      rw [writeChain_eq count] at cut
      exact isCall_of_chain first cut
    refine ⟨⟨fits, wrapped, ?_⟩, notLed, trivial⟩
    rw [notLed]
    exact cut

/-- A node that is faithful, as its children are, is cut as it was put together, and its text says
all of it. -/
theorem outlined_node (named : known.contains "" = false) {f : Formula}
    (node : Faithful known spelling f) (below : ∀ x ∈ f.children, Faithful known spelling x) :
    Outlined known spelling f ∧ NotLed f ∧ Listed f := by
  cases f with
  | cell name =>
    obtain ⟨trimmed, leaf⟩ := node
    refine ⟨⟨trimmed, ?_, leaf⟩, trivial, trivial⟩
    intro none
    rw [none, outline_nil named] at leaf
    cases leaf
  | number x =>
    have finite := finite_of_faithful node
    exact ⟨⟨node.1, (tidy_number finite false).compact.ne_nil, node.2⟩, trivial,
      Binary64.isNaN_of_isFinite finite⟩
  | text value =>
    obtain ⟨trimmed, leaf⟩ := node
    exact ⟨⟨trimmed, by simp, leaf⟩, trivial, trivial⟩
  | chain operands operators =>
    cases operands with
    | nil => exact absurd (Operators.two_le (fits_of_faithful node)) (by decide)
    | cons x xs => exact outlined_of_faithful_chain node (below x List.mem_cons_self)
  | conditional | call => exact ⟨node, trivial, trivial⟩

theorem faithful_node {f : Formula} (node : Outlined known spelling f) (notLed : NotLed f)
    (listed : Listed f) : Faithful known spelling f := by
  cases f with
  | cell | number | text => exact ⟨node.1, node.2.2⟩
  | chain operands operators =>
    cases operators with
    | shared operator => cases listed
    | perPair links =>
      cases operands with
      | nil => cases node
      | cons x xs =>
        obtain ⟨-, wrapped, cut⟩ := node
        have other : x.isCall = false := notLed
        rw [other] at cut
        exact ⟨wrapped, cut⟩
  | conditional | call => exact node

theorem every_outlined_of_faithful (named : known.contains "" = false) {f : Formula}
    (h : f.Every (Faithful known spelling)) :
    f.Every (Outlined known spelling) ∧ f.Every NotLed ∧ f.Every Listed := by
  have nodes := h.imp_of_children fun f node below => outlined_node named node below
  simpa only [every_and_iff] using nodes

theorem every_faithful_of_outlined {f : Formula} (outlined : f.Every (Outlined known spelling))
    (notLed : f.Every NotLed) (listed : f.Every Listed) : f.Every (Faithful known spelling) :=
  (every_and_iff.mpr ⟨outlined, every_and_iff.mpr ⟨notLed, listed⟩⟩).imp
    fun _ ⟨node, notLed, listed⟩ => faithful_node node notLed listed

/-- Of the clean trees those are faithful in which no chain begins with a call, if each chain has an
operator for each pair. -/
theorem faithful_iff_of_clean (named : known.contains "" = false)
    (names : known.WithoutOperators) {f : Formula} (clean : f.Clean false) :
    f.Every (Faithful known spelling) ↔ f.Every NotLed ∧ f.Every Listed := by
  constructor
  · intro faithful
    exact (every_outlined_of_faithful named faithful).2
  · rintro ⟨notLed, listed⟩
    exact every_faithful_of_outlined (outlined_of_clean spelling names clean) notLed listed

/-- The rule for chains takes no text of a faithful tree: a chain is written in parentheses, which
that rule could not take off without an operator. -/
theorem not_operatorText {f : Formula} (node : Faithful known spelling f) :
    ¬ OperatorText known (f.write spelling) := by
  intro taken
  obtain ⟨operator, conditional, lookup, noLeaf⟩ := operatorText_iff.mp taken
  have noCall := keyword?_eq_none_iff.mpr ⟨conditional, lookup⟩
  have noName : ∀ g, outline known (f.write spelling) ≠ .leaf g := by
    intro g leaf
    cases Ruled.of_eq leaf with
    | leaf _ leaf => cases noLeaf.symm.trans leaf
    | name _ _ whole => cases operator.symm.trans whole
  cases f with
  | chain operands operators =>
    cases operators with
    | shared operator => cases node
    | perPair links =>
      obtain ⟨wrapped, -⟩ := node
      cases Ruled.of_eq wrapped with
      | single _ _ _ few first ne =>
        have less := weight_lt_of_headD (trimmed_ends rfl rfl _) first ne
        rw [List.cons_append, weight_light rfl, weight_append, weight_light rfl] at less
        exact absurd less (Nat.lt_irrefl _)
      | group _ _ whole => cases operator.symm.trans whole
  | cell | number | text => exact noName _ node.2
  | call =>
    cases Ruled.of_eq node.2 with
    | lookup call => cases noCall.symm.trans call
  | conditional =>
    cases Ruled.of_eq node with
    | comparison call => cases noCall.symm.trans call

/-- What is stripped from a text is light, so that a text that loses nothing else was stripped of an
equals sign or of nothing. -/
theorem strip_cases {cs : List Char} (h : weight cs ≤ weight (strip cs)) :
    strip cs = cs ∧ Trimmed cs ∧ cs.head? ≠ some '=' ∨ cs = '=' :: strip cs := by
  have trims := weight_trim_le cs
  unfold strip at h ⊢
  split at h
  · next rest whole =>
    have less := weight_trim_le rest
    rw [whole, weight_light rfl] at trims
    have kept : Trimmed cs := trimmed_of_weight_le (by rw [whole, weight_light rfl]; omega)
    have keptRest : Trimmed rest := trimmed_of_weight_le (by omega)
    right
    rw [kept.trim_eq] at whole
    rw [keptRest.trim_eq, whole]
  · next other =>
    have kept : Trimmed cs := trimmed_of_weight_le h
    left
    rw [kept.trim_eq] at other ⊢
    refine ⟨rfl, kept, fun first => ?_⟩
    obtain ⟨rest, rfl⟩ := List.head?_eq_some_iff.mp first
    exact other rest rfl

/-- A text that reads as the tree it was written for was not stripped, and spells that tree. -/
theorem spells_of_read {f g : Formula} {limit levels : Nat}
    (read : expression ⟨known, limit⟩ levels (strip (f.write spelling)) = .ok g)
    (same : g.same f = true) : strip (f.write spelling) = f.write spelling ∧
      (f.write spelling).head? ≠ some '=' ∧ Spells known spelling (f.write spelling) f := by
  obtain ⟨le, spells⟩ := spells_of_weight spelling read same
  rcases strip_cases le with ⟨kept, -, head⟩ | cut
  · rw [kept] at spells
    exact ⟨kept, head, spells (Nat.le_refl _)⟩
  · have spells := spells (Nat.le_of_eq (by rw [congrArg weight cut, weight_light rfl]))
    exact absurd cut ((in_place f).2 [] '=' _ spells (.inl rfl))

/-- A text that was not read comes back as itself, and no tree is written as a text that is the same
tree. -/
theorem ok_of_same {f : Formula} {r : Except ReadingError Formula}
    (same : (treeOrText (strip (f.write spelling)) r).same f = true) : ∃ g, r = .ok g := by
  cases r with
  | ok g => exact ⟨g, rfl⟩
  | error e =>
    have text := same_text same
    have whole : f.write spelling = '"' :: strip (f.write spelling) ++ ['"'] := by
      conv_lhs => rw [text, write_text, String.toList_ofList]
    have kept : strip (f.write spelling) = f.write spelling := by
      rw [whole]
      exact strip_eq_self (trimmed_ends rfl rfl _) (by simp)
    have lengths := congrArg List.length whole
    rw [kept, List.length_append, List.length_cons, List.length_singleton] at lengths
    omega

theorem toList_toText (spelling : EqualitySpelling) (f : Formula) :
    (f.toText spelling).toList = f.write spelling :=
  String.toList_ofList

theorem faithful_of_same (named : known.contains "" = false) {n : Nat} {f : Formula}
    (same : (treeOrText (strip (f.write spelling))
      (parseStrict ⟨known, n⟩ (f.toText spelling))).same f = true) :
    f.Every (Faithful known spelling) ∧ (f.write spelling).head? ≠ some '=' ∧ f.need ≤ n ∧
      strip (f.write spelling) = f.write spelling := by
  obtain ⟨g, read⟩ := ok_of_same same
  rw [read] at same
  rw [parseStrict, toList_toText] at read
  obtain ⟨kept, head, spells⟩ := spells_of_read read same
  have faithful := faithful_of_spells spells
  obtain ⟨outlined, notLed, -⟩ := every_outlined_of_faithful named faithful
  obtain ⟨k, reads⟩ := readsBack outlined
  have enough : k ≤ n := by
    apply Nat.le_of_not_lt
    intro low
    rw [kept] at read
    cases read.symm.trans (reads.settles.below n n low)
  exact ⟨faithful, head, reads.exact notLed ▸ enough, kept⟩

/-- The trees that are read back from their text, and the limits under which they are. -/
theorem same_iff_faithful (named : known.contains "" = false) (n : Nat) (f : Formula) :
    (parse ⟨known, n⟩ (f.toText spelling)).same f = true ↔
      f.Every (Faithful known spelling) ∧ (f.write spelling).head? ≠ some '=' ∧ f.need ≤ n := by
  constructor
  · intro same
    by_cases taken : OperatorText known (strip (f.toText spelling).toList)
    · rw [parse_operatorText taken, toList_toText] at same
      obtain ⟨faithful, -, -, kept⟩ := faithful_of_same named same
      rw [toList_toText, kept] at taken
      exact absurd taken (not_operatorText faithful.root)
    · rw [parse_of_not_operatorText taken, toList_toText] at same
      obtain ⟨faithful, head, enough, -⟩ := faithful_of_same named same
      exact ⟨faithful, head, enough⟩
  · rintro ⟨faithful, head, enough⟩
    obtain ⟨outlined, notLed, listed⟩ := every_outlined_of_faithful named faithful
    obtain ⟨k, reads⟩ := readsBack outlined
    have read : parseStrict ⟨known, n⟩ (f.toText spelling) = .ok f.norm := by
      rw [parseStrict, toList_toText, strip_eq_self (trimmed_write outlined).1 head]
      exact reads.settles.above n n (Nat.le_trans reads.enough enough)
    rw [parse_of_ok read]
    exact same_norm notLed listed

/-- A text that was read, written and read again gives the same tree exactly when that tree is cut,
node by node, as it was put together, does not begin with an equals sign and is not too deep. -/
theorem parse_toText_parse_iff (spelling : EqualitySpelling) (text : String) :
    (parse {} ((parse {} text).toText spelling)).same (parse {} text) = true ↔
      (parse {} text).Every (Faithful .defaults spelling) ∧
        ((parse {} text).write spelling).head? ≠ some '=' ∧ (parse {} text).need ≤ 256 :=
  same_iff_faithful (by decide) 256 (parse {} text)

/-- The parentheses around the call are not written again, and then the call is all that is read. -/
theorem parse_toText_leadingCall :
    (parse {} "(IF(A1>1,1,0))+1").toText .single = "(IF(A1>1,1,0)+1)" ∧
      (parse {} "(IF(A1>1,1,0)+1)").toText .single = "IF(A1>1,1,0)" ∧
        (parse {} ((parse {} "(IF(A1>1,1,0))+1").toText .single)).same
          (parse {} "(IF(A1>1,1,0))+1") = false := by
  decide +kernel

end

end Reading

end CellFormula
