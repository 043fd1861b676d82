import CellFormula.Proofs.Inverse
import CellFormula.Proofs.ValidTrees

/-!
# What texts read as

Every tree read from a text is valid, in the shapes that texts have: chains list their operators,
the only function is the lookup, and the name of a cell is a trimmed text. A text that is not read
breaks a rule or needs more levels; putting the tree together never fails.
-/

namespace CellFormula

namespace Registry

/-- The registries that the operations on registries lead to. -/
inductive Reachable : Registry → Prop where
  | empty : Reachable .empty
  | defaults : Reachable .defaults
  | add {r : Registry} (h : Reachable r) (name : String) : Reachable (r.add name)
  | addAll {r : Registry} (h : Reachable r) (names : List String) : Reachable (r.addAll names)
  | clearAdded {r : Registry} (h : Reachable r) : Reachable r.clearAdded

theorem not_mem_add {r : Registry} (h : "" ∉ r.names) (name : String) :
    "" ∉ (r.add name).names := by
  unfold add
  split
  · next new =>
    simp only [isNew, Bool.and_eq_true, Bool.not_eq_true', String.isEmpty_eq_false_iff] at new
    simp only [names, List.mem_append, List.mem_singleton, not_or] at h ⊢
    exact ⟨h.1, h.2, Ne.symm new.1⟩
  · exact h

theorem not_mem_addAll {r : Registry} (h : "" ∉ r.names) (names : List String) :
    "" ∉ (r.addAll names).names := by
  unfold addAll
  induction names generalizing r with
  | nil => exact h
  | cons name names ih =>
    rw [List.foldl_cons]
    exact ih (not_mem_add h name)

theorem Reachable.not_mem {r : Registry} (h : r.Reachable) : "" ∉ r.names := by
  induction h with
  | empty => simp [names, Registry.empty]
  | defaults => decide
  | add _ name ih => exact not_mem_add ih name
  | addAll _ names ih => exact not_mem_addAll ih names
  | clearAdded _ ih =>
    simp only [names, Registry.clearAdded, List.mem_append, not_or] at ih ⊢
    exact ⟨ih.1, by simp⟩

theorem Reachable.contains_empty {r : Registry} (h : r.Reachable) : r.contains "" = false := by
  simpa [contains] using h.not_mem

end Registry

namespace Reading

open Text Scan Formula

/-- What a node read from a text can be. -/
def ReadNode : Formula → Prop
  | .cell name => name ≠ "" ∧ trim name.toList = name.toList
  | .number value => value.isFinite = true
  | .text _ => True
  | .chain operands operators =>
    ∃ list, operators = .perPair list ∧ 2 ≤ operands.length ∧ list.length + 1 = operands.length
  | .conditional .. => True
  | .call name _ => name = lookupName

/-- What a tree read from a text can be. -/
structure Image (f : Formula) : Prop where
  valid : f.validate = .ok ()
  nodes : f.Every ReadNode
  written : ∀ spelling, f.toText spelling ≠ ""

theorem write_ne_nil {f : Formula} (h : f.Every ReadNode) (spelling : EqualitySpelling) :
    f.write spelling ≠ [] := by
  cases f with
  | cell name =>
    intro none
    exact h.1 (String.toList_eq_nil_iff.mp none)
  | number value => exact Binary64.toText_ne_nil h
  | text value => simp
  | chain operands operators => simp [write_chain]
  | conditional comparator l r t f => simp [write_conditional]
  | call name arguments =>
    obtain ⟨rfl, -⟩ := h
    simp [write_lookup]

theorem image_of_every {f : Formula} (h : f.Every ReadNode) : Image f where
  valid := by
    rw [validate_eq_ok_iff]
    constructor
    · refine h.imp fun g node unnamed => ?_
      subst unnamed
      exact node.1 rfl
    · refine h.imp fun g node => ?_
      cases g with
      | number value => exact node
      | _ => trivial
  nodes := h
  written spelling empty := by
    apply write_ne_nil h spelling
    rw [toText, String.ofList_eq_empty_iff] at empty
    exact empty

section

variable {known : Registry} (named : known.contains "" = false)

include named

theorem readNode_leaf {cs : List Char} (trimmed : Trimmed cs) {f : Formula}
    (h : outline known cs = .leaf f) : f.Every ReadNode := by
  rcases outline_leaf_cases h with ⟨v, rfl⟩ | ⟨x, finite, rfl⟩ | rfl
  · trivial
  · exact finite
  · refine ⟨?_, by rw [String.toList_ofList, trimmed.trim_eq]⟩
    intro unnamed
    rw [String.ofList_eq_empty_iff] at unnamed
    subst unnamed
    cases (outline_nil named).symm.trans h

theorem readNode_builds {cs : List Char} (trimmed : Trimmed cs) {fs : List Formula} {f : Formula}
    (length : (outline known cs).parts.length = fs.length) (build : (outline known cs).Builds fs f)
    (children : ∀ g ∈ fs, g.Every ReadNode) : f.Every ReadNode := by
  generalize ho : outline known cs = o at build length
  cases build with
  | leaf f => exact readNode_leaf named trimmed ho
  | inside text f => exact children f List.mem_cons_self
  | chain operands operators fs =>
    refine ⟨?_, everyOf_iff.mpr children⟩
    cases Shape.of_eq ho with
    | chain _ _ count joins =>
      rw [Outline.parts, List.length_map, count] at length
      exact ⟨operators, rfl, by omega, length⟩
  | comparison comparator left right whenTrue whenFalse l r t f =>
    simp only [List.mem_cons, List.not_mem_nil, or_false, forall_eq_or_imp, forall_eq] at children
    exact ⟨trivial, children⟩
  | bare comparator left whenTrue whenFalse l t f =>
    simp only [List.mem_cons, List.not_mem_nil, or_false, forall_eq_or_imp, forall_eq] at children
    obtain ⟨hl, ht, hf⟩ := children
    exact ⟨trivial, hl, rfl, ht, hf⟩
  | lookup arguments fs => exact ⟨rfl, everyOf_iff.mpr children⟩

theorem readNode_of_expression {limit levels : Nat} {cs : List Char} {f : Formula}
    (h : expression ⟨known, limit⟩ levels cs = .ok f) : f.Every ReadNode := by
  refine expression_induction (fun levels cs fs f build parts => ?_) h
  exact readNode_builds named (trimmed_trim cs) parts.length_eq build
    (forall_right_of_forall₂ parts fun _ _ node => node)

end

theorem error_of_expression {known : Registry} {limit levels : Nat} {cs : List Char}
    {e : ReadingError} (h : expression ⟨known, limit⟩ levels cs = .error e) :
    e.isOfText = true ∨ e = .nestingTooDeep limit := by
  obtain ⟨k, r, -, settled⟩ := expression_settles known cs
  by_cases low : levels < k
  · right
    exact (Except.error.inj (h.symm.trans (settled.below limit levels low)))
  · left
    exact settled.final e ((settled.above limit levels (Nat.le_of_not_lt low)).symm.trans h)

theorem image_of_parse {known : Registry} (reachable : known.Reachable) (limit : Nat)
    (text : String) : Image (parse ⟨known, limit⟩ text) := by
  rcases parse_cases ⟨known, limit⟩ text with ⟨_, read⟩ | kept
  · exact image_of_every (readNode_of_expression reachable.contains_empty read)
  · rw [kept]
    exact image_of_every trivial

/-- Every text reads as a valid tree; read strictly, it does so or breaks a rule or is nested deeper
than the limit, which the error names. -/
theorem image_parse {known : Registry} (reachable : known.Reachable) (limit : Nat) (text : String) :
    Image (parse ⟨known, limit⟩ text) ∧
      ((∃ f, parseStrict ⟨known, limit⟩ text = .ok f ∧ Image f) ∨
        ∃ e, parseStrict ⟨known, limit⟩ text = .error e ∧
          (e.isOfText = true ∨ e = .nestingTooDeep limit)) := by
  constructor
  · exact image_of_parse reachable limit text
  · cases read : parseStrict ⟨known, limit⟩ text with
    | ok f =>
      exact .inl ⟨f, rfl, image_of_every (readNode_of_expression reachable.contains_empty read)⟩
    | error e => exact .inr ⟨e, rfl, error_of_expression read⟩

theorem image_parse_netPay :
    (Registry.defaults.add " net pay ").Reachable ∧
      Image (parse ⟨Registry.defaults.add " net pay ", 0⟩ "=net pay*-2") :=
  ⟨.add .defaults _, (image_parse (.add .defaults _) 0 "=net pay*-2").1⟩

end Reading

end CellFormula
