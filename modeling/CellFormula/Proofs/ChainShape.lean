import CellFormula.Proofs.Alike
import CellFormula.Proofs.RereadTrees
import CellFormula.Record.Metadata

/-!
# The shape of chains does not show

A shared operator can be repeated between all pairs of operands, in every chain of a tree. The text,
the facts and the metadata of the tree are the same before and after, and so are those of the trees
that its two documents give back. Only the documents themselves differ.
-/

namespace CellFormula.Formula

mutual

/-- The tree with every shared operator repeated between all pairs of operands. -/
def expand : Formula → Formula
  | .cell name => .cell name
  | .number value => .number value
  | .text value => .text value
  | .chain operands operators =>
    .chain (expandList operands) (.perPair (operators.toList operands.length))
  | .conditional comparator left right whenTrue whenFalse =>
    .conditional comparator left.expand right.expand whenTrue.expand whenFalse.expand
  | .call name arguments => .call name (expandList arguments)

def expandList : List Formula → List Formula
  | [] => []
  | f :: fs => f.expand :: expandList fs

end

@[simp] theorem expandList_eq (fs : List Formula) : expandList fs = fs.map expand := by
  induction fs with
  | nil => rfl
  | cons f fs ih => rw [expandList, ih, List.map_cons]

theorem expand_chain (operands : List Formula) (operators : Operators) :
    (chain operands operators).expand =
      .chain (operands.map expand) (.perPair (operators.toList operands.length)) := by
  rw [expand, expandList_eq]

theorem expand_conditional (comparator : Comparator) (l r t f : Formula) :
    (conditional comparator l r t f).expand =
      .conditional comparator l.expand r.expand t.expand f.expand := by
  rw [expand]

theorem expand_call (name : String) (arguments : List Formula) :
    (call name arguments).expand = .call name (arguments.map expand) := by
  rw [expand, expandList_eq]

theorem fits_expand (operators : Operators) (count : Nat) :
    (Operators.perPair (operators.toList count)).Fits count ↔ operators.Fits count := by
  cases operators with
  | perPair list => exact Iff.rfl
  | shared op =>
    simp only [Operators.Fits, Operators.toList, List.length_replicate]
    omega

theorem map_expand {α : Type} {read : Formula → α} {fs : List Formula}
    (h : ∀ f ∈ fs, read f.expand = read f) : (fs.map expand).map read = fs.map read := by
  rw [List.map_map]
  exact List.map_congr_left h

theorem write_expand (spelling : EqualitySpelling) (f : Formula) :
    f.expand.write spelling = f.write spelling := by
  induction f using induction with
  | cell | number | text => rfl
  | chain operands operators ih =>
    rw [expand_chain, write_chain, write_chain, writeChain_congr (map_expand ih)]
    rfl
  | conditional comparator l r t f ihl ihr iht ihf =>
    rw [expand_conditional, write_conditional, write_conditional, ihl, ihr, iht, ihf]
  | call name arguments ih =>
    rw [expand_call]
    by_cases lookup : name = lookupName
    · rw [lookup, write_lookup, write_lookup, writeArguments_eq, writeArguments_eq,
        map_expand ih]
    · rw [write_call_of_ne spelling lookup, write_call_of_ne spelling lookup]

theorem kind_expand (f : Formula) : f.expand.kind = f.kind := by
  cases f <;> rfl

theorem isConditional_expand (f : Formula) : f.expand.isConditional = f.isConditional := by
  cases f <;> rfl

theorem isLookup_expand (f : Formula) : f.expand.isLookup = f.isLookup := by
  cases f <;> rfl

theorem complexity_expand (f : Formula) : f.expand.complexity = f.complexity := by
  induction f using induction with
  | cell | number | text | call => rfl
  | chain operands operators ih =>
    rw [expand_chain, complexity, complexity, complexityList_eq, complexityList_eq, map_expand ih]
  | conditional comparator l r t f ihl ihr iht ihf =>
    rw [expand_conditional, complexity, complexity, ihl, ihr, iht, ihf]

theorem collectList_expand {fs : List Formula}
    (h : ∀ f ∈ fs, ∀ seen, collect seen f.expand = collect seen f) (seen : List String) :
    collectList seen (fs.map expand) = collectList seen fs := by
  induction fs generalizing seen with
  | nil => rfl
  | cons f fs ih =>
    obtain ⟨first, rest⟩ := List.forall_mem_cons.mp h
    rw [List.map_cons, collectList, collectList, first, ih rest]

theorem collect_expand (f : Formula) (seen : List String) :
    collect seen f.expand = collect seen f := by
  induction f using induction generalizing seen with
  | cell | number | text => rfl
  | chain operands operators ih =>
    rw [expand_chain, collect, collect, collectList_expand fun x hx => ih x hx]
  | conditional comparator l r t f ihl ihr iht ihf =>
    rw [expand_conditional, collect, collect, ihl, ihr, iht, ihf]
  | call name arguments ih =>
    rw [expand_call, collect, collect, collectList_expand fun x hx => ih x hx]

theorem occursList_expand {p : Formula → Bool} {fs : List Formula}
    (h : ∀ f ∈ fs, f.expand.occurs p = f.occurs p) :
    occursList p (fs.map expand) = occursList p fs := by
  have same := congrArg (List.any · id) (map_expand h)
  simpa only [occursList_eq, List.any_map, Function.id_comp] using same

/-- What does not depend on the shape of one node occurs before and after. -/
theorem occurs_expand {p : Formula → Bool} (h : ∀ f : Formula, p f.expand = p f) (f : Formula) :
    f.expand.occurs p = f.occurs p := by
  induction f using induction with
  | cell | number | text => rfl
  | chain operands operators ih =>
    have here := h (.chain operands operators)
    simp only [expand_chain] at here
    rw [expand_chain, occurs, occurs, here, occursList_expand ih]
  | conditional comparator l r t f ihl ihr iht ihf =>
    have here := h (.conditional comparator l r t f)
    rw [expand_conditional] at here
    rw [expand_conditional, occurs, occurs, here, iht, ihf]
  | call name arguments ih =>
    have here := h (.call name arguments)
    simp only [expand_call] at here
    rw [expand_call, occurs, occurs, here, occursList_expand ih]

theorem validateList_expand {fs : List Formula} (h : ∀ f ∈ fs, f.expand.validate = f.validate) :
    validateList (fs.map expand) = validateList fs := by
  induction fs with
  | nil => rfl
  | cons f fs ih =>
    obtain ⟨first, rest⟩ := List.forall_mem_cons.mp h
    rw [List.map_cons, validateList, validateList, first, ih rest]

theorem validate_expand (f : Formula) : f.expand.validate = f.validate := by
  induction f using induction with
  | cell | number | text => rfl
  | chain operands operators ih =>
    rw [expand_chain, validate, validate, validateList_expand ih]
  | conditional comparator l r t f ihl ihr iht ihf =>
    rw [expand_conditional, validate, validate, ihl, ihr, iht, ihf]
  | call name arguments ih =>
    rw [expand_call, validate, validate, validateList_expand ih]

theorem deepest_expand {fs : List Formula}
    (h : ∀ f ∈ fs, f.expand.documentDepth = f.documentDepth) :
    deepest (fs.map expand) = deepest fs := by
  induction fs with
  | nil => rfl
  | cons f fs ih =>
    obtain ⟨first, rest⟩ := List.forall_mem_cons.mp h
    rw [List.map_cons, deepest, deepest, first, ih rest]

/-- A list of operators is no deeper than the operands beside it. -/
theorem documentDepth_expand (f : Formula) : f.expand.documentDepth = f.documentDepth := by
  induction f using induction with
  | cell | number | text => rfl
  | chain operands operators ih =>
    rw [expand_chain, documentDepth, documentDepth, deepest_expand ih]
  | conditional comparator l r t f ihl ihr iht ihf =>
    rw [expand_conditional, documentDepth, documentDepth, ihl, ihr, iht, ihf]
  | call name arguments ih =>
    rw [expand_call, documentDepth, documentDepth, deepest_expand ih]

theorem rereadAll_expand {fs : List Formula}
    (h : ∀ f ∈ fs, f.expand.reread = f.reread.map expand) :
    rereadAll (fs.map expand) = (rereadAll fs).map (List.map expand) := by
  induction fs with
  | nil => rfl
  | cons f fs ih =>
    obtain ⟨first, rest⟩ := List.forall_mem_cons.mp h
    rw [List.map_cons, rereadAll, rereadAll, first, ih rest]
    cases f.reread with
    | none => rfl
    | some g => cases rereadAll fs <;> rfl

theorem length_rereadAll {fs gs : List Formula} (h : rereadAll fs = some gs) :
    gs.length = fs.length :=
  (rereadAll_eq_some_iff.mp h).length_eq.symm

theorem reread_expand (f : Formula) : f.expand.reread = f.reread.map expand := by
  induction f using induction with
  | cell | text => rfl
  | number value =>
    rw [expand, reread]
    cases value.reread <;> rfl
  | chain operands operators ih =>
    rw [expand_chain, reread, reread, rereadAll_expand ih]
    cases read : rereadAll operands with
    | none => rfl
    | some gs => simp [expand_chain, length_rereadAll read]
  | conditional comparator l r t f ihl ihr iht ihf =>
    rw [expand_conditional, reread, reread, ihl, ihr, iht, ihf]
    cases l.reread <;> cases r.reread <;> cases t.reread <;> cases f.reread <;> rfl
  | call name arguments ih =>
    rw [expand_call, reread, reread, rereadAll_expand ih]
    cases rereadAll arguments with
    | none => rfl
    | some gs => simp [expand_call]

theorem children_expand (f : Formula) : f.expand.children = f.children.map expand := by
  cases f <;> simp [expand, children]

theorem every_expand {p : Formula → Prop} (root : ∀ f : Formula, p f.expand ↔ p f) (f : Formula) :
    f.expand.Every p ↔ f.Every p := by
  induction f using children_induction with
  | node f ih =>
    rw [every_iff, every_iff, root, children_expand, List.forall_mem_map]
    exact and_congr_right fun _ => forall₂_congr ih

theorem wellFormed_expand (f : Formula) : f.expand.WellFormed ↔ f.WellFormed := by
  rw [wellFormed_iff, wellFormed_iff]
  refine every_expand (fun f => ?_) f
  cases f with
  | cell | number | text | conditional | call => exact Iff.rfl
  | chain operands operators =>
    rw [expand_chain, Fitting, Fitting, List.length_map]
    exact fits_expand operators operands.length

theorem named_expand (f : Formula) : f.expand.Named ↔ f.Named :=
  every_expand (fun f => by cases f <;> simp [expand]) f

/-- A tree and its expansion give back a tree and its expansion. -/
theorem ofDocument_expand_iff {f g' : Formula} : ofDocument f.expand.toDocument = .ok g' ↔
    ∃ g, ofDocument f.toDocument = .ok g ∧ g.expand = g' := by
  simp only [ofDocument_eq_ok_iff_of_document (.inl rfl), documentDepth_expand, wellFormed_expand,
    named_expand, reread_expand, Option.map_eq_some_iff]
  constructor
  · rintro ⟨fits, wellFormed, named, g, read, same⟩
    exact ⟨g, ⟨fits, wellFormed, named, read⟩, same⟩
  · rintro ⟨g, ⟨fits, wellFormed, named, read⟩, same⟩
    exact ⟨fits, wellFormed, named, g, read, same⟩

/-- The two trees agree in all that is read off a tree, save its document. -/
structure Indistinguishable (f g : Formula) : Prop where
  text : ∀ spelling, f.toText spelling = g.toText spelling
  complexity : f.complexity = g.complexity
  references : f.references = g.references
  hasConditional : f.hasConditional = g.hasConditional
  hasLookup : f.hasLookup = g.hasLookup
  kind : f.kind = g.kind
  validate : f.validate = g.validate
  metadata : ∀ spelling, Metadata.of spelling f = Metadata.of spelling g

theorem indistinguishable_expand_self (f : Formula) : f.Indistinguishable f.expand := by
  have text (spelling) : f.toText spelling = f.expand.toText spelling := by
    rw [toText, toText, write_expand]
  have references : f.references = f.expand.references := (collect_expand f []).symm
  have hasConditional : f.hasConditional = f.expand.hasConditional :=
    (occurs_expand isConditional_expand f).symm
  have hasLookup : f.hasLookup = f.expand.hasLookup := (occurs_expand isLookup_expand f).symm
  refine ⟨text, (complexity_expand f).symm, references, hasConditional, hasLookup,
    (kind_expand f).symm, (validate_expand f).symm, fun spelling => ?_⟩
  rw [Metadata.of, Metadata.of, text spelling, kind_expand, complexity_expand, hasConditional,
    hasLookup, references]

/-- Whether chains share their operators shows in nothing that is read off a tree. Either both
documents can be read or neither, and then they give back trees that agree in the same way. -/
theorem indistinguishable_expand (f : Formula) :
    f.Indistinguishable f.expand ∧
      ((∃ g, ofDocument f.toDocument = .ok g) ↔ ∃ g', ofDocument f.expand.toDocument = .ok g') ∧
        ∀ g g', ofDocument f.toDocument = .ok g → ofDocument f.expand.toDocument = .ok g' →
          g.Indistinguishable g' := by
  refine ⟨indistinguishable_expand_self f, ?_, ?_⟩
  · constructor
    · rintro ⟨g, read⟩
      exact ⟨g.expand, ofDocument_expand_iff.mpr ⟨g, read, rfl⟩⟩
    · rintro ⟨g', read⟩
      obtain ⟨g, read, -⟩ := ofDocument_expand_iff.mp read
      exact ⟨g, read⟩
  · intro g g' read read'
    obtain ⟨h, again, rfl⟩ := ofDocument_expand_iff.mp read'
    obtain rfl : g = h := Except.ok.inj (read.symm.trans again)
    exact indistinguishable_expand_self g

/-- `LOOKUP((A1+IF(B1=2,(C1*C1*C1),"")+A1))`, with a shared operator on both levels. -/
def sharedSums : Formula :=
  .lookup [.chain [.cell "A1",
    .conditional .equal (.cell "B1") (.number (.ofNat 2))
      (.chain [.cell "C1", .cell "C1", .cell "C1"] (.shared .multiply)) (.text ""),
    .cell "A1"] (.shared .add)]

theorem indistinguishable_expand_sharedSums : sharedSums.expand ≠ sharedSums ∧
    ofDocument sharedSums.toDocument = .ok sharedSums ∧
      ofDocument sharedSums.expand.toDocument = .ok sharedSums.expand ∧
        sharedSums.Indistinguishable sharedSums.expand := by
  have two : KeptNumber (.number (.ofNat 2)) := fun _ => by decide +kernel
  have product : Operators.Fits 3 (.shared .multiply) := Nat.le_succ 2
  have wellFormed : sharedSums.WellFormed :=
    ⟨⟨Nat.le_succ 2, trivial, ⟨trivial, trivial, ⟨product, trivial, trivial, trivial, trivial⟩,
      trivial⟩, trivial, trivial⟩, trivial⟩
  have kept : sharedSums.KeepsNumbers :=
    ⟨trivial, ⟨trivial, trivial, ⟨trivial, trivial, two,
      ⟨trivial, trivial, trivial, trivial, trivial⟩, trivial⟩, trivial, trivial⟩, trivial⟩
  obtain ⟨named, finite⟩ := (validate_eq_ok_iff sharedSums).mp rfl
  have read : ofDocument sharedSums.toDocument = .ok sharedSums :=
    (ofDocument_eq_ok_iff_of_document (.inl rfl)).mpr
      ⟨by decide, wellFormed, named, reread_eq_self kept finite⟩
  have read' : ofDocument sharedSums.expand.toDocument = .ok sharedSums.expand :=
    ofDocument_expand_iff.mpr ⟨sharedSums, read, rfl⟩
  exact ⟨by decide, read, read', (indistinguishable_expand sharedSums).2.2 _ _ read read'⟩

end CellFormula.Formula
