import CellFormula.Proofs.Documents

/-!
# Trees written and read

A tree written as a document and read again is the same tree with every number as its text reads. So
it comes back if it is one that a document can describe, nests no deeper than a document may, and
all of its numbers have texts that read as numbers. A line break after the document changes nothing.
-/

namespace CellFormula

namespace Formula

mutual

/-- The tree with every number as its text reads, if all of them read as numbers. -/
def reread : Formula → Option Formula
  | .cell name => some (.cell name)
  | .number value => value.reread.map .number
  | .text value => some (.text value)
  | .chain operands operators => (rereadAll operands).map (.chain · operators)
  | .conditional comparator left right whenTrue whenFalse => do
    some (.conditional comparator (← left.reread) (← right.reread) (← whenTrue.reread)
      (← whenFalse.reread))
  | .call name arguments => (rereadAll arguments).map (.call name)

def rereadAll : List Formula → Option (List Formula)
  | [] => some []
  | f :: fs => do some ((← f.reread) :: (← rereadAll fs))

end

theorem rereadAll_eq_some_iff {fs gs : List Formula} :
    rereadAll fs = some gs ↔ List.Forall₂ (fun f g => f.reread = some g) fs gs := by
  induction fs generalizing gs with
  | nil =>
    rw [List.forall₂_nil_left_iff]
    exact ⟨fun h => by cases h; rfl, fun h => by rw [h]; rfl⟩
  | cons f fs ih =>
    simp only [rereadAll, Option.bind_eq_bind, Option.bind_eq_some_iff, Option.some.injEq,
      List.forall₂_cons_left_iff, ih]
    constructor
    · rintro ⟨g, hg, gs, hgs, rfl⟩
      exact ⟨g, gs, hg, hgs, rfl⟩
    · rintro ⟨g, gs, hg, hgs, rfl⟩
      exact ⟨g, hg, gs, hgs, rfl⟩

theorem reread_conditional_eq_some_iff {comparator : Comparator} {l r t f g : Formula} :
    (conditional comparator l r t f).reread = some g ↔ ∃ l' r' t' f', l.reread = some l' ∧
      r.reread = some r' ∧ t.reread = some t' ∧ f.reread = some f' ∧
        conditional comparator l' r' t' f' = g := by
  simp only [reread, Option.bind_eq_bind, Option.bind_eq_some_iff, Option.some.injEq]
  constructor
  · rintro ⟨l', hl, r', hr, t', ht, f', hf, rfl⟩
    exact ⟨l', r', t', f', hl, hr, ht, hf, rfl⟩
  · rintro ⟨l', r', t', f', hl, hr, ht, hf, rfl⟩
    exact ⟨l', hl, r', hr, t', ht, f', hf, rfl⟩

end Formula

namespace Node

theorem rereadAll_ofFormulas {fs : List Formula}
    (ih : ∀ f ∈ fs, (ofFormula f).reread = f.reread.map ofFormula) :
    rereadAll (ofFormulas fs) = (Formula.rereadAll fs).map ofFormulas := by
  induction fs with
  | nil => rfl
  | cons f fs rest =>
    obtain ⟨first, ih⟩ := List.forall_mem_cons.mp ih
    rw [ofFormulas, rereadAll, Formula.rereadAll, first, rest ih]
    cases f.reread with
    | none => rfl
    | some g => cases Formula.rereadAll fs <;> rfl

/-- Rereading the node of a tree is rereading the tree. -/
theorem reread_ofFormula (f : Formula) : (ofFormula f).reread = f.reread.map ofFormula := by
  induction f using Formula.induction with
  | cell | text => rfl
  | number value =>
    rw [ofFormula, reread, Formula.reread]
    cases value.reread <;> rfl
  | chain operands operators ih =>
    have args := rereadAll_ofFormulas ih
    cases operators with
    | perPair list | shared op =>
      rw [ofFormula, reread, args, Formula.reread]
      cases Formula.rereadAll operands <;> rfl
  | conditional comparator l r t f ihl ihr iht ihf =>
    rw [ofFormula, reread, Formula.reread, ihl, ihr, iht, ihf]
    cases l.reread <;> cases r.reread <;> cases t.reread <;> cases f.reread <;> rfl
  | call name arguments ih =>
    rw [ofFormula, reread, rereadAll_ofFormulas ih, Formula.reread]
    cases Formula.rereadAll arguments <;> rfl

end Node

namespace Formula

/-- A property of two lists that holds of both or neither of any two members that belong
together. -/
theorem forall_iff_of_forall₂ {r : Formula → Formula → Prop} {p : Formula → Prop}
    {fs gs : List Formula} (h : List.Forall₂ r fs gs)
    (each : ∀ f ∈ fs, ∀ g, r f g → (p g ↔ p f)) : (∀ g ∈ gs, p g) ↔ ∀ f ∈ fs, p f := by
  induction h with
  | nil => exact Iff.rfl
  | cons first _ ih =>
    obtain ⟨here, each⟩ := List.forall_mem_cons.mp each
    rw [List.forall_mem_cons, List.forall_mem_cons, here _ first, ih each]

theorem children_reread {f g : Formula} (h : f.reread = some g) :
    List.Forall₂ (fun x y => x.reread = some y) f.children g.children := by
  cases f with
  | cell | text =>
    cases h
    exact .nil
  | number value =>
    obtain ⟨y, -, rfl⟩ := Option.map_eq_some_iff.mp h
    exact .nil
  | chain operands operators =>
    obtain ⟨gs, hgs, rfl⟩ := Option.map_eq_some_iff.mp h
    exact rereadAll_eq_some_iff.mp hgs
  | conditional comparator l r t f =>
    obtain ⟨l', r', t', f', hl, hr, ht, hf, rfl⟩ := reread_conditional_eq_some_iff.mp h
    exact .cons hl (.cons hr (.cons ht (.cons hf .nil)))
  | call name arguments =>
    obtain ⟨gs, hgs, rfl⟩ := Option.map_eq_some_iff.mp h
    exact rereadAll_eq_some_iff.mp hgs

/-- A property of nodes for which their numbers do not count. -/
theorem every_reread {p : Formula → Prop} (root : ∀ f g, f.reread = some g → (p g ↔ p f))
    {f g : Formula} (h : f.reread = some g) : g.Every p ↔ f.Every p := by
  induction f using children_induction generalizing g with
  | node f ih =>
    rw [every_iff, every_iff, root f g h]
    exact and_congr_right fun _ => forall_iff_of_forall₂ (children_reread h) fun x hx y => ih x hx

theorem node_reread {f g : Formula} (h : f.reread = some g) :
    (Fitting g ↔ Fitting f) ∧ (g ≠ .cell "" ↔ f ≠ .cell "") := by
  cases f with
  | cell | text =>
    cases h
    exact ⟨Iff.rfl, Iff.rfl⟩
  | number value =>
    obtain ⟨y, -, rfl⟩ := Option.map_eq_some_iff.mp h
    simp [Fitting]
  | chain operands operators =>
    obtain ⟨gs, hgs, rfl⟩ := Option.map_eq_some_iff.mp h
    have count := (rereadAll_eq_some_iff.mp hgs).length_eq
    simp [Fitting, count]
  | conditional comparator l r t f =>
    obtain ⟨l', r', t', f', -, -, -, -, rfl⟩ := reread_conditional_eq_some_iff.mp h
    simp [Fitting]
  | call name arguments =>
    obtain ⟨gs, -, rfl⟩ := Option.map_eq_some_iff.mp h
    simp [Fitting]

theorem wellFormed_reread {f g : Formula} (h : f.reread = some g) :
    g.WellFormed ↔ f.WellFormed := by
  rw [wellFormed_iff, wellFormed_iff]
  exact every_reread (fun _ _ h => (node_reread h).1) h

theorem named_reread {f g : Formula} (h : f.reread = some g) : g.Named ↔ f.Named :=
  every_reread (fun _ _ h => (node_reread h).2) h

/-- What the documents of a tree give back is the tree reread, and nothing else. -/
theorem ofDocument_eq_ok_iff_of_document {f g : Formula} {text : String}
    (document : text = f.toDocument ∨ text = f.toIndentedDocument) :
    ofDocument text = .ok g ↔ f.documentDepth ≤ Json.depthLimit ∧ f.WellFormed ∧ f.Named ∧
      f.reread = some g := by
  rw [ofDocument_eq_ok_iff_reread document, Node.reread_ofFormula]
  constructor
  · rintro ⟨fits, m, read, built⟩
    obtain ⟨h, reread, rfl⟩ := Option.map_eq_some_iff.mp read
    obtain ⟨⟨wellFormed, named⟩, rfl⟩ := Node.toFormula_ofFormula_eq_ok_iff.mp built
    exact ⟨fits, (wellFormed_reread reread).mp wellFormed, (named_reread reread).mp named, reread⟩
  · rintro ⟨fits, wellFormed, named, reread⟩
    refine ⟨fits, Node.ofFormula g, Option.map_eq_some_iff.mpr ⟨g, reread, rfl⟩, ?_⟩
    exact Node.toFormula_ofFormula_eq_ok_iff.mpr
      ⟨⟨(wellFormed_reread reread).mpr wellFormed, (named_reread reread).mpr named⟩, rfl⟩

/-- A line break after a document changes nothing. -/
theorem ofDocument_line {f g : Formula} {text : String}
    (document : text = f.toDocument ∨ text = f.toIndentedDocument) :
    ofDocument (text ++ "\n") = .ok g ↔ ofDocument text = .ok g := by
  obtain ⟨s, rfl⟩ := exists_style document
  have line : String.ofList (f.toJson.styled s 0) ++ "\n" =
      String.ofList (f.toJson.styled s 0 ++ ['\n']) := String.ofList_append.symm
  have blank : ∀ c ∈ ['\n'], Json.isBlank c = true := List.forall_mem_singleton.mpr rfl
  rw [ofDocument_eq_ok_iff, ofDocument_eq_ok_iff, line, Json.readAll_styled_append s _ _ _ blank,
    Json.readAll_styled]

theorem rereadAll_eq_self {fs : List Formula} (h : ∀ f ∈ fs, f.reread = some f) :
    rereadAll fs = some fs := by
  rw [rereadAll_eq_some_iff, List.forall₂_same]
  exact h

/-- A tree that keeps its numbers is read as it was written. -/
theorem reread_eq_self {f : Formula} (kept : f.KeepsNumbers) (finite : f.Finite) :
    f.reread = some f := by
  induction f using induction with
  | cell | text => rfl
  | number value =>
    have same : value.reread = some value := kept finite
    rw [reread, same]
    rfl
  | chain operands operators ih =>
    have kept := everyOf_iff.mp kept.2
    have finite := everyOf_iff.mp finite.2
    rw [reread, rereadAll_eq_self fun x hx => ih x hx (kept x hx) (finite x hx)]
    rfl
  | conditional comparator l r t f ihl ihr iht ihf =>
    obtain ⟨-, kl, kr, kt, kf⟩ := kept
    obtain ⟨-, fl, fr, ft, ff⟩ := finite
    rw [reread, ihl kl fl, ihr kr fr, iht kt ft, ihf kf ff]
    rfl
  | call name arguments ih =>
    have kept := everyOf_iff.mp kept.2
    have finite := everyOf_iff.mp finite.2
    rw [reread, rereadAll_eq_self fun x hx => ih x hx (kept x hx) (finite x hx)]
    rfl

end Formula

end CellFormula
