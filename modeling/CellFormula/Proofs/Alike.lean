import CellFormula.Proofs.Compact
import CellFormula.Proofs.NormalForm
import CellFormula.Proofs.Shortest

/-!
# Trees that agree

Comparing trees as IEEE 754 compares numbers tells two of them apart unless they differ at most in
the signs of zeros, which no text shows.
-/

namespace CellFormula

namespace Formula

theorem sameListBy_iff {eq : Binary64 → Binary64 → Bool} {xs ys : List Formula} :
    sameListBy eq xs ys = true ↔ List.Forall₂ (fun x y => x.sameBy eq y = true) xs ys := by
  induction xs generalizing ys with
  | nil => cases ys <;> simp [sameListBy]
  | cons x xs ih => cases ys <;> simp [sameListBy, ih]

section

variable {f : Formula}

theorem same_cell {name : String} (h : (cell name).same f = true) : f = cell name := by
  cases f <;> simp only [same, sameBy, Bool.false_eq_true, beq_iff_eq] at h
  rw [h]

theorem same_text {value : String} (h : (text value).same f = true) : f = text value := by
  cases f <;> simp only [same, sameBy, Bool.false_eq_true, beq_iff_eq] at h
  rw [h]

theorem same_number {x : Binary64} (h : (number x).same f = true) :
    ∃ y, f = number y ∧ x.same y = true := by
  cases f <;> simp only [same, sameBy, Bool.false_eq_true] at h
  exact ⟨_, rfl, h⟩

theorem same_chain {operands : List Formula} {operators : Operators}
    (h : (chain operands operators).same f = true) :
    ∃ ys, f = chain ys operators ∧ sameListBy Binary64.same operands ys = true := by
  cases f <;>
    simp only [same, sameBy, Bool.false_eq_true, Bool.and_eq_true, beq_iff_eq] at h
  obtain ⟨children, rfl⟩ := h
  exact ⟨_, rfl, children⟩

theorem same_conditional {comparator : Comparator} {left right whenTrue whenFalse : Formula}
    (h : (conditional comparator left right whenTrue whenFalse).same f = true) :
    ∃ l r t e, f = conditional comparator l r t e ∧ left.same l = true ∧ right.same r = true ∧
      whenTrue.same t = true ∧ whenFalse.same e = true := by
  cases f <;>
    simp only [same, sameBy, Bool.false_eq_true, Bool.and_eq_true, beq_iff_eq] at h
  obtain ⟨⟨⟨⟨rfl, hl⟩, hr⟩, ht⟩, hf⟩ := h
  exact ⟨_, _, _, _, rfl, hl, hr, ht, hf⟩

theorem same_call {name : String} {arguments : List Formula}
    (h : (call name arguments).same f = true) :
    ∃ ys, f = call name ys ∧ sameListBy Binary64.same arguments ys = true := by
  cases f <;>
    simp only [same, sameBy, Bool.false_eq_true, Bool.and_eq_true, beq_iff_eq] at h
  obtain ⟨rfl, children⟩ := h
  exact ⟨_, rfl, children⟩

theorem children_same {g : Formula} (h : f.same g = true) :
    List.Forall₂ (fun x y => x.same y = true) f.children g.children := by
  cases f with
  | cell name =>
    obtain rfl := same_cell h
    exact .nil
  | text value =>
    obtain rfl := same_text h
    exact .nil
  | number x =>
    obtain ⟨y, rfl, -⟩ := same_number h
    exact .nil
  | chain operands operators =>
    obtain ⟨ys, rfl, each⟩ := same_chain h
    exact sameListBy_iff.mp each
  | conditional comparator l r t f =>
    obtain ⟨_, _, _, _, rfl, hl, hr, ht, hf⟩ := same_conditional h
    exact .cons hl (.cons hr (.cons ht (.cons hf .nil)))
  | call name arguments =>
    obtain ⟨ys, rfl, each⟩ := same_call h
    exact sameListBy_iff.mp each

end

theorem toText_eq_of_same {x y : Binary64} (h : x.same y = true) : x.toText = y.toText := by
  simp only [Binary64.same, Bool.and_eq_true, Bool.or_eq_true, beq_iff_eq] at h
  rcases h.2 with rfl | ⟨hx, hy⟩
  · rfl
  · rw [Binary64.toText_of_isZero hx, Binary64.toText_of_isZero hy]

theorem isFinite_of_same {x y : Binary64} (h : x.same y = true) (finite : x.isFinite = true) :
    y.isFinite = true := by
  simp only [Binary64.same, Bool.and_eq_true, Bool.or_eq_true, beq_iff_eq] at h
  rcases h.2 with rfl | ⟨-, zero⟩
  · exact finite
  · simp only [Binary64.isZero, Bool.and_eq_true, beq_iff_eq] at zero
    simp [Binary64.isFinite, zero.1]

section

variable {spelling : EqualitySpelling} {xs ys : List Formula}
  (h : xs.map (write spelling) = ys.map (write spelling))

include h

theorem writeLinks_congr (operators : List Operator) :
    writeLinks spelling operators xs = writeLinks spelling operators ys := by
  induction xs generalizing ys operators with
  | nil => rw [List.map_eq_nil_iff.mp h.symm]
  | cons x xs ih =>
    cases ys with
    | nil => cases h
    | cons y ys =>
      obtain ⟨first, rest⟩ := List.cons.inj h
      cases operators with
      | nil =>
        have tail := ih rest []
        change x.write spelling ++ writeLinks spelling [] xs =
          y.write spelling ++ writeLinks spelling [] ys
        rw [first, tail]
      | cons op operators => rw [writeLinks_cons, writeLinks_cons, first, ih rest]

theorem writeChain_congr (operators : List Operator) :
    writeChain spelling operators xs = writeChain spelling operators ys := by
  cases xs with
  | nil => rw [List.map_eq_nil_iff.mp h.symm]
  | cons x xs =>
    cases ys with
    | nil => cases h
    | cons y ys =>
      obtain ⟨first, rest⟩ := List.cons.inj h
      rw [writeChain_cons, writeChain_cons, first, writeLinks_congr rest]

end

theorem write_call_of_ne (spelling : EqualitySpelling) {name : String} (ne : name ≠ lookupName)
    (arguments : List Formula) : (call name arguments).write spelling = [] := by
  change (if name = lookupName then _ else []) = []
  rw [if_neg ne]

theorem map_write_congr {spelling : EqualitySpelling} {xs ys : List Formula}
    (each : ∀ x ∈ xs, ∀ g : Formula, x.same g = true → x.write spelling = g.write spelling)
    (h : sameListBy Binary64.same xs ys = true) :
    xs.map (write spelling) = ys.map (write spelling) := by
  replace h := sameListBy_iff.mp h
  induction h with
  | nil => rfl
  | cons first _ ih =>
    rw [List.map_cons, List.map_cons, each _ List.mem_cons_self _ first,
      ih fun x hx => each x (List.mem_cons_of_mem _ hx)]

/-- Trees that differ at most in the signs of zeros have one text. -/
theorem write_eq_of_same (spelling : EqualitySpelling) {f g : Formula} (h : f.same g = true) :
    f.write spelling = g.write spelling := by
  induction f using Formula.induction generalizing g with
  | cell name => rw [same_cell h]
  | text value => rw [same_text h]
  | number x =>
    obtain ⟨y, rfl, same⟩ := same_number h
    exact toText_eq_of_same same
  | chain operands operators ih =>
    obtain ⟨ys, rfl, children⟩ := same_chain h
    have texts := map_write_congr (fun x hx g => ih x hx) children
    have count := congrArg List.length texts
    rw [List.length_map, List.length_map] at count
    rw [write_chain, write_chain, count, writeChain_congr texts]
  | conditional comparator l r t f ihl ihr iht ihf =>
    obtain ⟨_, _, _, _, rfl, hl, hr, ht, hf⟩ := same_conditional h
    rw [write_conditional, write_conditional, ihl hl, ihr hr, iht ht, ihf hf]
  | call name arguments ih =>
    obtain ⟨ys, rfl, children⟩ := same_call h
    have texts := map_write_congr (fun x hx g => ih x hx) children
    by_cases lookup : name = lookupName
    · rw [lookup, write_lookup, write_lookup, writeArguments_eq, writeArguments_eq, texts]
    · rw [write_call_of_ne spelling lookup, write_call_of_ne spelling lookup]

end Formula

end CellFormula
