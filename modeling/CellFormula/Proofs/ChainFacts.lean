import Mathlib.Data.List.Perm.Basic
import CellFormula.Proofs.ChainEdits
import CellFormula.Proofs.Compact
import CellFormula.Proofs.References

/-!
# Facts about edited chains

The facts kept about a chain are brought up to date from the operand that comes or goes alone. They
depend on the operands and on no operator, and all but the order of the references and the text do
not depend on the order of the operands either. So what edits add and what they take out balances,
for one edit as for many.
-/

namespace CellFormula

open Formula

namespace Formula

theorem hasConditional_chain (operands : List Formula) (operators : Operators) :
    (chain operands operators).hasConditional = operands.any hasConditional :=
  occursList_eq isConditional operands

theorem hasLookup_chain (operands : List Formula) (operators : Operators) :
    (chain operands operators).hasLookup = operands.any hasLookup :=
  occursList_eq isLookup operands

theorem mem_references_chain {operands : List Formula} {operators : Operators} {name : String} :
    name ∈ (chain operands operators).references ↔ ∃ x ∈ operands, name ∈ x.references := by
  simp only [mem_references, cellNames, cellNamesOf_eq, List.mem_flatMap]
  constructor
  · rintro ⟨proper, x, hx, mem⟩
    exact ⟨x, hx, proper, mem⟩
  · rintro ⟨x, hx, proper, mem⟩
    exact ⟨proper, x, hx, mem⟩

/-- Which of equal names is kept does not depend on the names that are left out. -/
theorem eraseDups_filter (p : String → Bool) (xs : List String) :
    (xs.filter p).eraseDups = xs.eraseDups.filter p := by
  induction xs using List.reverseRecOn with
  | nil => rfl
  | append_singleton xs x ih =>
    rw [List.filter_append, eraseDups_concat]
    by_cases kept : p x = true
    · rw [List.filter_singleton, kept, cond_true, eraseDups_concat, ih]
      by_cases old : x ∈ xs <;> simp [old, kept]
    · by_cases old : x ∈ xs <;> simp [old, kept, ih]

end Formula

namespace Chain

-- The zero of a sum is the numeral.
attribute [local instance (high)] Zero.ofOfNat0

/-- As far as facts go, one chain with some trees beside it counts for another with others. -/
structure Balance (c : Chain) (xs : List Formula) (c' : Chain) (ys : List Formula) : Prop where
  complexity : c.toFormula.complexity + (xs.map Formula.complexity).sum =
    c'.toFormula.complexity + (ys.map Formula.complexity).sum
  references : ∀ name, (name ∈ c.toFormula.references ∨ ∃ x ∈ xs, name ∈ x.references) ↔
    name ∈ c'.toFormula.references ∨ ∃ y ∈ ys, name ∈ y.references
  hasConditional : (c.toFormula.hasConditional || xs.any Formula.hasConditional) =
    (c'.toFormula.hasConditional || ys.any Formula.hasConditional)
  hasLookup : (c.toFormula.hasLookup || xs.any Formula.hasLookup) =
    (c'.toFormula.hasLookup || ys.any Formula.hasLookup)

theorem balance_of_perm {c c' : Chain} {xs ys : List Formula}
    (perm : (c.operands ++ xs).Perm (c'.operands ++ ys)) : Balance c xs c' ys where
  complexity := by
    have sums := (perm.map Formula.complexity).sum_nat
    simp only [List.map_append, List.sum_append] at sums
    simp only [toFormula, Formula.complexity, complexityList_eq]
    omega
  references name := by
    have mem : (∃ x ∈ c.operands ++ xs, name ∈ x.references) ↔
        ∃ y ∈ c'.operands ++ ys, name ∈ y.references := by simp only [perm.mem_iff]
    simpa only [toFormula, mem_references_chain, List.mem_append, or_and_right, exists_or] using mem
  hasConditional := by
    simp only [toFormula, hasConditional_chain, ← List.any_append]
    exact perm.any_eq
  hasLookup := by
    simp only [toFormula, hasLookup_chain, ← List.any_append]
    exact perm.any_eq

theorem perm_push (c : Chain) (operator : Operator) (x : Formula) :
    ((c.push operator x).operands ++ []).Perm (c.operands ++ [x]) := by
  rw [operands_push, List.append_nil]

theorem perm_of_remove {c c' : Chain} {index : Nat} {x : Formula}
    (h : c.remove index = .ok (x, c')) : (c'.operands ++ [x]).Perm (c.operands ++ []) := by
  obtain ⟨-, found, operands, -⟩ := remove_ok h
  obtain ⟨inside, rfl⟩ := List.getElem?_eq_some_iff.mp found
  rw [operands, List.append_nil]
  exact (List.perm_append_singleton _ _).trans (List.getElem_cons_eraseIdx_perm inside)

theorem references_push (c : Chain) (operator : Operator) (x : Formula) :
    (c.push operator x).toFormula.references =
      c.toFormula.references ++ x.references.filter (· ∉ c.toFormula.references) := by
  have walk : (c.push operator x).toFormula.references = collect c.toFormula.references x := by
    simp only [collect_eq_foldl, references, toFormula, cellNames, cellNamesOf_eq, operands_push,
      List.flatMap_append, List.flatMap_singleton, List.foldl_append]
  rw [walk, collect_eq, eraseDups_filter, ← references_eq]

theorem toText_push (spelling : EqualitySpelling) (c : Chain) (operator : Operator)
    (x : Formula) :
    ∃ front, c.toFormula.toText spelling = front ++ ")" ∧
      (c.push operator x).toFormula.toText spelling =
        front ++ String.singleton operator.symbol ++ x.toText spelling ++ ")" := by
  have written : ∀ d : Chain, d.toFormula.write spelling =
      '(' :: writeChain spelling d.links d.operands ++ [')'] := fun d => rfl
  have count : c.links.length + 1 = c.operands.length := c.length_links
  obtain ⟨y, ys, operands⟩ := List.exists_cons_of_length_eq_add_one count.symm
  have fit : c.links.length = ys.length := by simpa [operands] using count
  have more : writeChain spelling (c.links ++ [operator]) (c.operands ++ [x]) =
      writeChain spelling c.links c.operands ++ operator.symbol :: x.write spelling := by
    rw [operands, List.cons_append, writeChain_eq (by simpa using fit), writeChain_eq fit,
      List.map_append, List.zip_append (by simpa using fit), Scan.links, List.flatMap_append]
    simp [Scan.links]
  refine ⟨String.ofList ('(' :: writeChain spelling c.links c.operands), ?_, ?_⟩
  · rw [toText, written, String.ofList_append]
  · apply String.toList_injective
    rw [toText, toText, written, operands_push, links_push, more]
    simp

/-- What a chain counts for after an edit, from what it counted for before and from the operand that
the edit adds or takes out. An added operand also comes last in the references, as far as they are
new, and in the text. -/
theorem facts_after_edit (c : Chain) :
    (∀ operator x,
      (c.push operator x).toFormula.complexity = c.toFormula.complexity + x.complexity ∧
      (c.push operator x).toFormula.references =
        c.toFormula.references ++ x.references.filter (· ∉ c.toFormula.references) ∧
      (c.push operator x).toFormula.hasConditional =
        (c.toFormula.hasConditional || x.hasConditional) ∧
      (c.push operator x).toFormula.hasLookup = (c.toFormula.hasLookup || x.hasLookup) ∧
      ∀ spelling, ∃ front, c.toFormula.toText spelling = front ++ ")" ∧
        (c.push operator x).toFormula.toText spelling =
          front ++ String.singleton operator.symbol ++ x.toText spelling ++ ")") ∧
    (∀ index x c', c.remove index = .ok (x, c') →
      c.toFormula.complexity = c'.toFormula.complexity + x.complexity ∧
      (∀ name, name ∈ c.toFormula.references ↔
        name ∈ c'.toFormula.references ∨ name ∈ x.references) ∧
      c.toFormula.hasConditional = (c'.toFormula.hasConditional || x.hasConditional) ∧
      c.toFormula.hasLookup = (c'.toFormula.hasLookup || x.hasLookup)) ∧
    ∀ index operator c', c.setOperator index operator = .ok c' →
      c'.toFormula.complexity = c.toFormula.complexity ∧
      c'.toFormula.references = c.toFormula.references ∧
      c'.toFormula.hasConditional = c.toFormula.hasConditional ∧
      c'.toFormula.hasLookup = c.toFormula.hasLookup := by
  refine ⟨?_, ?_, ?_⟩
  · intro operator x
    obtain ⟨complexity, -, conditional, lookup⟩ := balance_of_perm (perm_push c operator x)
    exact ⟨by simpa using complexity, references_push c operator x, by simpa using conditional,
      by simpa using lookup, fun spelling => toText_push spelling c operator x⟩
  · intro index x c' removed
    obtain ⟨complexity, references, conditional, lookup⟩ :=
      balance_of_perm (perm_of_remove removed)
    refine ⟨by simpa using complexity.symm, fun name => ?_, by simpa using conditional.symm,
      by simpa using lookup.symm⟩
    simpa using (references name).symm
  · intro index operator c' set
    obtain ⟨-, operands, -⟩ := setOperator_ok set
    simp only [toFormula, operands]
    exact ⟨rfl, rfl, rfl, rfl⟩

/-- A sum of two cells and a conditional. -/
def tally : Chain where
  operands := [.cell "A1", .conditional .equal (.cell "A1") (.lookup []) (.cell "B1") (.text ""),
    .cell "C1"]
  operators := .shared .add
  fits := by decide

theorem facts_after_edit_tally :
    (tally.push .subtract (.lookup [.cell "C1", .cell "D1"])).toFormula.references =
      ["A1", "B1", "C1", "D1"] ∧
    (∃ x c', tally.remove 1 = .ok (x, c') ∧ x.complexity = 5 ∧
      tally.toFormula.complexity = c'.toFormula.complexity + x.complexity ∧
      tally.toFormula.hasConditional =
        (c'.toFormula.hasConditional || x.hasConditional)) ∧
    ∃ c', tally.setOperator 1 .divide = .ok c' ∧ c'.operators = .perPair [.add, .divide] ∧
      c'.toFormula.references = tally.toFormula.references := by
  obtain ⟨pushed, removed, set⟩ := facts_after_edit tally
  refine ⟨?_, ?_, ?_⟩
  · exact (pushed .subtract (.lookup [.cell "C1", .cell "D1"])).2.1.trans rfl
  · obtain ⟨complexity, -, conditional, -⟩ := removed 1 _ _ rfl
    exact ⟨_, _, rfl, rfl, complexity, conditional⟩
  · obtain ⟨-, references, -⟩ := set 1 .divide _ rfl
    exact ⟨_, rfl, rfl, references⟩

end Chain

/-- The operands that edits add. -/
def Edit.pushed (edits : List Edit) : List Formula :=
  edits.filterMap fun
    | .push _ operand => some operand
    | _ => none

/-- The operands that edits have taken out. -/
def Edit.removed (answers : List Edit.Answer) : List Formula :=
  answers.filterMap fun
    | .ok operand => operand
    | .error _ => none

theorem Edit.pushed_cons (e : Edit) (edits : List Edit) :
    pushed (e :: edits) = pushed [e] ++ pushed edits := by
  rw [← List.singleton_append]
  exact List.filterMap_append

theorem Edit.removed_cons (answer : Edit.Answer) (answers : List Edit.Answer) :
    removed (answer :: answers) = removed [answer] ++ removed answers := by
  rw [← List.singleton_append]
  exact List.filterMap_append

namespace Chain

theorem perm_apply (e : Edit) (c : Chain) :
    ((e.apply c).2.operands ++ Edit.removed [(e.apply c).1]).Perm
      (c.operands ++ Edit.pushed [e]) := by
  cases e with
  | push operator x => exact perm_push c operator x
  | setOperator index operator =>
    simp only [Edit.apply]
    split
    · next c' set =>
      obtain ⟨-, operands, -⟩ := setOperator_ok set
      simp [operands, Edit.removed, Edit.pushed]
    · exact .refl _
  | remove index =>
    simp only [Edit.apply]
    split
    · next x c' removed => exact perm_of_remove removed
    · exact .refl _

theorem runAll_cons (e : Edit) (edits : List Edit) (c : Chain) :
    Edit.runAll Edit.apply (e :: edits) c =
      ((e.apply c).1 :: (Edit.runAll Edit.apply edits (e.apply c).2).1,
        (Edit.runAll Edit.apply edits (e.apply c).2).2) := rfl

/-- Nothing is lost and nothing is doubled: what a chain holds after edits and what they took out
are what it held before and what they added. -/
theorem perm_runAll (edits : List Edit) (c : Chain) :
    ((Edit.runAll Edit.apply edits c).2.operands ++
      Edit.removed (Edit.runAll Edit.apply edits c).1).Perm
        (c.operands ++ Edit.pushed edits) := by
  induction edits generalizing c with
  | nil => exact .refl _
  | cons e edits ih =>
    have first := perm_apply e c
    have rest := ih (e.apply c).2
    rw [runAll_cons, Edit.removed_cons, Edit.pushed_cons]
    generalize Edit.runAll Edit.apply edits (e.apply c).2 = later at rest ⊢
    generalize Edit.removed [(e.apply c).1] = out at first ⊢
    calc (later.2.operands ++ (out ++ Edit.removed later.1)).Perm
          (out ++ (later.2.operands ++ Edit.removed later.1)) := List.perm_append_comm_assoc _ _ _
      List.Perm _ (out ++ ((e.apply c).2.operands ++ Edit.pushed edits)) := rest.append_left out
      List.Perm _ ((e.apply c).2.operands ++ (out ++ Edit.pushed edits)) :=
        List.perm_append_comm_assoc _ _ _
      List.Perm _ (c.operands ++ (Edit.pushed [e] ++ Edit.pushed edits)) := by
        rw [← List.append_assoc, ← List.append_assoc]
        exact first.append_right _

/-- The facts balance over any edits, failed ones among them. -/
theorem balance_runAll (edits : List Edit) (c : Chain) :
    Balance (Edit.runAll Edit.apply edits c).2 (Edit.removed (Edit.runAll Edit.apply edits c).1)
      c (Edit.pushed edits) :=
  balance_of_perm (perm_runAll edits c)

end Chain

end CellFormula
