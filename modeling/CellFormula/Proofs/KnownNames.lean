import CellFormula.Proofs.Image

/-!
# What known names change

A known name is read as a cell before the rules for chains and groups are tried, and those make the
same cell of it if it is neither a chain nor a group. Registries that differ in such names only
therefore read every text alike, with every limit.
-/

namespace CellFormula

open Text Scan Reading

namespace Registry

/-- A name without an operator at top level that is no group. -/
def Ordinary (name : String) : Prop :=
  hasTopLevelOperator name.toList = false ∧ wrappedInterior .paren name.toList = none

instance (name : String) : Decidable (Ordinary name) :=
  inferInstanceAs (Decidable (_ ∧ _))

/-- Every name known to exactly one of the two registries is ordinary. -/
def Interchangeable (r r' : Registry) : Prop :=
  ∀ name, r.contains name ≠ r'.contains name → Ordinary name

theorem Interchangeable.trans {r r' r'' : Registry} (h : r.Interchangeable r')
    (h' : r'.Interchangeable r'') : r.Interchangeable r'' := by
  intro name differs
  by_cases same : r.contains name = r'.contains name
  · exact h' name (same ▸ differs)
  · exact h name same

theorem contains_add {r : Registry} {name other : String}
    (h : (r.add name).contains other ≠ r.contains other) :
    other = String.ofList (trim name.toList) := by
  unfold add at h
  split at h
  · by_contra different
    apply h
    simp [contains, names, different]
  · exact absurd rfl h

theorem interchangeable_add (r : Registry) {name : String}
    (ordinary : Ordinary (String.ofList (trim name.toList))) : (r.add name).Interchangeable r := by
  intro other h
  rw [contains_add h]
  exact ordinary

theorem interchangeable_empty : defaults.Interchangeable .empty := by
  intro name h
  have known : name ∈ defaultNames := by
    simpa [contains, names, defaults, empty] using h
  have all : ∀ name ∈ defaultNames, Ordinary name := by decide
  exact all name known

end Registry

namespace Reading

open Registry

/-- What the last rule makes of an ordinary name. -/
theorem groupingOutline_of_ordinary {cs : List Char} (h : Ordinary (String.ofList cs))
    (ne : cs ≠ []) : groupingOutline cs = .leaf (cellNamed cs) := by
  have wrapped : wrappedInterior .paren cs = none := by simpa using h.2
  have nonempty : ¬ cs.isEmpty = true := by simpa using ne
  rw [groupingOutline, wrapped]
  simp only [if_neg nonempty]

theorem outline_eq_of_known {r r' : Registry} {cs : List Char}
    (known : r.contains (String.ofList cs) = true)
    (unknown : r'.contains (String.ofList cs) = false)
    (ordinary : Ordinary (String.ofList cs)) (ne : cs ≠ []) : outline r cs = outline r' cs := by
  have operator : hasTopLevelOperator cs = false := by simpa using ordinary.1
  have group := groupingOutline_of_ordinary ordinary ne
  unfold outline
  cases keyword? cs with
  | some keyword => rfl
  | none =>
    simp only [leaf?, known, unknown, operator, group]
    cases quotedInterior cs with
    | some interior => rfl
    | none =>
      cases wrappedInterior .bracket cs with
      | some interior => rfl
      | none =>
        cases number? cs with
        | some value => rfl
        | none => cases isSpreadsheetName cs <;> cases isIdentifier cs <;> rfl

theorem outline_eq_of_interchangeable {r r' : Registry} (hr : r.Reachable) (hr' : r'.Reachable)
    (h : r.Interchangeable r') (cs : List Char) : outline r cs = outline r' cs := by
  by_cases agree : r.contains (String.ofList cs) = r'.contains (String.ofList cs)
  · simp only [outline, leaf?, agree]
  · have ordinary := h _ agree
    have ne : cs ≠ [] := by
      rintro rfl
      exact agree (hr.contains_empty.trans hr'.contains_empty.symm)
    cases known : r.contains (String.ofList cs) with
    | true =>
      have unknown : r'.contains (String.ofList cs) = false := by
        rw [known] at agree
        exact Bool.eq_false_iff.mpr (Ne.symm agree)
      exact outline_eq_of_known known unknown ordinary ne
    | false =>
      have known' : r'.contains (String.ofList cs) = true := by
        rw [known] at agree
        exact Bool.ne_false_iff.mp (Ne.symm agree)
      exact (outline_eq_of_known known' known ordinary ne).symm

theorem expression_eq_of_interchangeable {r r' : Registry} (hr : r.Reachable)
    (hr' : r'.Reachable) (h : r.Interchangeable r') (limit levels : Nat) :
    expression ⟨r, limit⟩ levels = expression ⟨r', limit⟩ levels := by
  induction levels with
  | zero => rfl
  | succ levels ih =>
    funext cs
    simp only [expression_succ, rules_eq_read, ih, outline_eq_of_interchangeable hr hr' h]

/-- Both ways of reading the text give the same with the two registries. -/
def ReadAlike (r r' : Registry) (limit : Nat) (text : String) : Prop :=
  Formula.parse ⟨r, limit⟩ text = Formula.parse ⟨r', limit⟩ text ∧
    Formula.parseStrict ⟨r, limit⟩ text = Formula.parseStrict ⟨r', limit⟩ text

theorem readAlike_of_interchangeable {r r' : Registry} (hr : r.Reachable) (hr' : r'.Reachable)
    (h : r.Interchangeable r') (limit : Nat) (text : String) : ReadAlike r r' limit text := by
  have same := expression_eq_of_interchangeable hr hr' h limit
  constructor
  · simp only [Formula.parse, same]
  · simp only [Formula.parseStrict, same]

/-- Registries that differ in ordinary names only read every text alike. In particular the default
names may be known or not, and an ordinary name may be added at any time. -/
theorem known_names_irrelevant :
    (∀ r r' : Registry, r.Reachable → r'.Reachable → r.Interchangeable r' →
      ∀ limit text, ReadAlike r r' limit text) ∧
    (∀ limit text, ReadAlike .defaults .empty limit text) ∧
    ∀ r : Registry, r.Reachable → ∀ name, Ordinary (String.ofList (trim name.toList)) →
      ∀ limit text, ReadAlike (r.add name) r limit text := by
  refine ⟨fun r r' hr hr' h => readAlike_of_interchangeable hr hr' h, ?_, ?_⟩
  · exact readAlike_of_interchangeable .defaults .empty interchangeable_empty
  · intro r hr name ordinary
    exact readAlike_of_interchangeable (.add hr name) hr (interchangeable_add r ordinary)

/-- Two names with quotes, brackets and a comparator in them change nothing. -/
theorem known_names_irrelevant_quoted :
    ReadAlike ((Registry.defaults.add " 'a'>[b] ").add "net pay") .empty 2
      "=net pay*('a'>[b])" := by
  have first : Ordinary "'a'>[b]" := by decide +kernel
  have second : Ordinary "net pay" := by decide +kernel
  have inner : (Registry.defaults.add " 'a'>[b] ").Interchangeable .defaults :=
    interchangeable_add .defaults first
  have outer : ((Registry.defaults.add " 'a'>[b] ").add "net pay").Interchangeable
      (Registry.defaults.add " 'a'>[b] ") := interchangeable_add _ second
  exact known_names_irrelevant.1 _ _ (.add (.add .defaults _) _) .empty
    (outer.trans (inner.trans interchangeable_empty)) _ _

/-- A name that is a chain is read as one cell as soon as it is known. -/
example : Formula.parse ⟨Registry.empty.add "net-pay", 256⟩ "net-pay" = .cell "net-pay" ∧
    Formula.parse ⟨.empty, 256⟩ "net-pay" =
      .chain [.cell "net", .cell "pay"] (.perPair [.subtract]) := by
  decide

end Reading

end CellFormula
