import CellFormula.Formula.Chain

/-!
# Edits of chains

A chain is edited in place, one stored list after the other. The operator list may have to be
written out first, an index may lie outside a list, and an edit that fails may have changed
something by then. None of this shows: an edit of a chain does to its operands and operators what it
does to any two lists, in either shape, and a failed edit leaves both lists as they are stored.
-/

namespace CellFormula

inductive Edit where
  | push (operator : Operator) (operand : Formula)
  | setOperator (index : Nat) (operator : Operator)
  | remove (index : Nat)

/-- An edit returns the operand it removed, if any, or fails. -/
abbrev Edit.Answer :=
  Except Fault (Option Formula)

/-- Edits one after the other, with the answer of each. -/
def Edit.runAll {σ : Type} (step : Edit → σ → Edit.Answer × σ) :
    List Edit → σ → List Edit.Answer × σ
  | [], s => ([], s)
  | e :: es, s =>
    let (answer, s) := step e s
    let (answers, s) := runAll step es s
    (answer :: answers, s)

/-- What an edit means for a list of operands and a list of operators. -/
def Edit.onLists :
    Edit → List Formula × List Operator → Edit.Answer × (List Formula × List Operator)
  | .push operator operand, (operands, operators) =>
    (.ok none, operands ++ [operand], operators ++ [operator])
  | .setOperator index operator, (operands, operators) =>
    if index + 1 < operands.length then (.ok none, operands, operators.set index operator)
    else (.error (.noOperatorAt index operands.length), operands, operators)
  | .remove index, (operands, operators) =>
    if operands.length ≤ 2 then (.error .lastTwoOperands, operands, operators)
    else match operands[index]? with
      | some operand =>
        (.ok (some operand), operands.eraseIdx index, operators.eraseIdx (index - 1))
      | none => (.error (.noOperandAt index operands.length), operands, operators)

/-- An edit of a chain; one that fails gives no other chain. -/
def Edit.apply : Edit → Chain → Edit.Answer × Chain
  | .push operator operand, c => (.ok none, c.push operator operand)
  | .setOperator index operator, c =>
    match c.setOperator index operator with
    | .ok c' => (.ok none, c')
    | .error fault => (.error fault, c)
  | .remove index, c =>
    match c.remove index with
    | .ok (operand, c') => (.ok (some operand), c')
    | .error fault => (.error fault, c)

namespace Chain

/-- The operators at the positions between the operands. -/
def iterOperators (c : Chain) : List Operator :=
  (List.range (c.length - 1)).filterMap c.operatorAt?

/-- No position between two operands is without an operator. -/
theorem iterOperators_eq (c : Chain) : c.iterOperators = c.links := by
  have length := c.length_links
  have count : c.length - 1 = c.links.length := by omega
  have each : (List.range c.links.length).map c.operatorAt? = c.links.map some := by
    apply List.ext_getElem (by simp)
    intro i hi _
    have inside : i < c.links.length := by simpa using hi
    simp [operatorAt?_eq, inside]
  calc c.iterOperators
      = ((List.range c.links.length).map c.operatorAt?).filterMap id := by
        rw [iterOperators, count, List.filterMap_map, Function.id_comp]
    _ = c.links := by rw [each, List.filterMap_map, Function.id_comp, List.filterMap_some]

/-- The operands and the operators between them, whatever the shape. -/
def parts (c : Chain) : List Formula × List Operator :=
  (c.operands, c.iterOperators)

theorem parts_eq (c : Chain) : c.parts = (c.operands, c.links) := by
  rw [parts, iterOperators_eq]

/-- An edit of a chain is that edit of its two lists. -/
theorem onLists_parts (e : Edit) (c : Chain) :
    e.onLists c.parts = ((e.apply c).1, (e.apply c).2.parts) := by
  cases e with
  | push operator operand => simp [Edit.onLists, Edit.apply, parts_eq]
  | setOperator index operator =>
    simp only [Edit.onLists, Edit.apply, parts_eq]
    cases h : c.setOperator index operator with
    | ok c' =>
      obtain ⟨inside, operands, links⟩ := setOperator_ok h
      have inside : index + 1 < c.operands.length := inside
      rw [if_pos inside, operands, links]
    | error fault =>
      unfold setOperator at h
      split at h
      · cases h
      · next outside =>
        cases h
        exact if_neg outside
  | remove index =>
    simp only [Edit.onLists, Edit.apply, parts_eq]
    cases h : c.remove index with
    | ok removed =>
      obtain ⟨operand, c'⟩ := removed
      obtain ⟨more, found, operands, links⟩ := remove_ok h
      have more : ¬ c.operands.length ≤ 2 := Nat.not_le_of_lt more
      rw [if_neg more, found, operands, links]
    | error fault =>
      unfold remove at h
      split at h
      · next few =>
        cases h
        exact if_pos few
      · next more =>
        split at h
        · cases h
        · next outside =>
          cases h
          have none : c.operands[index]? = none := List.getElem?_eq_none (Nat.le_of_not_lt outside)
          have more : ¬ c.operands.length ≤ 2 := more
          rw [if_neg more, none]
          rfl

end Chain

/-- The operands and operators of a chain as they are stored, their counts unchecked. -/
structure Stored where
  operands : List Formula
  operators : Operators

def Chain.stored (c : Chain) : Stored :=
  ⟨c.operands, c.operators⟩

namespace Stored

/-- Writes a shared operator out, once for each pair of operands. -/
def expand (s : Stored) : Option Stored :=
  match s.operators with
  | .perPair _ => some s
  | .shared operator =>
    if s.operands.length < 1 then none
    else some ⟨s.operands, .perPair (List.replicate (s.operands.length - 1) operator)⟩

/-- Changes the list of operators where there is one. -/
def changeList (s : Stored) (change : List Operator → Option (List Operator)) : Option Stored :=
  match s.operators with
  | .perPair list => (change list).map fun list => ⟨s.operands, .perPair list⟩
  | .shared _ => some s

def setAt (index : Nat) (operator : Operator) (list : List Operator) : Option (List Operator) :=
  if index < list.length then some (list.set index operator) else none

def removeAt (index : Nat) (list : List Operator) : Option (List Operator) :=
  if index < list.length then some (list.eraseIdx index) else none

def push (s : Stored) (operator : Operator) (operand : Formula) : Option Stored :=
  let joined := if s.operators = .shared operator then some s
    else s.expand.bind fun t => t.changeList fun list => some (list ++ [operator])
  joined.map fun t => { t with operands := t.operands ++ [operand] }

/-- An edit in place, with what it leaves behind; none where it reaches outside a list. -/
def edit (e : Edit) (s : Stored) : Option (Edit.Answer × Stored) :=
  match e with
  | .push operator operand => (s.push operator operand).map fun t => (.ok none, t)
  | .setOperator index operator =>
    if s.operands.length ≤ index + 1 then
      some (.error (.noOperatorAt index s.operands.length), s)
    else do
      let t ← (← s.expand).changeList (setAt index operator)
      some (.ok none, t)
  | .remove index =>
    if s.operands.length ≤ 2 then some (.error .lastTwoOperands, s)
    else if s.operands.length ≤ index then
      some (.error (.noOperandAt index s.operands.length), s)
    else do
      let t ← s.changeList (removeAt (index - 1))
      let operand ← t.operands[index]?
      some (.ok (some operand), { t with operands := t.operands.eraseIdx index })

def editAll : List Edit → Stored → Option (List Edit.Answer × Stored)
  | [], s => some ([], s)
  | e :: es, s => do
    let (answer, s) ← s.edit e
    let (answers, s) ← editAll es s
    some (answer :: answers, s)

/-- The operators of a chain are written out as its links. -/
theorem expand_stored (c : Chain) :
    c.stored.expand = some ⟨c.operands, .perPair c.links⟩ := by
  have two : 2 ≤ c.operands.length := c.two_le_length
  have nonempty : ¬ c.operands.length < 1 := by omega
  cases shape : c.operators with
  | perPair list => simp [expand, Chain.stored, Chain.links, Operators.toList, shape]
  | shared operator =>
    simp [expand, Chain.stored, Chain.links, Chain.length, Operators.toList, shape, nonempty]

theorem push_stored (c : Chain) (operator : Operator) (operand : Formula) :
    c.stored.push operator operand = some (c.push operator operand).stored := by
  have operators : c.stored.operators = c.operators := rfl
  simp only [push, Chain.push, operators, expand_stored]
  by_cases same : c.operators = .shared operator
  · rw [if_pos same, if_pos same]
    simp [Chain.stored, same]
  · rw [if_neg same, if_neg same]
    rfl

theorem setOperator_stored (c : Chain) (index : Nat) (operator : Operator) :
    c.stored.edit (.setOperator index operator) =
      some (((Edit.setOperator index operator).apply c).1,
        ((Edit.setOperator index operator).apply c).2.stored) := by
  have length : c.links.length + 1 = c.operands.length := c.length_links
  simp only [edit, Edit.apply, Chain.setOperator]
  by_cases inside : index + 1 < c.length
  · have operands : ¬ c.stored.operands.length ≤ index + 1 := Nat.not_le_of_lt inside
    have list : index < c.links.length := by
      have : index + 1 < c.operands.length := inside
      omega
    rw [if_neg operands, if_pos inside, expand_stored]
    simp [changeList, setAt, list, Chain.stored]
  · have operands : c.stored.operands.length ≤ index + 1 := Nat.le_of_not_lt inside
    simp only [if_pos operands, if_neg inside]
    rfl

theorem remove_stored (c : Chain) (index : Nat) :
    c.stored.edit (.remove index) =
      some (((Edit.remove index).apply c).1, ((Edit.remove index).apply c).2.stored) := by
  simp only [edit, Edit.apply, Chain.remove]
  by_cases few : c.length ≤ 2
  · have few' : c.stored.operands.length ≤ 2 := few
    simp only [if_pos few', dif_pos few]
  have few' : ¬ c.stored.operands.length ≤ 2 := few
  rw [if_neg few', dif_neg few]
  by_cases inside : index < c.length
  · have operands : ¬ c.stored.operands.length ≤ index := Nat.not_le_of_lt inside
    rw [if_neg operands, dif_pos inside]
    obtain ⟨xs, operators, fits⟩ := c
    have found : xs[index]? = some xs[index] := List.getElem?_eq_getElem inside
    cases operators with
    | perPair list =>
      have joined : index - 1 < list.length := by
        have : list.length + 1 = xs.length := fits.2
        have : 2 < xs.length := Nat.lt_of_not_le few
        have : index < xs.length := inside
        omega
      simp only [Chain.stored, changeList, removeAt, if_pos joined, Option.map_some,
        Option.bind_eq_bind, Option.bind_some, found]
      rfl
    | shared operator =>
      simp only [Chain.stored, changeList, Option.bind_eq_bind, Option.bind_some, found]
      rfl
  · have operands : c.stored.operands.length ≤ index := Nat.le_of_not_lt inside
    rw [if_pos operands, dif_neg inside]
    rfl

/-- Edits of a chain reach outside no list and leave the lists of a chain. -/
theorem edit_stored (e : Edit) (c : Chain) :
    c.stored.edit e = some ((e.apply c).1, (e.apply c).2.stored) := by
  cases e with
  | push operator operand => simp only [edit, push_stored, Edit.apply, Option.map_some]
  | setOperator index operator => exact setOperator_stored c index operator
  | remove index => exact remove_stored c index

theorem editAll_stored (edits : List Edit) (c : Chain) : editAll edits c.stored =
    some ((Edit.runAll Edit.apply edits c).1, (Edit.runAll Edit.apply edits c).2.stored) := by
  induction edits generalizing c with
  | nil => rfl
  | cons e es ih =>
    rw [editAll, edit_stored]
    change (editAll es (e.apply c).2.stored >>= _) = _
    rw [ih]
    rfl

end Stored

namespace Chain

theorem runAll_parts (edits : List Edit) (c : Chain) : Edit.runAll Edit.onLists edits c.parts =
    ((Edit.runAll Edit.apply edits c).1, (Edit.runAll Edit.apply edits c).2.parts) := by
  induction edits generalizing c with
  | nil => rfl
  | cons e es ih => simp only [Edit.runAll, onLists_parts, ih]

theorem apply_eq_of_error {e : Edit} {c : Chain} {fault : Fault}
    (h : (e.apply c).1 = .error fault) : (e.apply c).2 = c := by
  cases e with
  | push operator operand => cases h
  | setOperator index operator =>
    simp only [Edit.apply] at h ⊢
    split at h
    · cases h
    · rfl
  | remove index =>
    simp only [Edit.apply] at h ⊢
    split at h
    · cases h
    · rfl

/-- Any edits of a chain, in either shape, are those edits of its two lists: they reach outside no
list, leave one operator fewer than operands, of which there are two at least, and give the same
answers and the same lists as for every other chain with these lists. What a failed edit leaves is
what was stored. -/
theorem edits_refine (c : Chain) (edits : List Edit) :
    ∃ answers c', Edit.runAll Edit.apply edits c = (answers, c') ∧
      Stored.editAll edits c.stored = some (answers, c'.stored) ∧
      Edit.runAll Edit.onLists edits c.parts = (answers, c'.parts) ∧
      (2 ≤ c'.operands.length ∧ c'.iterOperators.length + 1 = c'.operands.length ∧
        c'.iterOperators = c'.operators.toList c'.operands.length ∧
        ∀ index, c'.operatorAt? index = c'.iterOperators[index]?) ∧
      (∀ e fault left, c'.stored.edit e = some (.error fault, left) → left = c'.stored) ∧
      ∀ d : Chain, d.parts = c.parts →
        ∃ d', Edit.runAll Edit.apply edits d = (answers, d') ∧ d'.parts = c'.parts := by
  generalize run : Edit.runAll Edit.apply edits c = outcome
  obtain ⟨answers, c'⟩ := outcome
  have parts := runAll_parts edits c
  rw [run] at parts
  refine ⟨answers, c', rfl, ?_, parts, ⟨c'.two_le_length, ?_, c'.iterOperators_eq, ?_⟩, ?_, ?_⟩
  · rw [Stored.editAll_stored, run]
  · rw [iterOperators_eq]
    exact c'.length_links
  · intro index
    rw [iterOperators_eq]
    exact c'.operatorAt?_eq index
  · intro e fault left h
    rw [Stored.edit_stored] at h
    obtain ⟨failed, rfl⟩ := Prod.mk.inj (Option.some.inj h)
    rw [apply_eq_of_error failed]
  · intro d same
    have other := runAll_parts edits d
    rw [same, parts] at other
    obtain ⟨answer, lists⟩ := Prod.mk.inj other
    generalize Edit.runAll Edit.apply edits d = outcome at answer lists
    obtain ⟨answers', d'⟩ := outcome
    obtain rfl : answers = answers' := answer
    exact ⟨d', rfl, lists.symm⟩

end Chain

end CellFormula
