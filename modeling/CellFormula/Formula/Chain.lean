import CellFormula.Formula.Basic
import CellFormula.Formula.Fault

/-!
# Operator chains

A chain holds at least two operands and the operators between them. Its edits act on the list of
operands and the list of operators between them in the same way for both shapes; a shared operator
becomes a list as soon as the pairs differ. An edit that fails leaves the chain as it was, since it
returns none.
-/

namespace CellFormula

structure Chain where
  operands : List Formula
  operators : Operators
  fits : operators.Fits operands.length

namespace Chain

/-- A chain with one operator between each pair of neighbours. -/
def ofPairs (operands : List Formula) (operators : List Operator) : Except Fault Chain :=
  if h : operands.length < 2 then .error (.tooFewOperands operands.length)
  else if h' : operators.length + 1 = operands.length then
    .ok ⟨operands, .perPair operators, by simp only [Operators.Fits]; omega⟩
  else .error (.operatorCount operands.length operators.length)

/-- A chain with one operator for all pairs. -/
def ofShared (operands : List Formula) (operator : Operator) : Except Fault Chain :=
  if h : operands.length < 2 then .error (.tooFewOperands operands.length)
  else .ok ⟨operands, .shared operator, by simp only [Operators.Fits]; omega⟩

def toFormula (c : Chain) : Formula :=
  .chain c.operands c.operators

def length (c : Chain) : Nat :=
  c.operands.length

/-- The operators between the operands, one fewer than those. -/
def links (c : Chain) : List Operator :=
  c.operators.toList c.length

theorem two_le_length (c : Chain) : 2 ≤ c.length :=
  Operators.two_le c.fits

theorem length_links (c : Chain) : c.links.length + 1 = c.length :=
  Operators.length_toList c.fits

/-- The operator after the operand at `index`. -/
def operatorAt? (c : Chain) (index : Nat) : Option Operator :=
  if index + 1 < c.length then
    match c.operators with
    | .perPair list => list[index]?
    | .shared operator => some operator
  else none

theorem operatorAt?_eq (c : Chain) (index : Nat) : c.operatorAt? index = c.links[index]? := by
  have hlen := c.length_links
  unfold operatorAt?
  split
  · next h =>
    unfold links at hlen ⊢
    split
    · next hs => simp [hs, Operators.toList]
    · next hs =>
      simp only [hs, Operators.toList, List.length_replicate] at hlen ⊢
      rw [List.getElem?_replicate_of_lt (by omega)]
  · next h => exact (List.getElem?_eq_none (by omega)).symm

/-- Appends an operand, joined by `operator`. -/
def push (c : Chain) (operator : Operator) (operand : Formula) : Chain :=
  if c.operators = .shared operator then
    ⟨c.operands ++ [operand], .shared operator, by
      have := c.two_le_length
      simp only [Operators.Fits, List.length_append, length] at this ⊢
      omega⟩
  else
    ⟨c.operands ++ [operand], .perPair (c.links ++ [operator]), by
      have := c.two_le_length
      have := c.length_links
      simp only [Operators.Fits, List.length_append, List.length_singleton, length] at *
      omega⟩

@[simp] theorem operands_push (c : Chain) (operator : Operator) (operand : Formula) :
    (c.push operator operand).operands = c.operands ++ [operand] := by
  unfold push
  split <;> rfl

@[simp] theorem links_push (c : Chain) (operator : Operator) (operand : Formula) :
    (c.push operator operand).links = c.links ++ [operator] := by
  have := c.two_le_length
  unfold push
  split
  · next h =>
    simp only [links, length, h, Operators.toList, List.length_append, List.length_singleton] at *
    rw [← List.replicate_succ', Nat.add_sub_cancel, Nat.sub_add_cancel (by omega)]
  · rfl

/-- Replaces the operator after the operand at `index`. -/
def setOperator (c : Chain) (index : Nat) (operator : Operator) : Except Fault Chain :=
  if index + 1 < c.length then
    .ok ⟨c.operands, .perPair (c.links.set index operator), by
      have := c.two_le_length
      have := c.length_links
      simp only [Operators.Fits, List.length_set, length] at *
      omega⟩
  else .error (.noOperatorAt index c.length)

/-- Removes the operand at `index` and returns it. The first operand takes the operator after it
along, any other the operator before it. -/
def remove (c : Chain) (index : Nat) : Except Fault (Formula × Chain) :=
  if h : c.length ≤ 2 then .error .lastTwoOperands
  else if h' : index < c.length then
    .ok (c.operands.get ⟨index, h'⟩, match hs : c.operators with
      | .perPair list => ⟨c.operands.eraseIdx index, .perPair (list.eraseIdx (index - 1)), by
          have fits := c.fits
          simp only [hs, Operators.Fits, length] at *
          rw [List.length_eraseIdx_of_lt h', List.length_eraseIdx_of_lt (by omega)]
          omega⟩
      | .shared operator => ⟨c.operands.eraseIdx index, .shared operator, by
          simp only [Operators.Fits, length] at *
          rw [List.length_eraseIdx_of_lt h']
          omega⟩)
  else .error (.noOperandAt index c.length)

theorem setOperator_ok {c c' : Chain} {index : Nat} {operator : Operator}
    (h : c.setOperator index operator = .ok c') :
    index + 1 < c.length ∧ c'.operands = c.operands ∧ c'.links = c.links.set index operator := by
  unfold setOperator at h
  split at h
  · next hi => cases h; exact ⟨hi, rfl, rfl⟩
  · cases h

theorem remove_ok {c c' : Chain} {index : Nat} {x : Formula} (h : c.remove index = .ok (x, c')) :
    2 < c.length ∧ c.operands[index]? = some x ∧ c'.operands = c.operands.eraseIdx index ∧
      c'.links = c.links.eraseIdx (index - 1) := by
  unfold remove at h
  split at h
  · cases h
  · next h2 =>
    split at h
    · next hi =>
      cases h
      refine ⟨by omega, List.getElem?_eq_getElem hi, ?_⟩
      split
      · next hs => exact ⟨rfl, by simp [links, hs, Operators.toList]⟩
      · next hs =>
        have hi' : index < c.operands.length := hi
        have h2' : 2 < c.operands.length := Nat.lt_of_not_le h2
        refine ⟨rfl, ?_⟩
        simp only [links, length, hs, Operators.toList]
        rw [List.length_eraseIdx_of_lt hi', List.eraseIdx_replicate, if_pos (by omega)]
    · cases h

end Chain

end CellFormula
