import CellFormula.Formula.Basic
import CellFormula.Formula.Fault

/-!
# Valid trees

A tree is valid when every cell has a name and every number is finite. The fault reported is the
first one met depth first: chain operands in order, then the condition before the branches.
-/

namespace CellFormula.Formula

mutual

def validate : Formula → Except Fault Unit
  | .cell name => if name.isEmpty then .error .unnamedCell else .ok ()
  | .number value => if value.isFinite then .ok () else .error (.notFinite value)
  | .text _ => .ok ()
  | .chain operands _ => validateList operands
  | .conditional _ left right whenTrue whenFalse => do
    left.validate
    right.validate
    whenTrue.validate
    whenFalse.validate
  | .call _ arguments => validateList arguments

def validateList : List Formula → Except Fault Unit
  | [] => .ok ()
  | x :: xs => do
    x.validate
    validateList xs

end

mutual

/-- Every chain in the tree holds at least two operands and the operators between them. -/
def WellFormed : Formula → Prop
  | .chain operands operators => operators.Fits operands.length ∧ WellFormedList operands
  | .conditional _ left right whenTrue whenFalse =>
    left.WellFormed ∧ right.WellFormed ∧ whenTrue.WellFormed ∧ whenFalse.WellFormed
  | .call _ arguments => WellFormedList arguments
  | _ => True

def WellFormedList : List Formula → Prop
  | [] => True
  | x :: xs => x.WellFormed ∧ WellFormedList xs

end

end CellFormula.Formula
