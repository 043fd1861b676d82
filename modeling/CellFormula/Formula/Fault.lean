import CellFormula.Number.Layout
import CellFormula.Symbol

/-!
# Faults of trees

What can be wrong with a tree or with a change to one. `unknownSymbol` is the only fault that is not
a malformed tree.
-/

namespace CellFormula

inductive Fault where
  | unknownSymbol (symbol : String)
  | tooFewOperands (count : Nat)
  | operatorCount (operands operators : Nat)
  | noOperators
  | noOperatorAt (index operands : Nat)
  | lastTwoOperands
  | noOperandAt (index operands : Nat)
  | unnamedCell
  | unnamedCellNode
  | notFinite (value : Binary64)
  deriving DecidableEq

namespace Fault

def isMalformed : Fault → Bool
  | .unknownSymbol _ => false
  | _ => true

/-- What is wrong, without the class of the fault. -/
def detail : Fault → String
  | .unknownSymbol symbol => symbol
  | .tooFewOperands count => s!"operator chain needs at least 2 operands, got {count}"
  | .operatorCount operands operators =>
    s!"{operands} operands need {operands - 1} operators, got {operators}"
  | .noOperators => "operator node has neither `operators` nor `operator`"
  | .noOperatorAt index operands =>
    s!"no operator at position {index} in a chain of {operands} operands"
  | .lastTwoOperands => "operator chain needs at least 2 operands"
  | .noOperandAt index operands => s!"operand {index} out of bounds (count: {operands})"
  | .unnamedCell => "cell reference with an empty name"
  | .unnamedCellNode => "cellValue node with an empty value"
  | .notFinite value =>
    "number literal " ++ String.ofList (Layout.formula.write value) ++ " is not finite"

def message (fault : Fault) : String :=
  (if fault.isMalformed then "Malformed tree: " else "Unknown symbol: ") ++ fault.detail

end Fault

def Operator.ofSymbol (s : String) : Except Fault Operator :=
  (Operator.ofSymbol? s).elim (.error (.unknownSymbol s)) .ok

def Comparator.ofSymbol (s : String) : Except Fault Comparator :=
  (Comparator.ofSymbol? s).elim (.error (.unknownSymbol s)) .ok

end CellFormula
