import CellFormula.Formula.Fault

/-!
# Errors of formula text

What keeps a text from being read as a formula.
-/

namespace CellFormula

/-- The calls that have a text form. -/
inductive Keyword where
  | conditional
  | lookup
  deriving DecidableEq

def Keyword.name : Keyword → String
  | .conditional => "IF"
  | .lookup => "LOOKUP"

inductive ReadingError where
  | unterminated (keyword : Keyword) (text : List Char)
  | tooFewArguments (count : Nat)
  | noLeftOperand (text : List Char)
  | danglingOperator (text : List Char)
  | nestingTooDeep (limit : Nat)
  | fault (fault : Fault)
  deriving DecidableEq

namespace ReadingError

def message : ReadingError → String
  | .unterminated keyword text =>
    s!"Parse error: Unterminated {keyword.name} call: '" ++ String.ofList text ++ "'"
  | .tooFewArguments count => s!"Parse error: IF requires 3 arguments, got {count}"
  | .noLeftOperand text =>
    "Parse error: Operator without a left operand in '" ++ String.ofList text ++ "'"
  | .danglingOperator text =>
    "Parse error: Dangling operator at the end of '" ++ String.ofList text ++ "'"
  | .nestingTooDeep limit => s!"Formula nesting exceeds the limit of {limit} levels"
  | .fault cause => cause.message

end ReadingError

end CellFormula
