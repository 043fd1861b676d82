import CellFormula.Formula.Chain
import CellFormula.Json.Value

/-!
# Nodes of tree documents

A document holds symbols as strings and may give the operators of a chain in two fields, a list and
one shared by all pairs. A list that is not empty wins. `ofFormula` and `toFormula` go between nodes
and trees; only `toFormula` can fail, and it meets the operands of a chain before its symbols and
these before their counts.
-/

namespace CellFormula

inductive Node where
  | cellValue (value : String)
  | number (value : Binary64)
  | textbox (value : String)
  | operator (operators : Option (List String)) (operator : Option String) (args : List Node)
  | conditional (operator : String) (left right trueValue falseValue : Node)
  | function (name : String) (args : List Node)
  deriving Inhabited

/-- The chain that an operator node with the given operands describes. -/
def Chain.ofSymbols (operands : List Formula) (operators : Option (List String))
    (operator : Option String) : Except Fault Chain :=
  match operators, operator with
  | some (s :: ss), _ => do ofPairs operands (← (s :: ss).mapM Operator.ofSymbol)
  | _, some s => do ofShared operands (← Operator.ofSymbol s)
  | _, none => .error .noOperators

namespace Node

mutual

def toFormula : Node → Except Fault Formula
  | .cellValue value => if value.isEmpty then .error .unnamedCellNode else .ok (.cell value)
  | .number value => .ok (.number value)
  | .textbox value => .ok (.text value)
  | .operator list shared args => do
    let operands ← toFormulas args
    let c ← Chain.ofSymbols operands list shared
    .ok c.toFormula
  | .conditional symbol left right trueValue falseValue => do
    let comparator ← Comparator.ofSymbol symbol
    let left ← left.toFormula
    let right ← right.toFormula
    let whenTrue ← trueValue.toFormula
    let whenFalse ← falseValue.toFormula
    .ok (.conditional comparator left right whenTrue whenFalse)
  | .function name args => do
    .ok (.call name (← toFormulas args))

def toFormulas : List Node → Except Fault (List Formula)
  | [] => .ok []
  | n :: ns => do
    let f ← n.toFormula
    let fs ← toFormulas ns
    .ok (f :: fs)

end

def symbols (operators : List Operator) : List String :=
  operators.map fun op => op.symbol.toString

mutual

def ofFormula : Formula → Node
  | .cell name => .cellValue name
  | .number value => .number value
  | .text value => .textbox value
  | .chain operands (.perPair list) => .operator (some (symbols list)) none (ofFormulas operands)
  | .chain operands (.shared op) =>
    .operator none (some op.symbol.toString) (ofFormulas operands)
  | .conditional comparator left right whenTrue whenFalse =>
    .conditional comparator.symbol (ofFormula left) (ofFormula right) (ofFormula whenTrue)
      (ofFormula whenFalse)
  | .call name arguments => .function name (ofFormulas arguments)

def ofFormulas : List Formula → List Node
  | [] => []
  | f :: fs => ofFormula f :: ofFormulas fs

end

/-- The member that holds an optional field. -/
def optionalMember {α : Type} (name : String) (encode : α → Json) (value : Option α) :
    List (String × Json) :=
  match value with
  | some a => [(name, encode a)]
  | none => []

def strings (ss : List String) : Json :=
  .array (ss.map .string)

mutual

def toJson : Node → Json
  | .cellValue value => .object [("type", .string "cellValue"), ("value", .string value)]
  | .number value => .object [("type", .string "number"), ("value", .number (.real value))]
  | .textbox value => .object [("type", .string "textbox"), ("value", .string value)]
  | .operator list shared args =>
    .object ([("type", .string "operator")] ++ optionalMember "operators" strings list ++
      optionalMember "operator" .string shared ++ [("args", .array (toJsons args))])
  | .conditional symbol left right trueValue falseValue =>
    .object [("type", .string "if"),
      ("condition", .object [("operator", .string symbol), ("left", left.toJson),
        ("right", right.toJson)]),
      ("trueValue", trueValue.toJson), ("falseValue", falseValue.toJson)]
  | .function name args =>
    .object [("type", .string "function"), ("name", .string name), ("args", .array (toJsons args))]

def toJsons : List Node → List Json
  | [] => []
  | n :: ns => n.toJson :: toJsons ns

end

end Node

/-- The document of a tree. -/
def Formula.toJson (f : Formula) : Json :=
  (Node.ofFormula f).toJson

end CellFormula
