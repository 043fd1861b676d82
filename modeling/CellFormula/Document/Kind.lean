import CellFormula.Document.Fault

/-!
# Kinds of nodes

A node names its kind in its tag. Inside a document the tag may also be the number of the kind.
-/

namespace CellFormula

/-- The kinds of nodes, in the order of their tags. -/
inductive Kind where
  | cellValue
  | number
  | textbox
  | operator
  | conditional
  | function
  deriving DecidableEq

namespace Kind

def all : List Kind :=
  [.cellValue, .number, .textbox, .operator, .conditional, .function]

def name : Kind → String
  | .cellValue => "cellValue"
  | .number => "number"
  | .textbox => "textbox"
  | .operator => "operator"
  | .conditional => "if"
  | .function => "function"

def ofName (s : String) : Except DocumentFault Kind :=
  match all.find? (·.name == s) with
  | some kind => .ok kind
  | none => .error (.unknownKind s)

def expected : String := "variant identifier"

/-- The kind that a tag names. -/
def ofTag (tag : Json) : Except DocumentFault Kind :=
  match tag with
  | .string s => ofName s
  | tag => .error (.wrongType (.ofJson tag) expected)

/-- The kind that a tag names or, as an integer, numbers; tags of inner nodes may do either. -/
def ofInnerTag (tag : Json) : Except DocumentFault Kind :=
  match tag with
  | .number (.integer (.ofNat i)) =>
    match all[i]? with
    | some kind => .ok kind
    | none => .error (.wrongValue (.number (.integer i)) "variant index 0 <= i < 6")
  | tag => ofTag tag

/-- What a node of the kind is called where its fields are counted. -/
def fieldCount : Kind → String
  | .cellValue => "struct variant WireNode::CellValue with 1 element"
  | .number => "struct variant WireNode::Number with 1 element"
  | .textbox => "struct variant WireNode::Textbox with 1 element"
  | .operator => "struct variant WireNode::Operator with 3 elements"
  | .conditional => "struct variant WireNode::If with 3 elements"
  | .function => "struct variant WireNode::Function with 2 elements"

end Kind

end CellFormula
