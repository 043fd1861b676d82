import CellFormula.Document.Fault
import CellFormula.Document.Node

/-!
# Views of JSON values

A view of a JSON value holds what the value decodes to in each place where it may stand in a
document: as a node, as a list of nodes, and as the condition of a conditional node. The other
places take values that are not nested, and are decoded from the value itself.
-/

namespace CellFormula

structure Condition where
  operator : String
  left : Node
  right : Node

structure View where
  json : Json
  node : Except DocumentFault Node
  nodes : Except DocumentFault (List Node)
  condition : Except DocumentFault Condition

namespace View

def wrongType {α : Type} (v : View) (expected : String) : Except DocumentFault α :=
  .error (.wrongType (.ofJson v.json) expected)

def text (v : View) : Except DocumentFault String :=
  match v.json with
  | .string s => .ok s
  | _ => v.wrongType "a string"

def number (v : View) : Except DocumentFault Binary64 :=
  match v.json with
  | .number n => .ok n.toBinary64
  | _ => v.wrongType "f64"

def bool (v : View) : Except DocumentFault Bool :=
  match v.json with
  | .bool b => .ok b
  | _ => v.wrongType "a boolean"

/-- A count; a negative integer is a wrong value and anything else a wrong type. -/
def count (v : View) : Except DocumentFault Nat :=
  match v.json with
  | .number (.integer (.ofNat n)) => .ok n
  | .number (.integer n) => .error (.wrongValue (.number (.integer n)) "usize")
  | _ => v.wrongType "usize"

def texts (v : View) : Except DocumentFault (List String) :=
  match v.json with
  | .array items => items.mapM fun j =>
    match j with
    | .string s => .ok s
    | j => .error (.wrongType (.ofJson j) "a string")
  | _ => v.wrongType "a sequence"

/-- An optional value may be null. -/
def optional {α : Type} (decode : View → Except DocumentFault α) (v : View) :
    Except DocumentFault (Option α) :=
  match v.json with
  | .null => .ok none
  | _ => (decode v).map some

end View

end CellFormula
