import CellFormula.Document.Fields
import CellFormula.Formula.Text

/-!
# Decoding tree documents

Decoding a node or a condition takes the views of the items or members inside it, so it needs no
recursion; the recursion is in `View.of`, which computes the view of a value from the views of its
parts.
-/

namespace CellFormula

namespace Condition

def expected : String := "struct WireCondition"

def ofMembers (members : Members) : Except DocumentFault Condition := do
  members.check [.of "operator" View.text, .of "left" View.node, .of "right" View.node] []
  let operator ← members.required "operator" View.text
  let left ← members.required "left" View.node
  let right ← members.required "right" View.node
  .ok ⟨operator, left, right⟩

def ofItems (items : Items) : Except DocumentFault Condition := do
  let expected := expected ++ " with 3 elements"
  let operator ← items.required 0 expected View.text
  let left ← items.required 1 expected View.node
  let right ← items.required 2 expected View.node
  items.atMost 3
  .ok ⟨operator, left, right⟩

end Condition

namespace Node

def ofMembers (kind : Kind) (members : Members) : Except DocumentFault Node :=
  match kind with
  | .cellValue => do
    members.check [.of "value" View.text] []
    .ok (.cellValue (← members.required "value" View.text))
  | .number => do
    members.check [.of "value" View.number] []
    .ok (.number (← members.required "value" View.number))
  | .textbox => do
    members.check [.of "value" View.text] []
    .ok (.textbox (← members.required "value" View.text))
  | .operator => do
    members.check [.of "operators" (View.optional View.texts),
      .of "operator" (View.optional View.text), .of "args" View.nodes] []
    let operators ← members.withDefault "operators" none (View.optional View.texts)
    let operator ← members.withDefault "operator" none (View.optional View.text)
    let args ← members.withDefault "args" [] View.nodes
    .ok (.operator operators operator args)
  | .conditional => do
    members.check [.of "condition" View.condition, .of "trueValue" View.node,
      .of "falseValue" View.node] []
    let condition ← members.required "condition" View.condition
    let trueValue ← members.required "trueValue" View.node
    let falseValue ← members.required "falseValue" View.node
    .ok (.conditional condition.operator condition.left condition.right trueValue falseValue)
  | .function => do
    members.check [.of "name" View.text, .of "args" View.nodes] []
    let name ← members.required "name" View.text
    let args ← members.withDefault "args" [] View.nodes
    .ok (.function name args)

def ofItems (kind : Kind) (items : Items) : Except DocumentFault Node :=
  match kind with
  | .cellValue => do
    let value ← items.required 0 kind.fieldCount View.text
    items.atMost 1
    .ok (.cellValue value)
  | .number => do
    let value ← items.required 0 kind.fieldCount View.number
    items.atMost 1
    .ok (.number value)
  | .textbox => do
    let value ← items.required 0 kind.fieldCount View.text
    items.atMost 1
    .ok (.textbox value)
  | .operator => do
    let operators ← items.withDefault 0 none (View.optional View.texts)
    let operator ← items.withDefault 1 none (View.optional View.text)
    let args ← items.withDefault 2 [] View.nodes
    items.atMost 3
    .ok (.operator operators operator args)
  | .conditional => do
    let condition ← items.required 0 kind.fieldCount View.condition
    let trueValue ← items.required 1 kind.fieldCount View.node
    let falseValue ← items.required 2 kind.fieldCount View.node
    items.atMost 3
    .ok (.conditional condition.operator condition.left condition.right trueValue falseValue)
  | .function => do
    let name ← items.required 0 kind.fieldCount View.text
    let args ← items.withDefault 1 [] View.nodes
    items.atMost 2
    .ok (.function name args)

def expected : String := "internally tagged enum WireNode"

/-- The node that the views inside a container decode to, its tag read by `kindOf`. -/
def ofParts (kindOf : Json → Except DocumentFault Kind) (parts : Items ⊕ Members) :
    Except DocumentFault Node :=
  match parts with
  | .inl [] => .error (.missingField "type")
  | .inl (tag :: items) => do ofItems (← kindOf tag.json) items
  | .inr members => do
    let (kind, members) ← Members.kind kindOf none members
    ofMembers kind members

end Node

namespace View

mutual

def of : Json → View
  | .array items =>
    let vs := ofList items
    ⟨.array items, Node.ofParts Kind.ofInnerTag (.inl vs), vs.mapM View.node, Condition.ofItems vs⟩
  | .object members =>
    let ms := ofMembers members
    ⟨.object members, Node.ofParts Kind.ofInnerTag (.inr ms),
      .error (.wrongType .map "a sequence"), Condition.ofMembers ms⟩
  | j =>
    let wrong := fun expected => DocumentFault.wrongType (.ofJson j) expected
    ⟨j, .error (wrong Node.expected), .error (wrong "a sequence"),
      .error (wrong Condition.expected)⟩

def ofList : List Json → Items
  | [] => []
  | j :: js => of j :: ofList js

def ofMembers : List (String × Json) → Members
  | [] => []
  | (name, j) :: rest => (name, of j) :: ofMembers rest

end

end View

/-- The node that a JSON value decodes to; its own tag must be a string. -/
def Node.ofJson : Json → Except DocumentFault Node
  | .array items => ofParts Kind.ofTag (.inl (View.ofList items))
  | .object members => ofParts Kind.ofTag (.inr (View.ofMembers members))
  | j => .error (.wrongType (.ofJson j) expected)

/-- The tree that a JSON value describes. -/
def Formula.ofJson (j : Json) : Except DocumentFault Formula := do
  let node ← Node.ofJson j
  node.toFormula.mapError .tree

/-- The text of the tree that a JSON value describes, empty if it describes none. -/
def Formula.preview (j : Json) : String :=
  match Formula.ofJson j.sorted with
  | .ok f => f.toText .single
  | .error _ => ""

end CellFormula
