import CellFormula.Document.Decode
import CellFormula.Json.Write

/-!
# Reading tree documents

The outermost node is decoded while its text is read: a bad tag is reported before anything wrong in
the text after it. Everything else is decoded once the node has been read to its end, and the tree
is built once the whole document has been decoded. What follows the document is looked at last.
-/

namespace CellFormula

namespace Document

/-- Reads a tag, which must be a string. -/
def readKind (fuel : Nat) : Json.Reader DocumentFault Kind := fun cs =>
  match Json.skipBlanks cs with
  | '"' :: cs => do
    let (s, cs) ← Json.readString fuel cs
    .ok (← atFault (Kind.ofName s), cs)
  | cs => mismatch fuel Kind.expected cs

/-- Reads the tag of a node in an array and then its other items, after the opening bracket. -/
def readTagged (fuel depth : Nat) : Json.Reader DocumentFault (Kind × List Json) := fun cs =>
  match Json.skipBlanks cs with
  | ']' :: _ => .error (.data (.missingField "type"))
  | cs => do
    let (kind, cs) ← readKind fuel cs
    let (items, cs) ← Json.readMoreItems (Json.read fuel depth) fuel cs
    .ok ((kind, items), cs)

end Document

open Document

/-- The members of a node that have been read, the latest first. -/
structure PartialNode where
  kind : Option Kind
  others : List (String × Json)

namespace PartialNode

def readMember (fuel depth : Nat) : Json.MemberReader DocumentFault PartialNode :=
  fun node name cs =>
  if name = "type" then
    if node.kind.isSome then .error (.data (.duplicateField name))
    else (Json.afterColon (readKind fuel) cs).map fun (kind, cs) =>
      ({ node with kind := some kind }, cs)
  else (Json.afterColon (Json.read fuel depth) cs).map fun (j, cs) =>
    ({ node with others := (name, j) :: node.others }, cs)

def finish (node : PartialNode) : Except DocumentFault Node :=
  match node.kind with
  | some kind => Node.ofMembers kind (View.ofMembers node.others.reverse)
  | none => .error (.missingField "type")

end PartialNode

/-- Reads a node in which at most `depth` arrays and objects nest. -/
def Node.read (fuel depth : Nat) : Json.Reader DocumentFault Node := fun cs =>
  match Json.skipBlanks cs, depth with
  | '\x7b' :: _, 0 => .error .malformed
  | '[' :: _, 0 => .error .malformed
  | '\x7b' :: cs, depth + 1 => do
    let (node, cs) ← Json.readMembers fuel (PartialNode.readMember fuel depth) ⟨none, []⟩ cs
    .ok (← atFault node.finish, cs)
  | '[' :: cs, depth + 1 => do
    let ((kind, items), cs) ← readTagged fuel depth cs
    .ok (← atFault (ofItems kind (View.ofList items)), cs)
  | cs, _ => mismatch fuel expected cs

namespace Formula

def read (fuel depth : Nat) : Json.Reader DocumentFault Formula := fun cs => do
  let (node, cs) ← Node.read fuel depth cs
  .ok (← atFault (node.toFormula.mapError .tree), cs)

/-- The tree that a document describes. -/
def ofDocument (text : String) : Except DocumentError Formula :=
  Json.readAll (read · Json.depthLimit) text

/-- The compact document of a tree. -/
def toDocument (f : Formula) : String :=
  f.toJson.toText

/-- The indented document of a tree. -/
def toIndentedDocument (f : Formula) : String :=
  f.toJson.toIndentedText

end Formula

end CellFormula
