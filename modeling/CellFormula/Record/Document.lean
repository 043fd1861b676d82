import CellFormula.Document.Read
import CellFormula.Record.Basic

/-!
# Documents of records

The metadata of a record stand in the same object as its name, description and tree. These three are
decoded when they are met; the other members are decoded after the last one.
-/

namespace CellFormula

open Document

/-- The members of a record that have been read, the latest of the others first. -/
structure PartialRecord where
  name : Option String := none
  description : Option String := none
  tree : Option Formula := none
  others : List (String × Json) := []

namespace PartialRecord

/-- Reads the value of a field that has not been met before. -/
def readField {α : Type} (name : String) (known : Option α) (reader : Json.Reader DocumentFault α) :
    Json.Reader DocumentFault α := fun cs =>
  if known.isSome then .error (.data (.duplicateField name)) else Json.afterColon reader cs

def readMember (fuel depth : Nat) : Json.MemberReader DocumentFault PartialRecord :=
  fun r name cs =>
  if name = "name" then
    (readField name r.name (readText fuel) cs).map fun (s, cs) => ({ r with name := some s }, cs)
  else if name = "description" then
    (readField name r.description (readText fuel) cs).map fun (s, cs) =>
      ({ r with description := some s }, cs)
  else if name = "tree" then
    (readField name r.tree (Formula.read fuel depth) cs).map fun (f, cs) =>
      ({ r with tree := some f }, cs)
  else (Json.afterColon (Json.read fuel depth) cs).map fun (j, cs) =>
    ({ r with others := (name, j) :: r.others }, cs)

def required {α : Type} (name : String) (value : Option α) : Except DocumentFault α :=
  value.elim (.error (.missingField name)) .ok

def finish (r : PartialRecord) : Except DocumentFault Record := do
  let name ← required "name" r.name
  let description ← required "description" r.description
  let tree ← required "tree" r.tree
  let metadata ← Metadata.ofMembers (View.ofMembers r.others.reverse)
  .ok ⟨name, description, tree, metadata⟩

end PartialRecord

namespace Record

def toJson (r : Record) : Json :=
  .object ([("name", .string r.name), ("description", .string r.description),
    ("tree", r.tree.toJson)] ++ r.metadata.toMembers)

def read (fuel depth : Nat) : Json.Reader DocumentFault Record := fun cs =>
  match Json.skipBlanks cs, depth with
  | '\x7b' :: _, 0 => .error .malformed
  | '\x7b' :: cs, depth + 1 => do
    let (r, cs) ← Json.readMembers fuel (PartialRecord.readMember fuel depth) {} cs
    .ok (← atFault r.finish, cs)
  | cs, _ => mismatch fuel "struct FormulaRecord" cs

/-- The record that a document describes. -/
def ofDocument (text : String) : Except DocumentError Record :=
  Json.readAll (read · Json.depthLimit) text

def toDocument (r : Record) : String :=
  r.toJson.toText

end Record

end CellFormula
