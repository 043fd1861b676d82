import CellFormula.Document.Kind
import CellFormula.Document.View

/-!
# Fields of nodes and records

Fields stand in an object under their names, or in an array in their order. Of the members of an
object the first bad one is reported, in the order of the document, and only then what is missing;
members with other names are ignored. In an array the items are decoded in order, and items left
over are reported last.
-/

namespace CellFormula

/-- A field that a reader of members knows, and the check of its value. -/
structure Field where
  name : String
  check : View → Except DocumentFault Unit

def Field.of {α : Type} (name : String) (decode : View → Except DocumentFault α) : Field :=
  ⟨name, fun v => (decode v).map fun _ => ()⟩

/-- Members by name, in the order of the document. -/
abbrev Members :=
  List (String × View)

namespace Members

/-- The first bad member among those of known fields: a name met before, or a bad value. -/
def check (fields : List Field) (seen : List String) : Members → Except DocumentFault Unit
  | [] => .ok ()
  | (name, v) :: rest =>
    match fields.find? (·.name == name) with
    | none => check fields seen rest
    | some field =>
      if seen.contains name then .error (.duplicateField name)
      else do
        field.check v
        check fields (name :: seen) rest

def required {α : Type} (members : Members) (name : String)
    (decode : View → Except DocumentFault α) : Except DocumentFault α :=
  match members.lookup name with
  | some v => decode v
  | none => .error (.missingField name)

def withDefault {α : Type} (members : Members) (name : String) (value : α)
    (decode : View → Except DocumentFault α) : Except DocumentFault α :=
  match members.lookup name with
  | some v => decode v
  | none => .ok value

/-- The kind given by the member `type`, and the other members. -/
def kind (kindOf : Json → Except DocumentFault Kind) (known : Option Kind) :
    Members → Except DocumentFault (Kind × Members)
  | [] =>
    match known with
    | some kind => .ok (kind, [])
    | none => .error (.missingField "type")
  | (name, v) :: rest =>
    if name = "type" then
      if known.isSome then .error (.duplicateField name)
      else do kind kindOf (some (← kindOf v.json)) rest
    else do
      let (k, others) ← kind kindOf known rest
      .ok (k, (name, v) :: others)

end Members

/-- Fields in their order; fields at the end may be left out where they have a default. -/
abbrev Items :=
  List View

namespace Items

def required {α : Type} (items : Items) (index : Nat) (expected : String)
    (decode : View → Except DocumentFault α) : Except DocumentFault α :=
  match items[index]? with
  | some v => decode v
  | none => .error (.wrongLength index expected)

def withDefault {α : Type} (items : Items) (index : Nat) (value : α)
    (decode : View → Except DocumentFault α) : Except DocumentFault α :=
  match items[index]? with
  | some v => decode v
  | none => .ok value

/-- There are no more items than fields. -/
def atMost (items : Items) (count : Nat) : Except DocumentFault Unit :=
  if items.length ≤ count then .ok ()
  else .error (.wrongLength items.length
    (if count = 1 then "1 element in sequence" else s!"{count} elements in sequence"))

end Items

end CellFormula
