import CellFormula.Document.Position
import CellFormula.Formula.Fault
import CellFormula.Json.Read
import CellFormula.Number.Layout
import CellFormula.Text.Quoted

/-!
# Faults of documents

What is wrong with a well-written JSON value that is no document: a value of the wrong type or
range, a wrong count of fields, or a fault of the tree it describes. A symbol is quoted in its fault
as it is, so a fault can end in the words for a position; it is then taken to carry that position.
-/

namespace CellFormula

/-- A JSON value as faults describe it; a container is not described further. -/
inductive Found where
  | null
  | bool (value : Bool)
  | number (value : JsonNumber)
  | string (value : String)
  | sequence
  | map
  deriving DecidableEq

namespace Found

def ofJson : Json → Found
  | .null => .null
  | .bool b => .bool b
  | .number n => .number n
  | .string s => .string s
  | .array _ => .sequence
  | .object _ => .map

def describe : Found → String
  | .null => "null"
  | .bool b => s!"boolean `{b}`"
  | .number (.integer n) => s!"integer `{n}`"
  | .number (.real x) => "floating point `" ++ String.ofList (Layout.document.write x) ++ "`"
  | .string s => "string " ++ Text.quoted s
  | .sequence => "sequence"
  | .map => "map"

/-- Reads as much of the next value as its description needs: a container only to its opening. -/
def read {ε : Type} (fuel : Nat) : Json.Reader ε Found := fun cs =>
  (Json.readWith fuel (fun cs => .ok (.array [], cs)) (fun cs => .ok (.object [], cs)) cs).map
    fun (j, cs) => (ofJson j, cs)

end Found

inductive DocumentFault where
  | wrongType (found : Found) (expected : String)
  | wrongValue (found : Found) (expected : String)
  | wrongLength (count : Nat) (expected : String)
  | missingField (name : String)
  | duplicateField (name : String)
  | unknownKind (name : String)
  | tree (fault : Fault)
  deriving DecidableEq

namespace DocumentFault

/-- What is wrong, in words that may end in a position. -/
def describe : DocumentFault → String
  | .wrongType found expected => s!"invalid type: {found.describe}, expected {expected}"
  | .wrongValue found expected => s!"invalid value: {found.describe}, expected {expected}"
  | .wrongLength count expected => s!"invalid length {count}, expected {expected}"
  | .missingField name => s!"missing field `{name}`"
  | .duplicateField name => s!"duplicate field `{name}`"
  | .unknownKind name =>
    s!"unknown variant `{name}`, expected one of `cellValue`, `number`, `textbox`, `operator`, " ++
      "`if`, `function`"
  | .tree fault => fault.message

/-- What is wrong, without a position. -/
def message (fault : DocumentFault) : String :=
  match Position.cut? fault.describe.toList with
  | some (text, _) => String.ofList text
  | none => fault.describe

/-- What is wrong, and where. -/
def located (fault : DocumentFault) : String :=
  match Position.cut? fault.describe.toList with
  | some (text, position) => String.ofList text ++ position.suffix
  | none => fault.describe

end DocumentFault

/-- What keeps a text from being read as a document. -/
abbrev DocumentError :=
  Json.ReadError DocumentFault

namespace Document

/-- Stops at the next value, which is not of the type expected. -/
def mismatch {α : Type} (fuel : Nat) (expected : String) : Json.Reader DocumentFault α :=
  fun cs => do
  let (found, _) ← Found.read fuel cs
  .error (.data (.wrongType found expected))

/-- Turns a fault into an error of reading. -/
def atFault {α : Type} (result : Except DocumentFault α) : Except DocumentError α :=
  result.mapError .data

/-- Reads a string. -/
def readText (fuel : Nat) : Json.Reader DocumentFault String := fun cs =>
  match Json.skipBlanks cs with
  | '"' :: cs => Json.readString fuel cs
  | cs => mismatch fuel "a string" cs

end Document

end CellFormula
