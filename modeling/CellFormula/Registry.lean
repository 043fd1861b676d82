import CellFormula.Text.Blank
import CellFormula.Text.LowerCase
import CellFormula.Text.NameShape

/-!
# Registries of reference names

A registry lists the names offered for completion and read as cells whatever they look like. Its
seeds never change; names added later follow them in the order of addition. No name is blank, has
blanks at its ends or occurs twice.
-/

namespace CellFormula

/-- How a name is presented to whoever picks one. -/
inductive ReferenceKind where
  | added
  | bracketed
  | spreadsheet
  | placeholder
  | custom
  deriving DecidableEq

def ReferenceKind.label : ReferenceKind → String
  | .added => "Added"
  | .bracketed => "Bracketed"
  | .spreadsheet => "Spreadsheet"
  | .placeholder => "Placeholder"
  | .custom => "Custom"

structure Registry where
  seeded : List String
  added : List String
  deriving DecidableEq

namespace Registry

def empty : Registry :=
  ⟨[], []⟩

def defaultNames : List String :=
  ["cell value 1", "cell value 2", "cell value 3", "cell value 4", "[15401]", "[1000]", "[18400]",
   "[15090]", "[99999]", "A1", "B1", "C1", "D1", "OT1.1", "STRUC_HRS"]

def defaults : Registry :=
  ⟨defaultNames, []⟩

/-- All names, the seeds first. -/
def names (r : Registry) : List String :=
  r.seeded ++ r.added

def contains (r : Registry) (name : String) : Bool :=
  r.names.contains name

def size (r : Registry) : Nat :=
  r.names.length

/-- Whether the name is neither blank nor known without the blanks at its ends. -/
def isNew (r : Registry) (name : String) : Bool :=
  let name := String.ofList (Text.trim name.toList)
  !name.isEmpty && !r.contains name

/-- Adds a new name, without the blanks at its ends. -/
def add (r : Registry) (name : String) : Registry :=
  if r.isNew name then { r with added := r.added ++ [String.ofList (Text.trim name.toList)] }
  else r

def addAll (r : Registry) (names : List String) : Registry :=
  names.foldl add r

def clearAdded (r : Registry) : Registry :=
  { r with added := [] }

/-- The names that contain the query, both lower-cased. -/
def suggest (r : Registry) (query : String) : List String :=
  let query := Text.lower query.toList
  r.names.filter fun name => Text.occursIn query (Text.lower name.toList)

/-- A name of the placeholder form `cell value N`. -/
def isPlaceholder (cs : List Char) : Bool :=
  match Text.after? "cell value ".toList cs with
  | some ds => !ds.isEmpty && ds.all Char.isDigit
  | none => false

def classify (r : Registry) (name : String) : ReferenceKind :=
  let cs := name.toList
  if r.added.contains name then .added
  else if cs.head? = some '[' ∧ cs.getLast? = some ']' then .bracketed
  else if Text.isSpreadsheetName cs then .spreadsheet
  else if isPlaceholder cs then .placeholder
  else .custom

end Registry

end CellFormula
