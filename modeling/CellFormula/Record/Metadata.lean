import CellFormula.Document.Decode
import CellFormula.Formula.Analysis
import CellFormula.Formula.Text

/-!
# Metadata of saved formulas

What a store keeps beside a tree, so that formulas can be listed without walking their trees.
-/

namespace CellFormula

structure Metadata where
  generatedText : String
  rootType : String
  complexityScore : Nat
  hasConditional : Bool
  hasLookup : Bool
  referencedCells : List String
  deriving DecidableEq

namespace Metadata

/-- The metadata of a tree. -/
def of (spelling : EqualitySpelling) (f : Formula) : Metadata where
  generatedText := f.toText spelling
  rootType := f.kind
  complexityScore := f.complexity
  hasConditional := f.hasConditional
  hasLookup := f.hasLookup
  referencedCells := f.references

def toMembers (m : Metadata) : List (String × Json) :=
  [("generatedText", .string m.generatedText), ("rootType", .string m.rootType),
    ("complexityScore", .number (.integer m.complexityScore)),
    ("hasConditional", .bool m.hasConditional), ("hasLookup", .bool m.hasLookup),
    ("referencedCells", Node.strings m.referencedCells)]

def ofMembers (members : Members) : Except DocumentFault Metadata := do
  members.check [.of "generatedText" View.text, .of "rootType" View.text,
    .of "complexityScore" View.count, .of "hasConditional" View.bool, .of "hasLookup" View.bool,
    .of "referencedCells" View.texts] []
  let generatedText ← members.required "generatedText" View.text
  let rootType ← members.required "rootType" View.text
  let complexityScore ← members.required "complexityScore" View.count
  let hasConditional ← members.required "hasConditional" View.bool
  let hasLookup ← members.required "hasLookup" View.bool
  let referencedCells ← members.required "referencedCells" View.texts
  .ok ⟨generatedText, rootType, complexityScore, hasConditional, hasLookup, referencedCells⟩

end Metadata

end CellFormula
