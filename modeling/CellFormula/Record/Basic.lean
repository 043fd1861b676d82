import CellFormula.Formula.Validity
import CellFormula.Reading.Parse
import CellFormula.Record.Metadata

/-!
# Records of saved formulas

A record built from a tree, and one whose tree is replaced, has a valid tree and the metadata of
that tree. A record that was read keeps the metadata it was stored with.
-/

namespace CellFormula

structure Record where
  name : String
  description : String
  tree : Formula
  metadata : Metadata

namespace Record

/-- A record of a valid tree. -/
def ofTree (name description : String) (tree : Formula) : Except Fault Record := do
  tree.validate
  .ok ⟨name, description, tree, .of .single tree⟩

def ofFormula (name description text : String) (options : ParseOptions) : Except Fault Record :=
  ofTree name description (Formula.parse options text)

/-- Replaces the tree and its metadata. -/
def updateTree (r : Record) (tree : Formula) : Except Fault Record := do
  tree.validate
  .ok { r with tree := tree, metadata := .of .single tree }

end Record

end CellFormula
