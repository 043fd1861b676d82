import CellFormula.Command.Run
import CellFormula.Proofs.Image
import CellFormula.Proofs.RereadTrees
import CellFormula.Proofs.Records

/-!
# Commands one after the other

What `parse` prints can be given to the commands that read documents. If the tree fits into a
document and its numbers are kept, these do what they would do with the formula itself: the way
through the document and the way straight from the text end in the same tree and the same record.
-/

namespace CellFormula.Command.Invocation

theorem run_of_output {i : Invocation} {content : Except String String} {text : String}
    (h : i.output content = .ok text) : i.run content = ⟨0, text, ""⟩ := by
  rw [run, h]

/-- The document of a tree in one of the two layouts. -/
def layout (pretty : Bool) (f : Formula) : String :=
  if pretty then f.toIndentedDocument else f.toDocument

theorem layout_cases (pretty : Bool) (f : Formula) :
    layout pretty f = f.toDocument ∨ layout pretty f = f.toIndentedDocument := by
  cases pretty with
  | true => exact .inr rfl
  | false => exact .inl rfl

theorem run_parse (formula : String) (pretty : Bool) (content : Except String String) :
    (Invocation.parse formula [] pretty false).run content =
      ⟨0, layout pretty (Formula.parse {} formula) ++ "\n", ""⟩ := by
  have read : parsed formula [] false = .ok (Formula.parse {} formula) := rfl
  generalize Formula.parse {} formula = f at read ⊢
  apply run_of_output
  rw [output, read, layout]
  rfl

/-- A printed document is read as the tree reread, from wherever it comes. -/
theorem readDocument_printed_iff {source : Source} {pretty : Bool} {f g : Formula} :
    readDocument source (.ok (layout pretty f ++ "\n")) = .ok g ↔
      f.documentDepth ≤ Json.depthLimit ∧ f.WellFormed ∧ f.Named ∧ f.reread = some g := by
  rw [readDocument, mapError_eq_ok_iff, Formula.ofDocument_line (layout_cases pretty f),
    Formula.ofDocument_eq_ok_iff_of_document (layout_cases pretty f)]

theorem readDocument_printed {f : Formula} (image : Reading.Image f)
    (fits : f.documentDepth ≤ 127) (kept : f.KeepsNumbers) (source : Source) (pretty : Bool) :
    readDocument source (.ok (layout pretty f ++ "\n")) = .ok f := by
  obtain ⟨named, finite⟩ := (Formula.validate_eq_ok_iff f).mp image.valid
  have wellFormed := Formula.wellFormed_of_readNode image.nodes
  exact readDocument_printed_iff.mpr
    ⟨fits, wellFormed, named, Formula.reread_eq_self kept finite⟩

theorem analyzed_formula (formula name description : String) (content : Except String String) :
    analyzed (.formula formula) name description content =
      (Record.ofTree name description (Formula.parse {} formula)).mapError .invalidTree := rfl

theorem analyzed_document {source : Source} {text : String} {f : Formula}
    (read : readDocument source (.ok text) = .ok f) (name description : String) :
    analyzed (.document source) name description (.ok text) =
      (Record.ofTree name description f).mapError .invalidTree := by
  simp only [analyzed, read]
  rfl

theorem exists_analyzed_formula (formula name description : String)
    (content : Except String String) : ∃ r, Record.ofFormula name description formula {} = .ok r ∧
      analyzed (.formula formula) name description content = .ok r := by
  obtain ⟨r, made⟩ := Record.exists_ofFormula name description formula .defaults 256
  have tree : Record.ofTree name description (Formula.parse {} formula) = .ok r := made
  refine ⟨r, made, ?_⟩
  rw [analyzed_formula, tree]
  rfl

/-- What `parse` prints for a formula, given to `generate`, prints the text of its tree, and given
to `analyze` prints what `analyze` prints for the formula itself, its record. -/
theorem run_on_printed {formula : String} {f : Formula} (tree : Formula.parse {} formula = f)
    (fits : f.documentDepth ≤ 127) (kept : f.KeepsNumbers) (pretty doubleEquals : Bool)
    (source : Source) (name description : String) (content : Except String String) :
    ∃ printed, (Invocation.parse formula [] pretty false).run content = ⟨0, printed, ""⟩ ∧
      (Invocation.generate source doubleEquals).run (.ok printed) =
        ⟨0, f.toText (if doubleEquals then .double else .single) ++ "\n", ""⟩ ∧
      (Invocation.analyze (.document source) name description).run (.ok printed) =
        (Invocation.analyze (.formula formula) name description).run content ∧
      ∃ r, Record.ofFormula name description formula {} = .ok r ∧
        (Invocation.analyze (.formula formula) name description).run content =
          ⟨0, r.toJson.toIndentedText ++ "\n", ""⟩ := by
  have image : Reading.Image (Formula.parse {} formula) :=
    Reading.image_of_parse .defaults 256 formula
  have printed := run_parse formula pretty content
  have straight := analyzed_formula formula name description content
  obtain ⟨r, made, analysis⟩ := exists_analyzed_formula formula name description content
  rw [tree] at image printed straight
  have read := readDocument_printed image fits kept source pretty
  refine ⟨_, printed, ?_, ?_, r, made, ?_⟩
  · apply run_of_output
    rw [output, read]
    rfl
  · rw [run, run, output, output, analyzed_document read, straight]
  · apply run_of_output
    rw [output, analysis]
    rfl

def limitText : String :=
  "IF(A1=2,LOOKUP(B1,C:C),(A1+0.5))"

def limitTree : Formula :=
  .conditional .equal (.cell "A1") (.number (.ofNat 2)) (.lookup [.cell "B1", .cell "C:C"])
    (.chain [.cell "A1", .number (.ofRatio false 1 2)] (.perPair [.add]))

theorem run_on_printed_limitText : Formula.parse {} limitText = limitTree ∧
    limitTree.documentDepth ≤ 127 ∧ limitTree.KeepsNumbers ∧
    ∃ printed, (Invocation.parse limitText [] true false).run (.ok "") = ⟨0, printed, ""⟩ ∧
      (Invocation.generate .standardInput true).run (.ok printed) =
        ⟨0, "IF(A1==2,LOOKUP(B1,C:C),(A1+0.5))\n", ""⟩ ∧
      (Invocation.analyze (.document .standardInput) "limit" "").run (.ok printed) =
        (Invocation.analyze (.formula limitText) "limit" "").run (.ok "") := by
  have tree : Formula.parse {} limitText = limitTree := by decide +kernel
  have fits : limitTree.documentDepth ≤ 127 := by decide
  have two : Formula.KeptNumber (.number (.ofNat 2)) := fun _ => by decide +kernel
  have half : Formula.KeptNumber (.number (.ofRatio false 1 2)) := fun _ => by decide +kernel
  have kept : limitTree.KeepsNumbers :=
    ⟨trivial, trivial, two, ⟨trivial, trivial, trivial, trivial⟩, trivial, trivial, half, trivial⟩
  have text : limitTree.toText .double = "IF(A1==2,LOOKUP(B1,C:C),(A1+0.5))" := by decide +kernel
  obtain ⟨printed, parsed, generated, analyzed, -⟩ :=
    run_on_printed tree fits kept true true .standardInput "limit" "" (.ok "")
  rw [if_pos rfl, text] at generated
  exact ⟨tree, fits, kept, printed, parsed, generated, analyzed⟩

end CellFormula.Command.Invocation
