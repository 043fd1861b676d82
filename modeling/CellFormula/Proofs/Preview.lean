import CellFormula.Proofs.Image
import CellFormula.Proofs.SortedMembers
import CellFormula.Proofs.WrittenTexts

/-!
# Previews

The preview decodes a value with sorted members, a document is decoded as it stands. Where no object
names a member twice the two describe the same tree, so the preview is the text of the tree that the
document is loaded as, and empty if it is refused. Of the trees that can be loaded only calls of
functions other than the lookup have no text.
-/

namespace CellFormula.Formula

theorem toText_eq_empty_iff {f : Formula} (valid : f.validate = .ok ())
    (spelling : EqualitySpelling) :
    f.toText spelling = "" ↔ ∃ name arguments, f = .call name arguments ∧ name ≠ lookupName := by
  obtain ⟨named, finite⟩ := (validate_eq_ok_iff f).mp valid
  rw [toText, String.ofList_eq_empty_iff]
  constructor
  · intro empty
    cases f with
    | cell name => exact absurd (by rw [String.toList_eq_nil_iff.mp empty]) named
    | number x => exact absurd empty (Binary64.toText_ne_nil finite)
    | text value => simp at empty
    | chain operands operators => simp [write_chain] at empty
    | conditional comparator l r t f => simp [write_conditional] at empty
    | call name arguments =>
      refine ⟨name, arguments, rfl, ?_⟩
      rintro rfl
      simp [write_lookup] at empty
  · rintro ⟨name, arguments, rfl, other⟩
    exact write_call_of_ne spelling other arguments

/-- The preview of a value agrees with the document that the value was read from. -/
theorem preview_of_read {text : String} {j : Json}
    (read : (Json.readAll (Json.read · Json.depthLimit) text : Except DocumentError Json) = .ok j)
    (distinct : j.DistinctNames) :
    (∀ t, ofDocument text = .ok t → preview j = t.toText .single ∧
      (preview j = "" ↔ ∃ name arguments, t = .call name arguments ∧ name ≠ lookupName)) ∧
    ∀ e, ofDocument text = .error e → preview j = "" := by
  have same : ∀ t, ofDocument text = .ok t ↔ ofJson j.sorted = .ok t := by
    intro t
    rw [← agree_ofJson distinct t, ofDocument_eq_ok_iff, read]
    simp
  constructor
  · intro t loaded
    have shown : preview j = t.toText .single := by
      rw [preview, (same t).mp loaded]
    obtain ⟨_, inText, described⟩ := ofDocument_eq_ok_iff.mp loaded
    have valid := (valid_ofJson (Json.inRange_readAll inText) described).1
    exact ⟨shown, by rw [shown, toText_eq_empty_iff valid]⟩
  · intro e refused
    cases described : ofJson j.sorted with
    | ok t =>
      rw [(same t).mpr described] at refused
      cases refused
    | error fault => rw [preview, described]

/-- A lookup whose members are not sorted by name. -/
def shuffledLookup : Json :=
  .object [("type", .string "function"), ("name", .string "lookup"), ("args", .array
    [.object [("value", .string "A1"), ("type", .string "cellValue")],
      .array [.string "textbox", .string "b"]]), ("a", .object [("c", .null), ("b", .null)])]

/-- A text node with a number for its text. -/
def misplacedNumber : Json :=
  .object [("value", .number (.integer 1)), ("type", .string "textbox")]

theorem preview_of_read_shuffledLookup : preview shuffledLookup = "LOOKUP(A1,\"b\")" ∧
    preview shuffledLookup ≠ "" ∧ preview misplacedNumber = "" := by
  have read {j : Json} (kept : j.reread = some j) (fits : j.depth ≤ 127) :
      (Json.readAll (Json.read · Json.depthLimit) j.toText : Except DocumentError Json) = .ok j :=
    Json.readAll_of_isDocument (Json.isDocument_toText kept) fits
  have distinct : shuffledLookup.DistinctNames :=
    ⟨by decide, trivial, trivial, ⟨⟨by decide, trivial, trivial, trivial⟩,
      ⟨trivial, trivial, trivial⟩, trivial⟩, ⟨by decide, trivial, trivial, trivial⟩, trivial⟩
  have lookup := preview_of_read (read (j := shuffledLookup) rfl (by decide)) distinct
  have number := preview_of_read (read (j := misplacedNumber) rfl (by decide))
    ⟨by decide, trivial, trivial, trivial⟩
  have loaded : ofDocument shuffledLookup.toText =
      .ok (.call lookupName [.cell "A1", .text "b"]) := by decide +kernel
  obtain ⟨shown, empty⟩ := lookup.1 _ loaded
  refine ⟨shown, ?_, ?_⟩
  · rw [Ne, empty]
    rintro ⟨name, arguments, eq, other⟩
    cases eq
    exact other rfl
  · cases refused : ofDocument misplacedNumber.toText with
    | error e => exact number.2 e refused
    | ok t =>
      have failed : (ofDocument misplacedNumber.toText).isOk = false := by decide +kernel
      rw [refused] at failed
      cases failed

/-- Of two members of one name the last is shown. -/
example : preview (.object [("type", .string "textbox"), ("value", .string "a"),
    ("value", .string "b")]) = "\"b\"" := by decide

end CellFormula.Formula
