import CellFormula.Proofs.Records
import CellFormula.Proofs.TreeSpellings
import CellFormula.Proofs.WrittenTexts

/-!
# Spellings of a record

The members of a saved record may stand in any order and beside others. The name, the description
and the tree are decoded where they stand; the metadata are decoded from what is left over, in which
their order does not count either. So every text with the members of a record is loaded as that
record, the metadata as they are, whether they fit the tree or not.
-/

namespace CellFormula

open Reading (bind_eq_ok_iff)

namespace PartialRecord

section

variable {α : Type} {key : String} {decode : Json → Except DocumentFault α} {known : Option α}
  {a : α} {m : String × Json} {ms : List (String × Json)}

/-- The members that are left give the field its value, unless it is known and not met again. -/
def Pending (key : String) (decode : Json → Except DocumentFault α) (known : Option α) (a : α)
    (ms : List (String × Json)) : Prop :=
  match known with
  | some b => b = a ∧ ∀ m ∈ ms, m.1 ≠ key
  | none => ∃ j, ms.filter (·.1 == key) = [(key, j)] ∧ decode j = .ok a

theorem Pending.known_of_nil (h : Pending key decode known a []) : known = some a := by
  cases known with
  | some b => rw [h.1]
  | none =>
    obtain ⟨j, only, -⟩ := h
    cases only

theorem Pending.skip (h : Pending key decode known a (m :: ms)) (other : m.1 ≠ key) :
    Pending key decode known a ms := by
  cases known with
  | some b => exact ⟨h.1, (List.forall_mem_cons.mp h.2).2⟩
  | none =>
    obtain ⟨j, only, decoded⟩ := h
    rw [List.filter_cons_of_neg (by simpa using other)] at only
    exact ⟨j, only, decoded⟩

theorem Pending.take (h : Pending key decode known a (m :: ms)) (here : m.1 = key) :
    takeField m.1 known (decode m.2) = .ok a ∧ Pending key decode (some a) a ms := by
  cases known with
  | some b => exact absurd here (List.forall_mem_cons.mp h.2).1
  | none =>
    obtain ⟨j, only, decoded⟩ := h
    rw [List.filter_cons_of_pos (by simpa using here)] at only
    obtain ⟨rfl, none⟩ := List.cons.inj only
    refine ⟨decoded, rfl, fun m hm again => ?_⟩
    exact List.filter_eq_nil_iff.mp none m hm (by simpa using again)

end

/-- The members of a record that are not its own name, description or tree. -/
def foreign (ms : List (String × Json)) : List (String × Json) :=
  ms.filter fun m => !ownNames.contains m.1

theorem foreign_cons_of_mem {m : String × Json} (h : m.1 ∈ ownNames) (ms : List (String × Json)) :
    foreign (m :: ms) = foreign ms := by
  simp [foreign, h]

theorem foreign_cons_of_not_mem {m : String × Json} (h : m.1 ∉ ownNames)
    (ms : List (String × Json)) : foreign (m :: ms) = m :: foreign ms := by
  simp [foreign, h]

/-- Three fields are picked out of the members wherever they stand. -/
theorem foldlM_take {name description : String} {tree : Formula} {ms : List (String × Json)}
    {r : PartialRecord}
    (hname : Pending "name" (fun j => (View.of j).text) r.name name ms)
    (hdescription : Pending "description" (fun j => (View.of j).text) r.description description ms)
    (htree : Pending "tree" Formula.ofJson r.tree tree ms) :
    ms.foldlM take r =
      .ok ⟨some name, some description, some tree, (foreign ms).reverse ++ r.others⟩ := by
  induction ms generalizing r with
  | nil =>
    obtain ⟨n, d, t, others⟩ := r
    obtain rfl := hname.known_of_nil
    obtain rfl := hdescription.known_of_nil
    obtain rfl := htree.known_of_nil
    rfl
  | cons m ms ih =>
    rw [List.foldlM_cons, PartialRecord.take]
    by_cases atName : m.1 = "name"
    · obtain ⟨taken, later⟩ := hname.take atName
      rw [if_pos atName, taken, foreign_cons_of_mem (by simp [atName, ownNames])]
      exact ih later (hdescription.skip (by simp [atName])) (htree.skip (by simp [atName]))
    by_cases atDescription : m.1 = "description"
    · obtain ⟨taken, later⟩ := hdescription.take atDescription
      rw [if_neg atName, if_pos atDescription, taken,
        foreign_cons_of_mem (by simp [atDescription, ownNames])]
      exact ih (hname.skip atName) later (htree.skip (by simp [atDescription]))
    by_cases atTree : m.1 = "tree"
    · obtain ⟨taken, later⟩ := htree.take atTree
      rw [if_neg atName, if_neg atDescription, if_pos atTree, taken,
        foreign_cons_of_mem (by simp [atTree, ownNames])]
      exact ih (hname.skip atName) (hdescription.skip atDescription) later
    · rw [if_neg atName, if_neg atDescription, if_neg atTree,
        foreign_cons_of_not_mem (by simp [ownNames, atName, atDescription, atTree])]
      refine (ih (r := { r with others := m :: r.others }) (hname.skip atName)
        (hdescription.skip atDescription) (htree.skip atTree)).trans ?_
      simp

end PartialRecord

namespace Metadata

def fieldNames : List String :=
  ["generatedText", "rootType", "complexityScore", "hasConditional", "hasLookup", "referencedCells"]

def fields : List Field :=
  [.of "generatedText" View.text, .of "rootType" View.text, .of "complexityScore" View.count,
    .of "hasConditional" View.bool, .of "hasLookup" View.bool, .of "referencedCells" View.texts]

theorem ofMembers_of_perm {members members' : Members}
    (perm : (Members.among fieldNames members).Perm (Members.among fieldNames members'))
    {m : Metadata} (h : ofMembers members' = .ok m) : ofMembers members = .ok m := by
  have checked : members'.check fields [] = .ok () := (bind_eq_ok_iff.mp h).choose_spec.1
  obtain ⟨same, found⟩ := Members.fields_of_perm checked perm
  change ∀ name ∈ fieldNames, _ at found
  simp only [fieldNames, List.forall_mem_cons] at found
  obtain ⟨text, root, score, conditional, lookup, names, -⟩ := found
  simp only [fields] at same
  rw [← h]
  simp only [ofMembers, same, Members.required, text, root, score, conditional, lookup, names]

end Metadata

namespace Record

def fieldNames : List String := PartialRecord.ownNames ++ Metadata.fieldNames

/-- The members of the document of a record. -/
def members (r : Record) : List (String × Json) :=
  [("name", .string r.name), ("description", .string r.description), ("tree", r.tree.toJson)] ++
    r.metadata.toMembers

/-- The value is an object with the members of the document of a record among its members. -/
def SpelledBy (r : Record) : Json → Prop
  | .object members => (members.filter fun m => fieldNames.contains m.1).Perm r.members
  | _ => False

theorem spelledBy_toJson (r : Record) : r.SpelledBy r.toJson := by
  have own : r.members.filter (fun m => fieldNames.contains m.1) = r.members :=
    List.filter_eq_self.mpr (by simp [members, Metadata.toMembers, fieldNames,
      PartialRecord.ownNames, Metadata.fieldNames])
  exact .of_eq own

variable {r : Record} {ms : List (String × Json)}

/-- A selection of the fields of a record is the same among its members in any spelling. -/
theorem filter_of_spelledBy (h : r.SpelledBy (.object ms)) {p : String → Bool}
    (own : ∀ name, p name = true → name ∈ fieldNames) :
    (ms.filter fun m => p m.1).Perm (r.members.filter fun m => p m.1) := by
  have inner : (ms.filter fun m => fieldNames.contains m.1).filter (fun m => p m.1) =
      ms.filter fun m => p m.1 := by
    rw [List.filter_filter]
    apply List.filter_congr
    intro m _
    cases selected : p m.1 with
    | false => rfl
    | true => simpa using own m.1 selected
  exact .trans (.of_eq inner.symm) (List.Perm.filter _ h)

theorem pending_of_spelledBy (h : r.SpelledBy (.object ms)) {α : Type} {key : String} {j : Json}
    {decode : Json → Except DocumentFault α} {a : α}
    (only : r.members.filter (·.1 == key) = [(key, j)]) (decoded : decode j = .ok a) :
    PartialRecord.Pending key decode none a ms := by
  have own : ∀ name, (name == key) = true → name ∈ fieldNames := by
    intro name same
    have field : (key, j) ∈ r.members := by
      have : (key, j) ∈ r.members.filter (·.1 == key) := by rw [only]; exact List.mem_cons_self
      exact (List.mem_filter.mp this).1
    rw [beq_iff_eq.mp same]
    have names : r.members.map Prod.fst = fieldNames := rfl
    rw [← names]
    exact List.mem_map_of_mem field
  have found := filter_of_spelledBy h own
  rw [only] at found
  exact ⟨j, List.perm_singleton.mp found, decoded⟩

theorem metadata_of_spelledBy (h : r.SpelledBy (.object ms)) :
    Metadata.ofMembers (View.ofMembers (PartialRecord.foreign ms)) = .ok r.metadata := by
  apply Metadata.ofMembers_of_perm ?_ r.metadata.ofMembers_toMembers
  have apart : ∀ name ∈ Metadata.fieldNames, name ∉ PartialRecord.ownNames := by decide
  have kept : (PartialRecord.foreign ms).filter (fun m => Metadata.fieldNames.contains m.1) =
      ms.filter fun m => Metadata.fieldNames.contains m.1 := by
    rw [PartialRecord.foreign, List.filter_filter]
    apply List.filter_congr
    intro m _
    cases field : Metadata.fieldNames.contains m.1 with
    | false => rfl
    | true => simpa using apart m.1 (by simpa using field)
  have own : ∀ name, Metadata.fieldNames.contains name = true → name ∈ fieldNames := by
    intro name field
    exact List.mem_append_right _ (by simpa using field)
  have found := View.perm_ofMembers (filter_of_spelledBy h own)
  rw [← kept, ← View.among_ofMembers, ← View.among_ofMembers] at found
  exact found.trans (.of_eq rfl)

theorem ofJson_of_spelledBy {j : Json} (h : r.SpelledBy j)
    (tree : Formula.ofJson r.tree.toJson = .ok r.tree) : ofJson j = .ok r := by
  cases j with
  | object ms =>
    have taken : ms.foldlM PartialRecord.take {} =
        .ok ⟨some r.name, some r.description, some r.tree, (PartialRecord.foreign ms).reverse⟩ := by
      have name : PartialRecord.Pending "name" (fun j => (View.of j).text) none r.name ms :=
        pending_of_spelledBy h rfl rfl
      have description : PartialRecord.Pending "description" (fun j => (View.of j).text) none
          r.description ms := pending_of_spelledBy h rfl rfl
      have folded := PartialRecord.foldlM_take (r := {}) name description
        (pending_of_spelledBy h rfl tree)
      rwa [List.append_nil] at folded
    refine bind_eq_ok_iff.mpr ⟨_, taken, ?_⟩
    rw [PartialRecord.finish_complete, List.reverse_reverse, metadata_of_spelledBy h]
    rfl
  | _ => exact h.elim

theorem reread_toJson (valid : r.tree.validate = .ok ()) (h : r.Loadable) :
    r.toJson.reread = some r.toJson := by
  obtain ⟨-, kept, score⟩ := h
  have tree := Formula.reread_toJson kept ((Formula.validate_eq_ok_iff _).mp valid).2
  have metadata := Metadata.reread_toMembers score
  simp [toJson, Json.reread, Json.rereadMembers, tree, metadata]

theorem ofJson_tree (wellFormed : r.tree.WellFormed) (valid : r.tree.validate = .ok ())
    (kept : r.tree.KeepsNumbers) : Formula.ofJson r.tree.toJson = .ok r.tree := by
  obtain ⟨named, finite⟩ := (Formula.validate_eq_ok_iff _).mp valid
  obtain ⟨j, read, decoded⟩ := (Node.ofJson_reread _ _).mpr
    ((Formula.reread_ofFormula kept _).mpr ⟨finite, rfl⟩)
  have same : r.tree.toJson.reread = some j := read
  rw [Formula.reread_toJson kept finite] at same
  cases same
  exact Formula.ofJson_eq_ok_iff.mpr
    ⟨_, decoded, (Node.toFormula_ofFormula_iff _).mpr ⟨wellFormed, named⟩⟩

/-- Every text with the members of a record, in any order and beside others, is loaded as that
record. The document of the record is one such text, and it is what the loaded record is saved
as. -/
theorem ofDocument_of_members (wellFormed : r.tree.WellFormed) (valid : r.tree.validate = .ok ())
    (loadable : r.Loadable) :
    (∀ (j : Json) (text : String), r.SpelledBy j → j.depth ≤ 127 → j.IsDocument text →
      ofDocument text = .ok r) ∧
    (r.SpelledBy r.toJson ∧ r.toJson.depth ≤ 127 ∧ r.toJson.IsDocument r.toDocument) ∧
    ofDocument r.toDocument = .ok r ∧
      (ofDocument r.toDocument).map toDocument = .ok r.toDocument := by
  have loads : ∀ (j : Json) (text : String), r.SpelledBy j → j.depth ≤ 127 →
      j.IsDocument text → ofDocument text = .ok r := by
    intro j text spelled fits document
    exact ofDocument_eq_ok_iff.mpr ⟨j, Json.readAll_of_isDocument document fits,
      ofJson_of_spelledBy spelled (ofJson_tree wellFormed valid loadable.2.1)⟩
  have fits : r.toJson.depth ≤ 127 := by
    have := loadable.1
    rw [depth_toJson]
    omega
  have document := Json.isDocument_toText (reread_toJson valid loadable)
  have saved : ofDocument r.toDocument = .ok r := loads _ _ r.spelledBy_toJson fits document
  refine ⟨loads, ⟨r.spelledBy_toJson, fits, document⟩, saved, ?_⟩
  rw [saved]
  rfl

/-- A record whose metadata do not fit its tree. -/
def mismatchedRecord : Record :=
  ⟨"pay", "", .call "NOW" [], ⟨"A1+B1", "number", 7, true, false, ["A1", ""]⟩⟩

def shuffledValue : Json :=
  .object [("referencedCells", Node.strings ["A1", ""]), ("hasLookup", .bool false),
    ("note", .array [.null]), ("tree", mismatchedRecord.tree.toJson),
    ("hasConditional", .bool true), ("complexityScore", .number (.integer 7)),
    ("note", .object []), ("rootType", .string "number"), ("description", .string ""),
    ("generatedText", .string "A1+B1"), ("name", .string "pay")]

def shuffledText : String :=
  "\x7b\"referencedCells\":[\"A1\",\"\"],\"hasLookup\":false,\"note\":[null],\"tree\":\x7b" ++
    "\"type\":\"function\",\"name\":\"NOW\",\"args\":[]\x7d,\"hasConditional\":true," ++
    "\"complexityScore\":7,\"note\":\x7b\x7d,\"rootType\":\"number\",\"description\":\"\"," ++
    "\"generatedText\":\"A1+B1\",\"name\":\"pay\"\x7d"

theorem ofDocument_of_members_shuffledText : ofDocument shuffledText = .ok mismatchedRecord ∧
    ofDocument mismatchedRecord.toDocument = .ok mismatchedRecord := by
  have loadable : mismatchedRecord.Loadable := ⟨by decide, ⟨trivial, trivial⟩, by decide⟩
  have spelled : mismatchedRecord.SpelledBy shuffledValue := by
    apply (List.perm_ext_iff_of_nodup (.of_map Prod.fst (by decide)) (.of_map Prod.fst _)).mpr
    · intro m
      simp [members, Metadata.toMembers, mismatchedRecord, fieldNames,
        PartialRecord.ownNames, Metadata.fieldNames]
      tauto
    · decide
  have text : shuffledText = shuffledValue.toText := by decide +kernel
  have document : shuffledValue.IsDocument shuffledText := by
    rw [text]
    exact Json.isDocument_toText rfl
  obtain ⟨loads, -, read, -⟩ := ofDocument_of_members (r := mismatchedRecord) trivial rfl loadable
  exact ⟨loads _ _ spelled (by decide) document, read⟩

end Record

end CellFormula
