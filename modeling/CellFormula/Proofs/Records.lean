import CellFormula.Proofs.Alike
import CellFormula.Proofs.Image
import CellFormula.Proofs.ReadNumbers
import CellFormula.Proofs.RereadTrees
import CellFormula.Proofs.RoundTrip
import CellFormula.Proofs.TreeSizes

/-!
# Saved records loaded again

The document of a record nests one level more than that of its tree, and a formula can be nested
deeper than documents may be. A record whose tree fits is loaded as it was saved, if the texts of
its numbers read as these numbers.
-/

namespace CellFormula

open Reading (bind_eq_ok_iff forall_right_of_forall₂ forall₂_imp_of_mem)

theorem JsonNumber.inRange_of_reread {x y : JsonNumber} (h : x.reread = some (.number y)) :
    y.InRange := by
  unfold reread at h
  split at h
  · next j rest read =>
    cases h
    cases Json.read_ok read with
    | number digits => exact Json.inRange_readUnsigned digits
  · cases h

namespace Metadata

theorem ofMembers_toMembers (m : Metadata) : ofMembers (View.ofMembers m.toMembers) = .ok m := by
  have names := Json.texts_strings m.referencedCells
  simp [ofMembers, toMembers, View.ofMembers, Members.check, Members.required, List.lookup_cons,
    Field.of, View.text, View.bool, View.count, View.json_of, Except.map, bind, Except.bind, names]

theorem reread_toMembers {m : Metadata} (fits : m.complexityScore < 2 ^ 64) :
    Json.rereadMembers m.toMembers = some m.toMembers := by
  have score := Json.reread_count fits
  simp [toMembers, Json.rereadMembers, Json.reread, Json.reread_strings, score]

theorem score_of_yields {m m' : Metadata}
    (h : Json.FieldsYield m.toMembers ofMembers m') : m'.complexityScore < 2 ^ 64 := by
  obtain ⟨ms, read, decoded⟩ := h
  simp only [toMembers, Json.rereadMembers_cons_eq_some_iff] at read
  obtain ⟨text, _, -, ⟨root, _, -, ⟨score, _, counted, ⟨conditional, _, -, ⟨lookup, _, -, ⟨names, _,
    -, done, rfl⟩, rfl⟩, rfl⟩, rfl⟩, rfl⟩, rfl⟩ := read
  simp only [ofMembers, bind_eq_ok_iff] at decoded
  obtain ⟨-, -, _, -, _, -, n, count, _, -, _, -, _, -, eq⟩ := decoded
  cases eq
  have count : View.count (View.of score) = .ok n := count
  simp only [View.count, View.json_of] at count
  split at count
  · cases count
    cases JsonNumber.inRange_of_reread counted with
    | integer low high => exact Int.ofNat_lt.mp high
  · cases count
  · cases count

end Metadata

namespace PartialRecord

def ownNames : List String := ["name", "description", "tree"]

theorem foldlM_take_others {ms : List (String × Json)} (foreign : ∀ m ∈ ms, m.1 ∉ ownNames)
    (r : PartialRecord) :
    ms.foldlM take r = .ok { r with others := ms.reverse ++ r.others } := by
  induction ms generalizing r with
  | nil => rfl
  | cons m ms ih =>
    obtain ⟨here, foreign⟩ := List.forall_mem_cons.mp foreign
    simp only [ownNames, List.mem_cons, List.not_mem_nil, or_false, not_or] at here
    rw [List.foldlM_cons, take, if_neg here.1, if_neg here.2.1, if_neg here.2.2]
    change ms.foldlM take _ = _
    rw [ih foreign]
    simp

theorem finish_complete (name description : String) (tree : Formula)
    (others : List (String × Json)) : finish ⟨some name, some description, some tree, others⟩ =
      (Metadata.ofMembers (View.ofMembers others.reverse)).map
        fun m => ⟨name, description, tree, m⟩ := by
  change (Metadata.ofMembers _ >>= _) = _
  cases Metadata.ofMembers (View.ofMembers others.reverse) <;> rfl

end PartialRecord

theorem Metadata.foreign_toMembers {m : Metadata} {ms : List (String × Json)}
    (h : Json.rereadMembers m.toMembers = some ms) : ∀ x ∈ ms, x.1 ∉ PartialRecord.ownNames := by
  intro x hx
  have name := List.mem_map_of_mem (f := Prod.fst) hx
  rw [Json.names_of_reread h] at name
  simp only [toMembers, List.map_cons, List.map_nil, List.mem_cons, List.not_mem_nil,
    or_false] at name
  rcases name with name | name | name | name | name | name <;> rw [name] <;> decide

namespace Record

/-- Equality of records, numbers compared as IEEE 754 does. -/
def same (a b : Record) : Bool :=
  a.name == b.name && a.description == b.description && a.tree.same b.tree &&
    a.metadata == b.metadata

theorem ofJson_members {name description : String} {tree : Json} {ms : List (String × Json)}
    (foreign : ∀ m ∈ ms, m.1 ∉ PartialRecord.ownNames) {r : Record} :
    ofJson (.object (("name", .string name) :: ("description", .string description) ::
        ("tree", tree) :: ms)) = .ok r ↔
      ∃ t m, Formula.ofJson tree = .ok t ∧ Metadata.ofMembers (View.ofMembers ms) = .ok m ∧
        ⟨name, description, t, m⟩ = r := by
  have taken : (("name", .string name) :: ("description", .string description) ::
      ("tree", tree) :: ms).foldlM PartialRecord.take {} =
        (Formula.ofJson tree >>= fun t =>
          ms.foldlM PartialRecord.take ⟨some name, some description, some t, []⟩) := by
    cases decoded : Formula.ofJson tree <;>
      simp [List.foldlM_cons, PartialRecord.take, PartialRecord.takeField, View.text, View.json_of,
        Except.map, bind, Except.bind, decoded]
  simp only [ofJson, taken, bind_eq_ok_iff, PartialRecord.foldlM_take_others foreign]
  constructor
  · rintro ⟨state, ⟨t, decoded, eq⟩, finished⟩
    cases eq
    rw [PartialRecord.finish_complete, List.append_nil, List.reverse_reverse] at finished
    obtain ⟨m, metadata, same⟩ := map_eq_ok_iff.mp finished
    exact ⟨t, m, decoded, metadata, same⟩
  · rintro ⟨t, m, decoded, metadata, same⟩
    refine ⟨_, ⟨t, decoded, rfl⟩, ?_⟩
    rw [PartialRecord.finish_complete, List.append_nil, List.reverse_reverse]
    exact map_eq_ok_iff.mpr ⟨m, metadata, same⟩

theorem depth_toJson (r : Record) : r.toJson.depth = 1 + r.tree.documentDepth := by
  have one : 1 ≤ r.tree.documentDepth := by
    cases r.tree <;> simp only [Formula.documentDepth] <;> omega
  simp only [toJson, Metadata.toMembers, List.cons_append, List.nil_append, Json.depth,
    Json.depthMembers, Formula.depth_toJson, Formula.depth_strings]
  omega

/-- What the document of a record gives back, whatever the record. -/
theorem ofDocument_toDocument_iff {r r' : Record} :
    ofDocument r.toDocument = .ok r' ↔ r.tree.documentDepth ≤ 126 ∧
      ∃ t m, (∃ n, (Node.ofFormula r.tree).reread = some n ∧ n.toFormula = .ok t) ∧
        Json.FieldsYield r.metadata.toMembers Metadata.ofMembers m ∧
          ⟨r.name, r.description, t, m⟩ = r' := by
  have text : r.toDocument = String.ofList (r.toJson.styled .compact 0) := by
    rw [toDocument, Json.toText, Json.compact_eq_styled _ 0]
  have limit : r.toJson.depth ≤ Json.depthLimit ↔ r.tree.documentDepth ≤ 126 := by
    rw [depth_toJson, Json.depthLimit]
    omega
  have members : (∃ j, r.toJson.reread = some j ∧ ofJson j = .ok r') ↔
      ∃ t m, (∃ n, (Node.ofFormula r.tree).reread = some n ∧ n.toFormula = .ok t) ∧
        Json.FieldsYield r.metadata.toMembers Metadata.ofMembers m ∧
          ⟨r.name, r.description, t, m⟩ = r' := by
    simp only [toJson, List.cons_append, List.nil_append, Json.reread, Option.map_eq_some_iff,
      Json.rereadMembers_cons_eq_some_iff, Option.some.injEq, ← Node.ofJson_reread]
    constructor
    · rintro ⟨j, ⟨_, ⟨_, _, rfl, ⟨_, _, rfl, ⟨tree, ms, readTree, readMembers, rfl⟩, rfl⟩, rfl⟩,
        rfl⟩, decoded⟩
      obtain ⟨t, m, described, metadata, same⟩ :=
        (ofJson_members (Metadata.foreign_toMembers readMembers)).mp decoded
      obtain ⟨n, node, built⟩ := Formula.ofJson_eq_ok_iff.mp described
      exact ⟨t, m, ⟨n, ⟨tree, readTree, node⟩, built⟩, ⟨ms, readMembers, metadata⟩, same⟩
    · rintro ⟨t, m, ⟨n, ⟨tree, readTree, node⟩, built⟩, ⟨ms, readMembers, metadata⟩, rfl⟩
      refine ⟨_, ⟨_, ⟨_, _, rfl, ⟨_, _, rfl, ⟨tree, ms, readTree, readMembers, rfl⟩, rfl⟩, rfl⟩,
        rfl⟩, ?_⟩
      exact (ofJson_members (Metadata.foreign_toMembers readMembers)).mpr
        ⟨t, m, Formula.ofJson_eq_ok_iff.mpr ⟨n, node, built⟩, metadata, rfl⟩
  rw [ofDocument_eq_ok_iff, text, Json.readAll_styled, Json.readBack, ← members, ← limit]
  by_cases fits : r.toJson.depth ≤ Json.depthLimit
  · simp only [fits, if_true, true_and]
    cases r.toJson.reread <;> simp
  · simp [fits]

end Record

/-- A number that reads as an equal one reads as itself, since zero keeps its sign. -/
theorem Binary64.reread_of_same {x y : Binary64} (read : x.reread = some y)
    (h : y.same x = true) : x.reread = some x := by
  simp only [same, Bool.and_eq_true, Bool.or_eq_true, beq_iff_eq] at h
  rcases h.2 with rfl | ⟨-, zero⟩
  · exact read
  · rw [eq_zero_of_isZero zero]
    exact reread_zero x.negative

namespace Formula

/-- A tree that comes back as an equal one has kept its numbers. -/
theorem keepsNumbers_of_same {f g : Formula} (read : f.reread = some g) (same : g.same f = true) :
    f.KeepsNumbers := by
  induction f using children_induction generalizing g with
  | node f ih =>
    rw [KeepsNumbers, every_iff]
    constructor
    · cases f with
      | number value =>
        obtain ⟨y, hy, rfl⟩ := Option.map_eq_some_iff.mp read
        exact fun _ => Binary64.reread_of_same hy same
      | cell | text | chain | conditional | call => trivial
    · have both := List.Forall₂.mp (fun _ _ read same => And.intro read same)
        (children_reread read) (children_same same).flip
      have kept := forall₂_imp_of_mem both fun x hx y ⟨read, same⟩ => ih x hx read same
      exact forall_right_of_forall₂ kept.flip fun _ _ kept => kept

theorem sameListBy_self {fs : List Formula} (h : ∀ f ∈ fs, f.same f = true) :
    sameListBy Binary64.same fs fs = true := by
  induction fs with
  | nil => rfl
  | cons f fs ih =>
    obtain ⟨first, rest⟩ := List.forall_mem_cons.mp h
    rw [sameListBy, Bool.and_eq_true]
    exact ⟨first, ih rest⟩

theorem same_self {f : Formula} (finite : f.Finite) : f.same f = true := by
  induction f using induction with
  | cell | text => simp [same, sameBy]
  | number x => exact (Binary64.same_self_iff x).mpr (Binary64.isNaN_of_isFinite finite)
  | chain operands operators ih =>
    have children := everyOf_iff.mp finite.2
    have list := sameListBy_self fun x hx => ih x hx (children x hx)
    simp [same, sameBy, list]
  | conditional comparator l r t f ihl ihr iht ihf =>
    obtain ⟨-, fl, fr, ft, ff⟩ := finite
    simp only [same] at ihl ihr iht ihf
    simp [same, sameBy, ihl fl, ihr fr, iht ft, ihf ff]
  | call name arguments ih =>
    have children := everyOf_iff.mp finite.2
    have list := sameListBy_self fun x hx => ih x hx (children x hx)
    simp [same, sameBy, list]

theorem wellFormed_of_readNode {f : Formula} (h : f.Every Reading.ReadNode) : f.WellFormed := by
  refine wellFormed_iff.mpr (h.imp fun f node => ?_)
  cases f with
  | chain operands operators =>
    obtain ⟨list, rfl, two, count⟩ := node
    exact ⟨two, count⟩
  | cell | number | text | conditional | call => trivial

theorem complexity_parse_le (options : ParseOptions) (text : String) :
    (parse options text).complexity ≤ max 1 (Text.byteLength text.toList) := by
  have sized : (parse options text).size ≤ max 1 (Text.byteLength (Reading.strip text.toList)) :=
    Reading.sized_parse options text
  have stripped := Text.byteLength_le_of_sublist (Reading.strip_isInfix text.toList).sublist
  have := complexity_le_size (parse options text)
  omega

end Formula

namespace Record

/-- The tree nests no deeper than a record may, and the numbers of the record come back. -/
def Loadable (r : Record) : Prop :=
  r.tree.documentDepth ≤ 126 ∧ r.tree.KeepsNumbers ∧ r.metadata.complexityScore < 2 ^ 64

theorem ofDocument_of_loadable {r : Record} (wellFormed : r.tree.WellFormed)
    (valid : r.tree.validate = .ok ()) (h : r.Loadable) : ofDocument r.toDocument = .ok r := by
  obtain ⟨fits, kept, score⟩ := h
  obtain ⟨named, finite⟩ := (Formula.validate_eq_ok_iff _).mp valid
  exact ofDocument_toDocument_iff.mpr ⟨fits, r.tree, r.metadata,
    ⟨_, (Formula.reread_ofFormula kept _).mpr ⟨finite, rfl⟩,
      (Node.toFormula_ofFormula_iff _).mpr ⟨wellFormed, named⟩⟩,
    ⟨_, Metadata.reread_toMembers score, Metadata.ofMembers_toMembers _⟩, rfl⟩

/-- A record with a valid tree is loaded as an equal one only if all of it comes back. -/
theorem loadable_of_same {r r' : Record} (read : ofDocument r.toDocument = .ok r')
    (equal : r'.same r = true) : r.Loadable := by
  obtain ⟨fits, t, m, ⟨n, node, built⟩, metadata, rfl⟩ := ofDocument_toDocument_iff.mp read
  rw [Node.reread_ofFormula] at node
  obtain ⟨g, reread, rfl⟩ := Option.map_eq_some_iff.mp node
  obtain ⟨-, rfl⟩ := Node.toFormula_ofFormula_eq_ok_iff.mp built
  simp only [same, Bool.and_eq_true, beq_iff_eq] at equal
  obtain ⟨⟨-, tree⟩, rfl⟩ := equal
  exact ⟨fits, Formula.keepsNumbers_of_same reread tree, Metadata.score_of_yields metadata⟩

theorem loads_same_iff {r : Record} (wellFormed : r.tree.WellFormed)
    (valid : r.tree.validate = .ok ()) :
    (∃ r', ofDocument r.toDocument = .ok r' ∧ r'.same r = true) ↔ r.Loadable := by
  constructor
  · rintro ⟨r', read, equal⟩
    exact loadable_of_same read equal
  · intro h
    refine ⟨r, ofDocument_of_loadable wellFormed valid h, ?_⟩
    have tree := Formula.same_self ((Formula.validate_eq_ok_iff _).mp valid).2
    simp [same, tree]

theorem exists_ofFormula (name description text : String) {known : Registry}
    (reachable : known.Reachable) (limit : Nat) :
    ∃ r, ofFormula name description text ⟨known, limit⟩ = .ok r := by
  have image := Reading.image_of_parse reachable limit text
  exact ⟨_, bind_eq_ok_iff.mpr ⟨(), image.valid, rfl⟩⟩

/-- A record can be made of every text, and what it saves is loaded as an equal record exactly if
the tree fits into a document and the numbers come back; its score is a count of 64 bits unless the
text is longer than that. -/
theorem ofDocument_ofFormula (name description text : String) :
    ∃ r, ofFormula name description text {} = .ok r ∧
      r.metadata.complexityScore ≤ max 1 (Text.byteLength text.toList) ∧
        ((∃ r', ofDocument r.toDocument = .ok r' ∧ r'.same r = true) ↔ r.Loadable) ∧
          (r.Loadable → ofDocument r.toDocument = .ok r) := by
  have image : Reading.Image (Formula.parse {} text) :=
    Reading.image_of_parse .defaults 256 text
  generalize tree : Formula.parse {} text = f at image
  have score : f.complexity ≤ max 1 (Text.byteLength text.toList) :=
    tree ▸ Formula.complexity_parse_le {} text
  have wellFormed := Formula.wellFormed_of_readNode image.nodes
  refine ⟨⟨name, description, f, .of .single f⟩, ?_, score, loads_same_iff wellFormed image.valid,
    ofDocument_of_loadable wellFormed image.valid⟩
  rw [ofFormula, ofTree, tree, image.valid]
  rfl

end Record

namespace Formula

/-- `LOOKUP(…LOOKUP(A1)…)` with the given number of lookups. -/
def lookups : Nat → Formula
  | 0 => .cell "A1"
  | n + 1 => .lookup [lookups n]

theorem lookups_succ (n : Nat) : lookups (n + 1) = .call lookupName [lookups n] :=
  rfl

theorem clean_lookups (n : Nat) (inCall : Bool) : (lookups n).Clean inCall := by
  induction n generalizing inCall with
  | zero =>
    have name : CleanName "A1".toList := by decide
    exact name
  | succ n ih => exact ⟨rfl, ih true, trivial⟩

theorem norm_lookups (n : Nat) : (lookups n).norm = lookups n := by
  induction n with
  | zero => rfl
  | succ n ih => rw [lookups_succ, norm, normList, normList, ih]

theorem need_lookups (n : Nat) : (lookups n).need = n + 1 := by
  induction n with
  | zero => rfl
  | succ n ih =>
    rw [lookups_succ, need, needList, needList, ih]
    omega

theorem documentDepth_lookups (n : Nat) : (lookups n).documentDepth = 2 * n + 1 := by
  induction n with
  | zero => rfl
  | succ n ih =>
    rw [lookups_succ, documentDepth, deepest, deepest, ih]
    omega

theorem validate_lookups (n : Nat) : (lookups n).validate = .ok () := by
  induction n with
  | zero => rfl
  | succ n ih =>
    rw [lookups_succ, validate, validateList, ih]
    rfl

theorem head_lookups (n : Nat) : ((lookups n).write .single).head? ≠ some '=' := by
  cases n with
  | zero => decide
  | succ n =>
    rw [lookups_succ, write_lookup_eq]
    intro h
    cases h

theorem parse_lookups {n : Nat} (enough : n < 256) :
    parse {} ((lookups n).toText .single) = lookups n := by
  have names : Registry.defaults.WithoutOperators := by decide
  have clean := clean_lookups n false
  obtain ⟨k, reads⟩ := Reading.readsBack (Reading.outlined_of_clean .single names clean)
  have trimmed := (tidy_write .single clean).compact.trimmed
  have levels : k ≤ 256 := Nat.le_trans reads.enough (by rw [need_lookups]; omega)
  apply Reading.parse_of_ok
  rw [parseStrict, toText, String.toList_ofList, Reading.strip_eq_self trimmed (head_lookups n),
    reads.settles.above 256 256 levels, norm_lookups]

theorem wellFormed_lookups (n : Nat) : (lookups n).WellFormed := by
  induction n with
  | zero => trivial
  | succ n ih => exact ⟨ih, trivial⟩

theorem keepsNumbers_lookups (n : Nat) : (lookups n).KeepsNumbers := by
  induction n with
  | zero => trivial
  | succ n ih => exact ⟨trivial, ih, trivial⟩

theorem complexity_lookups (n : Nat) : (lookups n).complexity = 1 := by
  cases n <;> rfl

end Formula

namespace Record

open Formula

theorem ofFormula_lookups (name description : String) {n : Nat} (enough : n < 256) :
    ofFormula name description ((lookups n).toText .single) {} =
      .ok ⟨name, description, lookups n, .of .single (lookups n)⟩ := by
  rw [ofFormula, ofTree, parse_lookups enough, validate_lookups]
  rfl

/-- A lookup takes one level of the parser, which has 256, and two of a document. -/
theorem loads_lookups_iff (name description : String) {n : Nat} (enough : n < 256) :
    (∃ r, ofFormula name description ((lookups n).toText .single) {} = .ok r ∧
      ∃ r', ofDocument r.toDocument = .ok r') ↔ n ≤ 62 := by
  constructor
  · rintro ⟨r, made, r', read⟩
    rw [ofFormula_lookups name description enough] at made
    cases made
    have fits := (ofDocument_toDocument_iff.mp read).1
    rw [documentDepth_lookups] at fits
    omega
  · intro few
    have fits : (lookups n).documentDepth ≤ 126 := by
      rw [documentDepth_lookups]
      omega
    have score : (lookups n).complexity < 2 ^ 64 := by
      rw [complexity_lookups]
      decide
    exact ⟨_, ofFormula_lookups name description enough, _,
      ofDocument_of_loadable (wellFormed_lookups n) (validate_lookups n)
        ⟨fits, keepsNumbers_lookups n, score⟩⟩

/-- One lookup more cannot be loaded, and `1e-23` is loaded as the number after it. -/
theorem ofFormula_not_loaded :
    (∃ r, ofFormula "deep" "" ((lookups 63).toText .single) {} = .ok r ∧
      ∀ r', ofDocument r.toDocument ≠ .ok r') ∧
    ∃ r, ofFormula "tiny" "" "1e-23" {} = .ok r ∧
      ∀ r', ofDocument r.toDocument = .ok r' → r'.same r = false := by
  constructor
  · have made := ofFormula_lookups "deep" "" (show 63 < 256 by decide)
    refine ⟨_, made, fun r' read => ?_⟩
    have few := (loads_lookups_iff "deep" "" (show 63 < 256 by decide)).mp ⟨_, made, r', read⟩
    omega
  · let x : Binary64 := ⟨false, 946, 2302047711048273⟩
    have tiny : parse {} "1e-23" = .number x := by decide +kernel
    refine ⟨⟨"tiny", "", .number x, .of .single (.number x)⟩, ?_, ?_⟩
    · rw [ofFormula, ofTree, tiny]
      rfl
    · intro r' read
      rw [Bool.eq_false_iff]
      intro equal
      have kept : x.reread = some x := (loadable_of_same read equal).2.1 rfl
      have lost : x.reread ≠ some x := by decide +kernel
      exact lost kept

end Record

end CellFormula
