import CellFormula.Proofs.Documents
import CellFormula.Proofs.LoadedTrees

/-!
# Fields in any order

The members of an object may stand in any order and beside members with other names, and the fields
of an array stand in the order of their declaration. What a node or a condition decodes to depends
on its fields alone.
-/

namespace CellFormula

open Reading (bind_eq_ok_iff)

namespace Members

/-- The members that have one of the names. -/
def among (names : List String) (members : Members) : Members :=
  members.filter fun m => names.contains m.1

theorem mem_among {names : List String} {members : Members} {m : String × View} :
    m ∈ among names members ↔ m ∈ members ∧ m.1 ∈ names := by
  simp [among]

theorem among_cons_of_mem {names : List String} {m : String × View} (h : m.1 ∈ names)
    (members : Members) : among names (m :: members) = m :: among names members := by
  simp [among, h]

theorem among_cons_of_not_mem {names : List String} {m : String × View} (h : m.1 ∉ names)
    (members : Members) : among names (m :: members) = among names members := by
  simp [among, h]

theorem find?_of_not_mem {fields : List Field} {name : String}
    (h : name ∉ fields.map Field.name) : fields.find? (·.name == name) = none := by
  rw [List.find?_eq_none]
  intro field hfield same
  exact h (beq_iff_eq.mp same ▸ List.mem_map_of_mem hfield)

theorem exists_find?_of_mem {fields : List Field} {name : String}
    (h : name ∈ fields.map Field.name) : ∃ field, fields.find? (·.name == name) = some field := by
  obtain ⟨field, hfield, rfl⟩ := List.mem_map.mp h
  exact Option.isSome_iff_exists.mp (List.find?_isSome.mpr ⟨field, hfield, beq_self_eq_true _⟩)

/-- Members are accepted if no known name occurs twice and each value is one its field takes. -/
theorem check_eq_ok_iff {fields : List Field} {seen : List String} {members : Members} :
    check fields seen members = .ok () ↔
      ((among (fields.map Field.name) members).map Prod.fst).Nodup ∧
        ∀ m ∈ among (fields.map Field.name) members, m.1 ∉ seen ∧
          ∀ field, fields.find? (·.name == m.1) = some field → field.check m.2 = .ok () := by
  induction members generalizing seen with
  | nil => simp [check, among]
  | cons m members ih =>
    obtain ⟨name, v⟩ := m
    rw [check]
    by_cases known : name ∈ fields.map Field.name
    · obtain ⟨field, found⟩ := exists_find?_of_mem known
      simp only [found, among_cons_of_mem (m := (name, v)) known, List.map_cons, List.nodup_cons,
        List.forall_mem_cons]
      by_cases twice : name ∈ seen
      · simp [twice]
      · have fresh : seen.contains name = false := by simpa using twice
        rw [fresh, if_neg Bool.false_ne_true, Formula.bind_eq_ok_unit_iff, ih]
        constructor
        · rintro ⟨accepted, nodup, rest⟩
          refine ⟨⟨?_, nodup⟩, ⟨twice, fun field' h => Option.some.inj h ▸ accepted⟩, ?_⟩
          · intro again
            obtain ⟨m', hm', rfl⟩ := List.mem_map.mp again
            exact (rest m' hm').1 List.mem_cons_self
          · intro m' hm'
            exact ⟨fun h => (rest m' hm').1 (List.mem_cons_of_mem _ h), (rest m' hm').2⟩
        · rintro ⟨⟨absent, nodup⟩, ⟨-, accepted⟩, rest⟩
          refine ⟨accepted field rfl, nodup, fun m' hm' => ⟨?_, (rest m' hm').2⟩⟩
          intro h
          rcases List.mem_cons.mp h with same | h
          · exact absent (same ▸ List.mem_map_of_mem hm')
          · exact (rest m' hm').1 h
    · simp only [find?_of_not_mem known, among_cons_of_not_mem (m := (name, v)) known]
      exact ih

theorem lookup_eq_some_iff {members : Members} (nodup : (members.map Prod.fst).Nodup)
    {name : String} {v : View} : members.lookup name = some v ↔ (name, v) ∈ members := by
  refine ⟨mem_of_lookup, fun h => ?_⟩
  induction members with
  | nil => cases h
  | cons m members ih =>
    obtain ⟨absent, nodup⟩ := List.nodup_cons.mp nodup
    rw [List.lookup_cons]
    rcases List.mem_cons.mp h with rfl | h
    · simp
    · have other : (name == m.1) = false := by
        rw [beq_eq_false_iff_ne]
        rintro rfl
        exact absent (List.mem_map.mpr ⟨_, h, rfl⟩)
      rw [other]
      exact ih nodup h

theorem lookup_among {names : List String} {name : String} (h : name ∈ names)
    (members : Members) : (among names members).lookup name = members.lookup name := by
  induction members with
  | nil => rfl
  | cons m members ih =>
    by_cases known : m.1 ∈ names
    · rw [among_cons_of_mem known, List.lookup_cons, List.lookup_cons, ih]
    · have other : (name == m.1) = false := by
        rw [beq_eq_false_iff_ne]
        rintro rfl
        exact known h
      rw [among_cons_of_not_mem known, List.lookup_cons, other, ih]

theorem lookup_eq_of_perm {names : List String} {members members' : Members}
    (perm : (among names members).Perm (among names members'))
    (nodup : ((among names members').map Prod.fst).Nodup) {name : String} (h : name ∈ names) :
    members.lookup name = members'.lookup name := by
  rw [← lookup_among h members, ← lookup_among h members']
  ext v
  rw [lookup_eq_some_iff nodup, lookup_eq_some_iff ((perm.map Prod.fst).nodup_iff.mpr nodup)]
  exact perm.mem_iff

/-- In another order the members pass the same check and give the same fields. -/
theorem fields_of_perm {fields : List Field} {members members' : Members}
    (checked : members'.check fields [] = .ok ())
    (perm : (among (fields.map Field.name) members).Perm
      (among (fields.map Field.name) members')) :
    members.check fields [] = members'.check fields [] ∧
      ∀ name ∈ fields.map Field.name, members.lookup name = members'.lookup name := by
  obtain ⟨nodup, each⟩ := check_eq_ok_iff.mp checked
  constructor
  · rw [checked]
    exact check_eq_ok_iff.mpr
      ⟨(perm.map Prod.fst).nodup_iff.mpr nodup, fun m hm => each m (perm.mem_iff.mp hm)⟩
  · exact fun name hname => lookup_eq_of_perm perm nodup hname

/-- The tag may stand anywhere among the members, and takes no other field away. -/
theorem exists_kind {kindOf : Json → Except DocumentFault Kind} {k : Kind} {members : Members}
    {tag : View} (tagged : among ["type"] members = [("type", tag)])
    (kindOf_tag : kindOf tag.json = .ok k) :
    ∃ others, kind kindOf none members = .ok (k, others) ∧
      ∀ names, "type" ∉ names → among names others = among names members := by
  induction members with
  | nil => cases tagged
  | cons m members ih =>
    obtain ⟨name, v⟩ := m
    by_cases here : name = "type"
    · subst here
      rw [among_cons_of_mem (m := ("type", v)) List.mem_cons_self] at tagged
      obtain ⟨first, untagged⟩ := List.cons.inj tagged
      cases first
      have untagged : "type" ∉ members.map Prod.fst := by
        intro again
        obtain ⟨m, hm, same⟩ := List.mem_map.mp again
        have twice := mem_among.mpr ⟨hm, List.mem_singleton.mpr same⟩
        exact List.not_mem_nil (untagged ▸ twice)
      refine ⟨members, ?_, fun names h => (among_cons_of_not_mem h members).symm⟩
      rw [kind, if_pos rfl]
      change (kindOf tag.json >>= fun k => kind kindOf (some k) members) = _
      rw [kindOf_tag]
      exact Node.kind_of_untagged kindOf k untagged
    · rw [among_cons_of_not_mem (by simp [here])] at tagged
      obtain ⟨others, rest, same⟩ := ih tagged
      refine ⟨(name, v) :: others, ?_, fun names h => ?_⟩
      · rw [kind, if_neg here, rest]
        rfl
      · have same : others.filter (fun m => names.contains m.1) =
            members.filter fun m => names.contains m.1 := same names h
        simp only [among, List.filter_cons, same]

end Members

namespace Items

/-- In the order of the names the fields are found by their position as they are by name. -/
theorem getElem?_of_prefix {names : List String} {members : Members}
    (ordered : members.map Prod.fst <+: names) (nodup : names.Nodup) {i : Nat} {name : String}
    (h : names[i]? = some name) : (members.map Prod.snd)[i]? = members.lookup name := by
  induction names generalizing members i with
  | nil => cases h
  | cons n names ih =>
    obtain ⟨absent, nodup⟩ := List.nodup_cons.mp nodup
    cases members with
    | nil => simp
    | cons m members =>
      obtain ⟨first, ordered⟩ := List.cons_prefix_cons.mp ordered
      rw [List.lookup_cons]
      cases i with
      | zero =>
        obtain rfl : n = name := by simpa using h
        simp [first]
      | succ i =>
        rw [List.getElem?_cons_succ] at h
        have other : (name == m.1) = false := by
          rw [beq_eq_false_iff_ne, first]
          rintro rfl
          exact absent (List.mem_of_getElem? h)
        rw [other]
        exact ih ordered nodup h

theorem required_eq_ok {α : Type} {items : Items} {members : Members} {i : Nat} {name : String}
    {decode : View → Except DocumentFault α} {a : α} (same : items[i]? = members.lookup name)
    (h : members.required name decode = .ok a) (expected : String) :
    items.required i expected decode = .ok a := by
  unfold Members.required at h
  unfold required
  rw [same]
  split at h
  · exact h
  · cases h

theorem withDefault_eq {α : Type} {items : Items} {members : Members} {i : Nat} {name : String}
    {value : α} {decode : View → Except DocumentFault α} (same : items[i]? = members.lookup name) :
    items.withDefault i value decode = members.withDefault name value decode := by
  rw [withDefault, Members.withDefault, same]

theorem atMost_eq_ok {items : Items} {count : Nat} (h : items.length ≤ count) :
    items.atMost count = .ok () :=
  if_pos h

end Items

namespace Kind

/-- The names of the fields, in the order of their declaration. -/
def fieldNames : Kind → List String
  | .cellValue | .number | .textbox => ["value"]
  | .operator => ["operators", "operator", "args"]
  | .conditional => ["condition", "trueValue", "falseValue"]
  | .function => ["name", "args"]

def fields : Kind → List Field
  | .cellValue | .textbox => [.of "value" View.text]
  | .number => [.of "value" View.number]
  | .operator => [.of "operators" (View.optional View.texts),
    .of "operator" (View.optional View.text), .of "args" View.nodes]
  | .conditional => [.of "condition" View.condition, .of "trueValue" View.node,
    .of "falseValue" View.node]
  | .function => [.of "name" View.text, .of "args" View.nodes]

theorem names_fields (kind : Kind) : kind.fields.map Field.name = kind.fieldNames := by
  cases kind <;> rfl

theorem nodup_fieldNames (kind : Kind) : kind.fieldNames.Nodup := by
  cases kind <;> decide

theorem type_not_mem_fieldNames (kind : Kind) : "type" ∉ kind.fieldNames := by
  cases kind <;> decide

end Kind

namespace Node

theorem check_of_ofMembers {kind : Kind} {members : Members} {n : Node}
    (h : ofMembers kind members = .ok n) : members.check kind.fields [] = .ok () := by
  cases kind <;> exact (bind_eq_ok_iff.mp h).choose_spec.1

/-- A node is decoded from its fields, whatever else is among the members. -/
theorem ofMembers_congr {kind : Kind} {members members' : Members}
    (checked : members.check kind.fields [] = members'.check kind.fields [])
    (found : ∀ name ∈ kind.fieldNames, members.lookup name = members'.lookup name) :
    ofMembers kind members = ofMembers kind members' := by
  cases kind with
  | cellValue | number | textbox =>
    have value := found "value" List.mem_cons_self
    simp only [Kind.fields] at checked
    simp only [ofMembers, checked, Members.required, value]
  | operator =>
    simp only [Kind.fieldNames, List.forall_mem_cons] at found
    obtain ⟨list, shared, args, -⟩ := found
    simp only [Kind.fields] at checked
    simp only [ofMembers, checked, Members.withDefault, list, shared, args]
  | conditional =>
    simp only [Kind.fieldNames, List.forall_mem_cons] at found
    obtain ⟨condition, whenTrue, whenFalse, -⟩ := found
    simp only [Kind.fields] at checked
    simp only [ofMembers, checked, Members.required, condition, whenTrue, whenFalse]
  | function =>
    simp only [Kind.fieldNames, List.forall_mem_cons] at found
    obtain ⟨name, args, -⟩ := found
    simp only [Kind.fields] at checked
    simp only [ofMembers, checked, Members.required, Members.withDefault, name, args]

theorem ofMembers_of_perm {kind : Kind} {members members' : Members}
    (perm : (Members.among kind.fieldNames members).Perm
      (Members.among kind.fieldNames members')) {n : Node}
    (h : ofMembers kind members' = .ok n) : ofMembers kind members = .ok n := by
  rw [← kind.names_fields] at perm
  obtain ⟨checked, found⟩ := Members.fields_of_perm (check_of_ofMembers h) perm
  rw [kind.names_fields] at found
  rw [ofMembers_congr checked found, h]

/-- The fields of a node decode by position as they do by name. -/
theorem ofItems_of_ofMembers {kind : Kind} {members : Members}
    (ordered : members.map Prod.fst <+: kind.fieldNames) {n : Node}
    (h : ofMembers kind members = .ok n) : ofItems kind (members.map Prod.snd) = .ok n := by
  have found : ∀ {i : Nat} {name : String}, kind.fieldNames[i]? = some name →
      (members.map Prod.snd)[i]? = members.lookup name :=
    Items.getElem?_of_prefix ordered kind.nodup_fieldNames
  have few : (members.map Prod.snd).length ≤ kind.fieldNames.length := by
    simpa using ordered.length_le
  cases kind with
  | cellValue | number | textbox =>
    simp only [ofMembers, bind_eq_ok_iff] at h
    obtain ⟨-, -, value, hvalue, h⟩ := h
    simp only [ofItems, bind_eq_ok_iff]
    exact ⟨value, Items.required_eq_ok (found rfl) hvalue _, (), Items.atMost_eq_ok few, h⟩
  | operator =>
    simp only [ofMembers, bind_eq_ok_iff] at h
    obtain ⟨-, -, list, hlist, shared, hshared, args, hargs, h⟩ := h
    simp only [ofItems, bind_eq_ok_iff]
    exact ⟨list, (Items.withDefault_eq (found rfl)).trans hlist,
      shared, (Items.withDefault_eq (found rfl)).trans hshared,
      args, (Items.withDefault_eq (found rfl)).trans hargs, (), Items.atMost_eq_ok few, h⟩
  | conditional =>
    simp only [ofMembers, bind_eq_ok_iff] at h
    obtain ⟨-, -, c, hc, t, ht, f, hf, h⟩ := h
    simp only [ofItems, bind_eq_ok_iff]
    exact ⟨c, Items.required_eq_ok (found rfl) hc _, t, Items.required_eq_ok (found rfl) ht _,
      f, Items.required_eq_ok (found rfl) hf _, (), Items.atMost_eq_ok few, h⟩
  | function =>
    simp only [ofMembers, bind_eq_ok_iff] at h
    obtain ⟨-, -, name, hname, args, hargs, h⟩ := h
    simp only [ofItems, bind_eq_ok_iff]
    exact ⟨name, Items.required_eq_ok (found rfl) hname _,
      args, (Items.withDefault_eq (found rfl)).trans hargs, (), Items.atMost_eq_ok few, h⟩

end Node

namespace Condition

def fieldNames : List String := ["operator", "left", "right"]

def fields : List Field :=
  [.of "operator" View.text, .of "left" View.node, .of "right" View.node]

theorem ofMembers_of_perm {members members' : Members}
    (perm : (Members.among fieldNames members).Perm (Members.among fieldNames members'))
    {c : Condition} (h : ofMembers members' = .ok c) : ofMembers members = .ok c := by
  have checked : members'.check fields [] = .ok () := (bind_eq_ok_iff.mp h).choose_spec.1
  obtain ⟨same, found⟩ := Members.fields_of_perm checked perm
  change ∀ name ∈ fieldNames, _ at found
  simp only [fieldNames, List.forall_mem_cons] at found
  obtain ⟨operator, left, right, -⟩ := found
  simp only [fields] at same
  rw [← h]
  simp only [ofMembers, same, Members.required, operator, left, right]

theorem ofItems_of_ofMembers {members : Members} (ordered : members.map Prod.fst <+: fieldNames)
    {c : Condition} (h : ofMembers members = .ok c) : ofItems (members.map Prod.snd) = .ok c := by
  have found : ∀ {i : Nat} {name : String}, fieldNames[i]? = some name →
      (members.map Prod.snd)[i]? = members.lookup name :=
    Items.getElem?_of_prefix ordered (by decide)
  have few : (members.map Prod.snd).length ≤ fieldNames.length := by
    simpa using ordered.length_le
  simp only [ofMembers, bind_eq_ok_iff] at h
  obtain ⟨-, -, s, hs, l, hl, r, hr, h⟩ := h
  simp only [ofItems, bind_eq_ok_iff]
  exact ⟨s, Items.required_eq_ok (found rfl) hs _, l, Items.required_eq_ok (found rfl) hl _,
    r, Items.required_eq_ok (found rfl) hr _, (), Items.atMost_eq_ok few, h⟩

end Condition

end CellFormula
