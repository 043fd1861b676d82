import CellFormula.Proofs.FieldOrder

/-!
# Members sorted by name

A value with the members of all its objects sorted by name decodes to the node that the value itself
decodes to, or both are refused, perhaps for different faults. This needs that no object names a
member twice: of two members of one name the sorted value keeps one, and the other value is refused.
-/

namespace CellFormula

open Reading (bind_eq_ok_iff)

/-- Both give the same result, or neither gives one. -/
def Agree {ε ε' α : Type} (x : Except ε α) (y : Except ε' α) : Prop :=
  ∀ a, x = .ok a ↔ y = .ok a

namespace Agree

variable {ε ε' ε'' α β : Type}

theorem refl (x : Except ε α) : Agree x x := fun _ => Iff.rfl

theorem errors (e : ε) (e' : ε') : Agree (.error e : Except ε α) (.error e' : Except ε' α) :=
  fun _ => ⟨nofun, nofun⟩

theorem symm {x : Except ε α} {y : Except ε' α} (h : Agree x y) : Agree y x :=
  fun a => (h a).symm

theorem trans {x : Except ε α} {y : Except ε' α} {z : Except ε'' α} (h : Agree x y)
    (h' : Agree y z) : Agree x z :=
  fun a => (h a).trans (h' a)

theorem bind {x : Except ε α} {y : Except ε' α} {f : α → Except ε β} {g : α → Except ε' β}
    (h : Agree x y) (next : ∀ a, Agree (f a) (g a)) : Agree (x >>= f) (y >>= g) := by
  intro b
  simp only [bind_eq_ok_iff, h _, next _ _]

theorem map {x : Except ε α} {y : Except ε' α} (f : α → β) (h : Agree x y) :
    Agree (x.map f) (y.map f) := by
  intro b
  simp only [map_eq_ok_iff, h _]

theorem mapM {γ γ' : Type} {f : γ → Except ε α} {g : γ' → Except ε' α} {xs : List γ}
    {ys : List γ'} (h : List.Forall₂ (fun x y => Agree (f x) (g y)) xs ys) :
    Agree (xs.mapM f) (ys.mapM g) := by
  induction h with
  | nil =>
    intro as
    simp [pure, Except.pure]
  | cons first _ ih =>
    rw [List.mapM_cons, List.mapM_cons]
    refine first.bind fun a => ih.bind fun as => fun all => ?_
    simp [pure, Except.pure]

end Agree

namespace Json

mutual

/-- No object in the value names a member twice. -/
def DistinctNames : Json → Prop
  | .array items => DistinctNamesAll items
  | .object members => (members.map Prod.fst).Nodup ∧ DistinctNamesIn members
  | _ => True

def DistinctNamesAll : List Json → Prop
  | [] => True
  | j :: js => j.DistinctNames ∧ DistinctNamesAll js

def DistinctNamesIn : List (String × Json) → Prop
  | [] => True
  | (_, v) :: rest => v.DistinctNames ∧ DistinctNamesIn rest

end

theorem sortedList_eq_map (js : List Json) : sortedList js = js.map sorted := by
  induction js with
  | nil => rfl
  | cons j js ih => rw [sortedList, ih, List.map_cons]

/-- A new name is only put in; it takes no other member's place. -/
theorem perm_insertMember {k : String} {done : List (String × Json)}
    (fresh : k ∉ done.map Prod.fst) (v : Json) :
    (insertMember k v done).Perm ((k, v) :: done) := by
  induction done with
  | nil => exact .refl _
  | cons m done ih =>
    rw [List.map_cons, List.mem_cons, not_or] at fresh
    rw [insertMember, if_neg fresh.1]
    split
    · exact .refl _
    · exact ((ih fresh.2).cons m).trans (.swap ..)

theorem perm_sortedMembers {done ms : List (String × Json)}
    (distinct : (done.map Prod.fst ++ ms.map Prod.fst).Nodup) :
    (sortedMembers done ms).Perm (ms.map (fun m => (m.1, m.2.sorted)) ++ done) := by
  induction ms generalizing done with
  | nil => exact .refl _
  | cons m ms ih =>
    obtain ⟨k, v⟩ := m
    have fresh : k ∉ done.map Prod.fst := by
      intro again
      exact (List.nodup_append.mp distinct).2.2 k again k List.mem_cons_self rfl
    have inserted := perm_insertMember fresh v.sorted
    have names : ((insertMember k v.sorted done).map Prod.fst ++ ms.map Prod.fst).Nodup := by
      apply ((inserted.map Prod.fst).append_right _).nodup_iff.mpr
      exact (List.perm_middle.nodup_iff.mp distinct)
    exact (ih names).trans ((inserted.append_left _).trans List.perm_middle)

end Json

/-- The second view is that of a value with sorted members, and it decodes as the first does. -/
structure View.Alike (v w : View) : Prop where
  json : w.json = v.json.sorted
  node : Agree v.node w.node
  nodes : Agree v.nodes w.nodes
  condition : Agree v.condition w.condition

namespace View

def Respects {α : Type} (decode : View → Except DocumentFault α) : Prop :=
  ∀ {v w : View}, v.Alike w → Agree (decode v) (decode w)

/-- What is found in one place or not at all decodes as what is found in the other. -/
theorem Respects.agree {α : Type} {decode : View → Except DocumentFault α}
    (h : Respects decode) {x y : Option View} (found : Option.Rel Alike x y)
    (missing : Except DocumentFault α) :
    Agree (match x with | some v => decode v | none => missing)
      (match y with | some v => decode v | none => missing) := by
  cases found with
  | none => exact .refl _
  | some alike => exact h alike

theorem respects_text : Respects text := by
  intro v w h
  unfold text wrongType
  rw [h.json]
  cases v.json with
  | string s => exact .refl _
  | _ => exact .errors _ _

theorem respects_number : Respects number := by
  intro v w h
  unfold number wrongType
  rw [h.json]
  cases v.json with
  | number n => exact .refl _
  | _ => exact .errors _ _

theorem respects_texts : Respects texts := by
  intro v w h
  unfold texts wrongType
  rw [h.json]
  cases v.json with
  | array items =>
    rw [Json.sorted, Json.sortedList_eq_map]
    apply Agree.mapM
    rw [List.forall₂_map_right_iff, List.forall₂_same]
    intro j _
    cases j with
    | string s => exact .refl _
    | _ => exact .errors _ _
  | _ => exact .errors _ _

theorem respects_optional {α : Type} {decode : View → Except DocumentFault α}
    (h : Respects decode) : Respects (optional decode) := by
  intro v w alike
  have decoded := (h alike).map some
  unfold optional
  rw [alike.json]
  cases v.json with
  | null => exact .refl _
  | _ => exact decoded

end View

namespace Members

/-- Each of the two has a name exactly if the other has it, and only once; the values are alike. -/
structure Alike (ms ms' : Members) : Prop where
  nodup : (ms.map Prod.fst).Nodup
  nodup' : (ms'.map Prod.fst).Nodup
  lookup : ∀ name, Option.Rel View.Alike (ms.lookup name) (ms'.lookup name)

theorem check_iff_lookup {fields : List Field} {ms : Members} (nodup : (ms.map Prod.fst).Nodup) :
    ms.check fields [] = .ok () ↔ ∀ name v, ms.lookup name = some v → ∀ field,
      fields.find? (·.name == name) = some field → field.check v = .ok () := by
  rw [check_eq_ok_iff]
  constructor
  · rintro ⟨-, each⟩ name v found field known
    have name_mem : name ∈ fields.map Field.name := by
      by_contra unknown
      rw [find?_of_not_mem unknown] at known
      cases known
    exact (each (name, v) (mem_among.mpr ⟨mem_of_lookup found, name_mem⟩)).2 field known
  · intro each
    refine ⟨nodup.sublist (List.filter_sublist.map _), fun m hm => ⟨List.not_mem_nil, ?_⟩⟩
    have found : ms.lookup m.1 = some m.2 := (lookup_eq_some_iff nodup).mpr (mem_among.mp hm).1
    exact each m.1 m.2 found

theorem lookup_untagged (ms : Members) (name : String) :
    (ms.filter (·.1 != "type")).lookup name =
      if name = "type" then none else ms.lookup name := by
  induction ms with
  | nil => simp
  | cons m ms ih =>
    by_cases tag : m.1 = "type"
    · rw [List.filter_cons_of_neg (by simp [tag]), ih, List.lookup_cons, tag]
      split
      · rfl
      · next other => rw [beq_eq_false_iff_ne.mpr other]
    · rw [List.filter_cons_of_pos (by simp [tag]), List.lookup_cons, List.lookup_cons, ih]
      by_cases here : name = m.1
      · simp [here, tag]
      · rw [beq_eq_false_iff_ne.mpr here]

theorem kind_eq_ok_iff {kindOf : Json → Except DocumentFault Kind} {ms others : Members} {k : Kind}
    (nodup : (ms.map Prod.fst).Nodup) : kind kindOf none ms = .ok (k, others) ↔
      ms.required "type" (fun tag => kindOf tag.json) = .ok k ∧
        ms.filter (·.1 != "type") = others := by
  induction ms generalizing others with
  | nil => simp [kind, required]
  | cons m ms ih =>
    obtain ⟨name, v⟩ := m
    obtain ⟨absent, nodup⟩ := List.nodup_cons.mp nodup
    by_cases tag : name = "type"
    · subst tag
      have untagged : ms.filter (·.1 != "type") = ms := by
        rw [List.filter_eq_self]
        intro m hm
        rw [bne_iff_ne]
        intro same
        exact absent (List.mem_map.mpr ⟨m, hm, same⟩)
      rw [kind, if_pos rfl, if_neg (by simp), List.filter_cons_of_neg (by simp), untagged]
      simp only [required, List.lookup_cons, beq_self_eq_true, bind_eq_ok_iff]
      constructor
      · rintro ⟨k', named, eq⟩
        rw [Node.kind_of_untagged kindOf k' absent] at eq
        cases eq
        exact ⟨named, rfl⟩
      · rintro ⟨named, rfl⟩
        exact ⟨k, named, Node.kind_of_untagged kindOf k absent⟩
    · have other : ("type" == name) = false := beq_eq_false_iff_ne.mpr (Ne.symm tag)
      rw [kind, if_neg tag, List.filter_cons_of_pos (by simp [tag]), bind_eq_ok_iff]
      have lookup : required ((name, v) :: ms) "type" (fun tag => kindOf tag.json) =
          required ms "type" fun tag => kindOf tag.json := by
        simp only [required, List.lookup_cons, other]
      rw [lookup]
      constructor
      · rintro ⟨⟨k', rest⟩, read, eq⟩
        cases eq
        obtain ⟨named, rfl⟩ := (ih nodup).mp read
        exact ⟨named, rfl⟩
      · rintro ⟨named, rfl⟩
        exact ⟨_, (ih nodup).mpr ⟨named, rfl⟩, rfl⟩

namespace Alike

variable {ms ms' : Members} (h : ms.Alike ms')

include h

theorem untagged : Members.Alike (ms.filter (·.1 != "type")) (ms'.filter (·.1 != "type")) where
  nodup := h.nodup.sublist (List.filter_sublist.map _)
  nodup' := h.nodup'.sublist (List.filter_sublist.map _)
  lookup name := by
    rw [lookup_untagged, lookup_untagged]
    split
    · exact .none
    · exact h.lookup name

theorem check {fields : List Field} (respects : ∀ field ∈ fields, View.Respects field.check) :
    Agree (ms.check fields []) (ms'.check fields []) := by
  intro _
  rw [check_iff_lookup h.nodup, check_iff_lookup h.nodup']
  apply forall_congr'
  intro name
  have found := h.lookup name
  generalize ms.lookup name = x at found ⊢
  generalize ms'.lookup name = y at found ⊢
  cases found with
  | none => simp
  | @some v w alike =>
    have each : ∀ field, fields.find? (·.name == name) = some field →
        (field.check v = .ok () ↔ field.check w = .ok ()) := fun field known =>
      respects field (List.mem_of_find?_eq_some known) alike ()
    simp only [Option.some.injEq, forall_eq']
    exact forall₂_congr each

theorem required {α : Type} {decode : View → Except DocumentFault α}
    (respects : View.Respects decode) (name : String) :
    Agree (ms.required name decode) (ms'.required name decode) :=
  respects.agree (h.lookup name) _

theorem withDefault {α : Type} {decode : View → Except DocumentFault α}
    (respects : View.Respects decode) (name : String) (value : α) :
    Agree (ms.withDefault name value decode) (ms'.withDefault name value decode) :=
  respects.agree (h.lookup name) _

end Alike

end Members

namespace Items

/-- Items that are alike one by one. -/
abbrev Alike (vs ws : Items) : Prop :=
  List.Forall₂ View.Alike vs ws

namespace Alike

variable {vs ws : Items} (h : Alike vs ws)

include h

theorem getElem? (i : Nat) : Option.Rel View.Alike vs[i]? ws[i]? := by
  induction h generalizing i with
  | nil => exact .none
  | cons first _ ih =>
    cases i with
    | zero => exact .some first
    | succ i => exact ih i

theorem required {α : Type} {decode : View → Except DocumentFault α}
    (respects : View.Respects decode) (i : Nat) (expected : String) :
    Agree (Items.required vs i expected decode) (Items.required ws i expected decode) :=
  respects.agree (getElem? h i) _

theorem withDefault {α : Type} {decode : View → Except DocumentFault α}
    (respects : View.Respects decode) (i : Nat) (value : α) :
    Agree (Items.withDefault vs i value decode) (Items.withDefault ws i value decode) :=
  respects.agree (getElem? h i) _

theorem atMost (count : Nat) : Agree (Items.atMost vs count) (Items.atMost ws count) := by
  unfold Items.atMost
  rw [h.length_eq]
  exact .refl _

end Alike

end Items

theorem Field.respects_of {α : Type} {decode : View → Except DocumentFault α}
    (respects : View.Respects decode) (name : String) :
    View.Respects (Field.of name decode).check :=
  fun alike => (respects alike).map _

theorem View.respects_node : Respects node := fun alike => alike.node

theorem View.respects_nodes : Respects nodes := fun alike => alike.nodes

theorem View.respects_condition : Respects condition := fun alike => alike.condition

namespace Condition

theorem agree_ofMembers {ms ms' : Members} (h : ms.Alike ms') :
    Agree (ofMembers ms) (ofMembers ms') := by
  have respects : ∀ field ∈ fields, View.Respects field.check := by
    simp only [fields, List.forall_mem_cons]
    exact ⟨Field.respects_of View.respects_text _, Field.respects_of View.respects_node _,
      Field.respects_of View.respects_node _, List.forall_mem_nil _⟩
  exact (h.check respects).bind fun _ => (h.required View.respects_text _).bind fun _ =>
    (h.required View.respects_node _).bind fun _ =>
      (h.required View.respects_node _).bind fun _ => .refl _

theorem agree_ofItems {vs ws : Items} (h : Items.Alike vs ws) : Agree (ofItems vs) (ofItems ws) :=
  (h.required View.respects_text _ _).bind fun _ =>
    (h.required View.respects_node _ _).bind fun _ =>
      (h.required View.respects_node _ _).bind fun _ => (h.atMost _).bind fun _ => .refl _

end Condition

namespace Kind

theorem respects_fields (kind : Kind) : ∀ field ∈ kind.fields, View.Respects field.check := by
  cases kind <;> simp only [fields, List.forall_mem_cons]
  case cellValue | textbox => exact ⟨Field.respects_of View.respects_text _, List.forall_mem_nil _⟩
  case number => exact ⟨Field.respects_of View.respects_number _, List.forall_mem_nil _⟩
  case operator =>
    exact ⟨Field.respects_of (View.respects_optional View.respects_texts) _,
      Field.respects_of (View.respects_optional View.respects_text) _,
      Field.respects_of View.respects_nodes _, List.forall_mem_nil _⟩
  case conditional =>
    exact ⟨Field.respects_of View.respects_condition _, Field.respects_of View.respects_node _,
      Field.respects_of View.respects_node _, List.forall_mem_nil _⟩
  case function =>
    exact ⟨Field.respects_of View.respects_text _, Field.respects_of View.respects_nodes _,
      List.forall_mem_nil _⟩

end Kind

namespace Node

theorem agree_ofMembers (kind : Kind) {ms ms' : Members} (h : ms.Alike ms') :
    Agree (ofMembers kind ms) (ofMembers kind ms') := by
  have checked := h.check kind.respects_fields
  cases kind with
  | cellValue | textbox =>
    exact checked.bind fun _ => (h.required View.respects_text _).bind fun _ => .refl _
  | number => exact checked.bind fun _ => (h.required View.respects_number _).bind fun _ => .refl _
  | operator =>
    exact checked.bind fun _ =>
      (h.withDefault (View.respects_optional View.respects_texts) _ _).bind fun _ =>
        (h.withDefault (View.respects_optional View.respects_text) _ _).bind fun _ =>
          (h.withDefault View.respects_nodes _ _).bind fun _ => .refl _
  | conditional =>
    exact checked.bind fun _ => (h.required View.respects_condition _).bind fun _ =>
      (h.required View.respects_node _).bind fun _ =>
        (h.required View.respects_node _).bind fun _ => .refl _
  | function =>
    exact checked.bind fun _ => (h.required View.respects_text _).bind fun _ =>
      (h.withDefault View.respects_nodes _ _).bind fun _ => .refl _

theorem agree_ofItems (kind : Kind) {vs ws : Items} (h : Items.Alike vs ws) :
    Agree (ofItems kind vs) (ofItems kind ws) := by
  cases kind with
  | cellValue | textbox =>
    exact (h.required View.respects_text _ _).bind fun _ => (h.atMost _).bind fun _ => .refl _
  | number =>
    exact (h.required View.respects_number _ _).bind fun _ => (h.atMost _).bind fun _ => .refl _
  | operator =>
    exact (h.withDefault (View.respects_optional View.respects_texts) _ _).bind fun _ =>
      (h.withDefault (View.respects_optional View.respects_text) _ _).bind fun _ =>
        (h.withDefault View.respects_nodes _ _).bind fun _ => (h.atMost _).bind fun _ => .refl _
  | conditional =>
    exact (h.required View.respects_condition _ _).bind fun _ =>
      (h.required View.respects_node _ _).bind fun _ =>
        (h.required View.respects_node _ _).bind fun _ => (h.atMost _).bind fun _ => .refl _
  | function =>
    exact (h.required View.respects_text _ _).bind fun _ =>
      (h.withDefault View.respects_nodes _ _).bind fun _ => (h.atMost _).bind fun _ => .refl _

section

variable {kindOf : Json → Except DocumentFault Kind}

/-- Where no name occurs twice, the tag is looked up like a field. -/
theorem agree_untagged {ms : Members} (nodup : (ms.map Prod.fst).Nodup) :
    Agree (ofParts kindOf (.inr ms)) (ms.required "type" (fun tag => kindOf tag.json) >>= fun k =>
      ofMembers k (ms.filter (·.1 != "type"))) := by
  intro n
  simp only [ofParts, bind_eq_ok_iff, Prod.exists, Members.kind_eq_ok_iff nodup]
  constructor
  · rintro ⟨k, others, ⟨named, rfl⟩, decoded⟩
    exact ⟨k, named, decoded⟩
  · rintro ⟨k, named, decoded⟩
    exact ⟨k, _, ⟨named, rfl⟩, decoded⟩

variable (tags : ∀ j : Json, Agree (kindOf j) (kindOf j.sorted))

include tags

theorem respects_tag : View.Respects fun tag => kindOf tag.json := by
  intro v w h
  have same := tags v.json
  rwa [← h.json] at same

theorem agree_ofParts_members {ms ms' : Members} (h : ms.Alike ms') :
    Agree (ofParts kindOf (.inr ms)) (ofParts kindOf (.inr ms')) := by
  refine (agree_untagged h.nodup).trans (.trans ?_ (agree_untagged h.nodup').symm)
  exact (h.required (respects_tag tags) _).bind fun k => agree_ofMembers k h.untagged

theorem agree_ofParts_items {vs ws : Items} (h : Items.Alike vs ws) :
    Agree (ofParts kindOf (.inl vs)) (ofParts kindOf (.inl ws)) := by
  cases h with
  | nil => exact .refl _
  | cons first rest => exact (respects_tag tags first).bind fun k => agree_ofItems k rest

end

end Node

theorem Kind.agree_ofTag (j : Json) : Agree (ofTag j) (ofTag j.sorted) := by
  cases j with
  | array | object => exact .errors _ _
  | _ => exact .refl _

theorem Kind.agree_ofInnerTag (j : Json) : Agree (ofInnerTag j) (ofInnerTag j.sorted) := by
  cases j with
  | array | object => exact .errors _ _
  | _ => exact .refl _

theorem Members.alike_of_perm {ms ms' : List (String × Json)} (nodup : (ms.map Prod.fst).Nodup)
    (perm : ms'.Perm (ms.map fun m => (m.1, m.2.sorted)))
    (each : ∀ m ∈ ms, (View.of m.2).Alike (View.of m.2.sorted)) :
    Members.Alike (View.ofMembers ms) (View.ofMembers ms') := by
  have names : (ms'.map Prod.fst).Nodup := by
    apply (perm.map Prod.fst).nodup_iff.mpr
    rw [List.map_map]
    exact nodup
  rw [← View.names_ofMembers] at names nodup
  refine ⟨nodup, names, fun name => ?_⟩
  cases found : (View.ofMembers ms).lookup name with
  | some v =>
    have member := mem_of_lookup found
    rw [View.ofMembers_eq_map] at member
    obtain ⟨m, hm, eq⟩ := List.mem_map.mp member
    cases eq
    have sorted : (m.1, m.2.sorted) ∈ ms' := perm.mem_iff.mpr (List.mem_map_of_mem hm)
    have found' : (View.ofMembers ms').lookup m.1 = some (View.of m.2.sorted) := by
      rw [lookup_eq_some_iff names, View.ofMembers_eq_map]
      exact List.mem_map_of_mem sorted
    rw [found']
    exact .some (each m hm)
  | none =>
    have absent : (View.ofMembers ms').lookup name = none := by
      rw [Option.eq_none_iff_forall_ne_some]
      intro w found'
      have member := mem_of_lookup found'
      rw [View.ofMembers_eq_map] at member
      obtain ⟨m', hm', eq⟩ := List.mem_map.mp member
      obtain ⟨m, hm, rfl⟩ := List.mem_map.mp (perm.mem_iff.mp hm')
      cases eq
      have here : (View.ofMembers ms).lookup m.1 = some (View.of m.2) := by
        rw [lookup_eq_some_iff nodup, View.ofMembers_eq_map]
        exact List.mem_map_of_mem hm
      rw [here] at found
      cases found
    rw [absent]
    exact .none

theorem Members.alike_sorted {ms : List (String × Json)} (nodup : (ms.map Prod.fst).Nodup)
    (each : ∀ m ∈ ms, (View.of m.2).Alike (View.of m.2.sorted)) :
    Members.Alike (View.ofMembers ms) (View.ofMembers (Json.sortedMembers [] ms)) := by
  have perm : (Json.sortedMembers [] ms).Perm _ := Json.perm_sortedMembers nodup
  rw [List.append_nil] at perm
  exact alike_of_perm nodup perm each

mutual

/-- Sorting the members changes nothing that a value decodes to, in any place. -/
theorem View.alike_of : ∀ j : Json, j.DistinctNames → (View.of j).Alike (View.of j.sorted)
  | .null, _ => ⟨rfl, .refl _, .refl _, .refl _⟩
  | .bool _, _ => ⟨rfl, .refl _, .refl _, .refl _⟩
  | .number _, _ => ⟨rfl, .refl _, .refl _, .refl _⟩
  | .string _, _ => ⟨rfl, .refl _, .refl _, .refl _⟩
  | .array items, h => by
    have list := View.alike_ofList items h
    rw [Json.sorted, View.of, View.of]
    exact ⟨rfl, Node.agree_ofParts_items Kind.agree_ofInnerTag list,
      .mapM (list.imp fun _ _ alike => alike.node), Condition.agree_ofItems list⟩
  | .object ms, h => by
    have members := Members.alike_sorted h.1 (View.alike_ofMembers ms h.2)
    rw [Json.sorted, View.of, View.of]
    exact ⟨rfl, Node.agree_ofParts_members Kind.agree_ofInnerTag members, .refl _,
      Condition.agree_ofMembers members⟩

theorem View.alike_ofList : ∀ js : List Json, Json.DistinctNamesAll js →
    Items.Alike (View.ofList js) (View.ofList (Json.sortedList js))
  | [], _ => .nil
  | j :: js, h => .cons (View.alike_of j h.1) (View.alike_ofList js h.2)

theorem View.alike_ofMembers : ∀ ms : List (String × Json), Json.DistinctNamesIn ms →
    ∀ m ∈ ms, (View.of m.2).Alike (View.of m.2.sorted)
  | [], _ => List.forall_mem_nil _
  | (_, v) :: ms, h => List.forall_mem_cons.mpr ⟨View.alike_of v h.1, View.alike_ofMembers ms h.2⟩

end

theorem Node.agree_ofJson {j : Json} (h : j.DistinctNames) :
    Agree (Node.ofJson j) (Node.ofJson j.sorted) := by
  cases j with
  | array items => exact agree_ofParts_items Kind.agree_ofTag (View.alike_ofList items h)
  | object ms =>
    exact agree_ofParts_members Kind.agree_ofTag
      (Members.alike_sorted h.1 (View.alike_ofMembers ms h.2))
  | _ => exact .refl _

theorem Formula.agree_ofJson {j : Json} (h : j.DistinctNames) :
    Agree (Formula.ofJson j) (Formula.ofJson j.sorted) :=
  (Node.agree_ofJson h).bind fun _ => .refl _

end CellFormula
