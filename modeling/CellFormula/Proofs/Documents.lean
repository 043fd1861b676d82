import CellFormula.Proofs.Decoding
import CellFormula.Proofs.JsonText
import CellFormula.Proofs.NodeForms

/-!
# Documents of trees read again

A document nests two levels for a chain or a call and one or two for a conditional. It can be read
as long as these fit, and gives back the node it was written for with every number as its text
reads; a number that is not finite has no text that reads as a number.
-/

namespace CellFormula

open Reading (bind_eq_ok_iff)

/-- What the text of a number in a document reads as, if that is a number. -/
def Binary64.reread (x : Binary64) : Option Binary64 :=
  match (JsonNumber.real x).reread with
  | some (.number n) => some n.toBinary64
  | _ => none

theorem Binary64.reread_of_not_isFinite {x : Binary64} (h : x.isFinite = false) :
    x.reread = none := by
  have null : (JsonNumber.real x).reread = some .null := by
    rw [JsonNumber.reread, Json.writeNumber, Json.document_of_not_isFinite h]
    rfl
  rw [Binary64.reread, null]

theorem Binary64.eq_zero_of_isZero {x : Binary64} (h : x.isZero = true) : x = .zero x.negative := by
  obtain ⟨negative, exponent, fraction⟩ := x
  simp only [isZero, Bool.and_eq_true, beq_iff_eq] at h
  obtain ⟨rfl, rfl⟩ := h
  rfl

theorem Binary64.reread_zero (negative : Bool) : (zero negative).reread = some (zero negative) := by
  cases negative <;> decide

namespace Json

/-- The value, written and read, decodes to `a`. -/
def Yields {α : Type} (j : Json) (decode : View → Except DocumentFault α) (a : α) : Prop :=
  ∃ j', j.reread = some j' ∧ decode (View.of j') = .ok a

theorem rereadMembers_cons_eq_some_iff {k : String} {v : Json} {ms ms' : List (String × Json)} :
    rereadMembers ((k, v) :: ms) = some ms' ↔
      ∃ v' rest, v.reread = some v' ∧ rereadMembers ms = some rest ∧ (k, v') :: rest = ms' := by
  simp only [rereadMembers, Option.bind_eq_some_iff, Option.map_eq_some_iff]
  constructor
  · rintro ⟨v', hv, rest, hrest, eq⟩
    exact ⟨v', rest, hv, hrest, eq⟩
  · rintro ⟨v', rest, hv, hrest, eq⟩
    exact ⟨v', hv, rest, hrest, eq⟩

/-- The members of an object, written and read, decode to `a`. -/
def FieldsYield {α : Type} (ms : List (String × Json)) (decode : Members → Except DocumentFault α)
    (a : α) : Prop :=
  ∃ ms', rereadMembers ms = some ms' ∧ decode (View.ofMembers ms') = .ok a

theorem fieldsYield_nil {α : Type} {decode : Members → Except DocumentFault α} {a : α} :
    FieldsYield [] decode a ↔ decode [] = .ok a := by
  simp [FieldsYield, rereadMembers, View.ofMembers]

theorem fieldsYield_cons {α : Type} {k : String} {v : Json} {ms : List (String × Json)}
    {decode : Members → Except DocumentFault α} {a : α} :
    FieldsYield ((k, v) :: ms) decode a ↔ ∃ v', v.reread = some v' ∧
      FieldsYield ms (fun rest => decode ((k, View.of v') :: rest)) a := by
  simp only [FieldsYield, rereadMembers_cons_eq_some_iff]
  constructor
  · rintro ⟨ms', ⟨v', rest, hv, hrest, rfl⟩, decoded⟩
    exact ⟨v', hv, rest, hrest, decoded⟩
  · rintro ⟨v', hv, rest, hrest, decoded⟩
    exact ⟨_, ⟨v', rest, hv, hrest, rfl⟩, decoded⟩

theorem names_of_reread {ms ms' : List (String × Json)} (h : rereadMembers ms = some ms') :
    ms'.map Prod.fst = ms.map Prod.fst := by
  induction ms generalizing ms' with
  | nil =>
    cases h
    rfl
  | cons m ms ih =>
    obtain ⟨v', rest, -, hrest, rfl⟩ := rereadMembers_cons_eq_some_iff.mp h
    rw [List.map_cons, List.map_cons, ih hrest]

theorem rereadItems_strings (ss : List String) :
    rereadItems (ss.map .string) = some (ss.map .string) := by
  induction ss with
  | nil => rfl
  | cons s ss ih => simp [rereadItems, reread, ih]

theorem yields_number {x y : Binary64} :
    (number (.real x)).Yields View.number y ↔ x.reread = some y := by
  simp only [Yields, reread, Binary64.reread, View.number, View.json_of]
  cases (JsonNumber.real x).reread with
  | none => simp
  | some j =>
    cases j with
    | number n => simp
    | _ => simp [View.wrongType]

theorem texts_strings (ss : List String) : (View.of (Node.strings ss)).texts = .ok ss := by
  simp only [View.texts, View.json_of, Node.strings]
  induction ss with
  | nil => rfl
  | cons s ss ih =>
    rw [List.map_cons, List.mapM_cons, ih]
    rfl

theorem reread_strings (ss : List String) : (Node.strings ss).reread = some (Node.strings ss) := by
  rw [Node.strings, reread, rereadItems_strings]
  rfl

end Json

namespace Node

def kind : Node → Kind
  | .cellValue _ => .cellValue
  | .number _ => .number
  | .textbox _ => .textbox
  | .operator .. => .operator
  | .conditional .. => .conditional
  | .function .. => .function

/-- The members of the document of a node, without its tag. -/
def fields : Node → List (String × Json)
  | .cellValue value => [("value", .string value)]
  | .number value => [("value", .number (.real value))]
  | .textbox value => [("value", .string value)]
  | .operator list shared args =>
    optionalMember "operators" strings list ++ optionalMember "operator" .string shared ++
      [("args", .array (toJsons args))]
  | .conditional symbol left right trueValue falseValue =>
    [("condition", .object [("operator", .string symbol), ("left", left.toJson),
      ("right", right.toJson)]), ("trueValue", trueValue.toJson), ("falseValue", falseValue.toJson)]
  | .function name args => [("name", .string name), ("args", .array (toJsons args))]

theorem toJson_eq (n : Node) :
    n.toJson = .object (("type", .string n.kind.name) :: n.fields) := by
  cases n with
  | operator list shared args => simp [toJson, fields, kind, Kind.name]
  | _ => simp [toJson, fields, kind, Kind.name]

theorem untagged_fields (n : Node) : "type" ∉ n.fields.map Prod.fst := by
  cases n with
  | operator list shared args => cases list <;> cases shared <;> simp [fields, optionalMember]
  | _ => simp [fields]

theorem kind_of_untagged (kindOf : Json → Except DocumentFault Kind) (kind : Kind)
    {members : Members} (untagged : "type" ∉ members.map Prod.fst) :
    Members.kind kindOf (some kind) members = .ok (kind, members) := by
  induction members with
  | nil => rfl
  | cons m members ih =>
    rw [List.map_cons, List.mem_cons, not_or] at untagged
    rw [Members.kind, if_neg (Ne.symm untagged.1), ih untagged.2]
    rfl

theorem ofName_name (kind : Kind) : Kind.ofName kind.name = .ok kind := by
  cases kind <;> rfl

/-- A tag that is a string means the same in every place. -/
theorem ofParts_tagged (kindOf : Json → Except DocumentFault Kind)
    (strings : ∀ s, kindOf (.string s) = Kind.ofName s) (kind : Kind) {ms : List (String × Json)}
    (untagged : "type" ∉ ms.map Prod.fst) :
    ofParts kindOf (.inr (View.ofMembers (("type", .string kind.name) :: ms))) =
      ofMembers kind (View.ofMembers ms) := by
  rw [ofParts, View.ofMembers, Members.kind, if_pos rfl, View.json_of, strings, ofName_name]
  change (Members.kind kindOf (some kind) (View.ofMembers ms) >>= _) = _
  rw [← View.names_ofMembers] at untagged
  rw [kind_of_untagged kindOf kind untagged]
  rfl

theorem ofMembers_cellValue (v : View) :
    ofMembers .cellValue [("value", v)] = v.text.map .cellValue := by
  simp only [ofMembers, Members.required, List.lookup_cons, Field.of]
  cases h : v.text <;> simp [h, Members.check, Except.map, bind, Except.bind]

theorem ofMembers_number (v : View) :
    ofMembers .number [("value", v)] = v.number.map .number := by
  simp only [ofMembers, Members.required, List.lookup_cons, Field.of]
  cases h : v.number <;> simp [h, Members.check, Except.map, bind, Except.bind]

theorem ofMembers_textbox (v : View) :
    ofMembers .textbox [("value", v)] = v.text.map .textbox := by
  simp only [ofMembers, Members.required, List.lookup_cons, Field.of]
  cases h : v.text <;> simp [h, Members.check, Except.map, bind, Except.bind]

theorem ofMembers_function (name : String) (args : View) :
    ofMembers .function [("name", View.of (.string name)), ("args", args)] =
      args.nodes.map (.function name) := by
  simp only [ofMembers, Members.required, Members.withDefault, List.lookup_cons, Field.of]
  cases h : args.nodes <;>
    simp [h, Members.check, Except.map, bind, Except.bind, View.text, View.of]

theorem ofMembers_conditional {condition trueValue falseValue : View} {n : Node} :
    ofMembers .conditional [("condition", condition), ("trueValue", trueValue),
        ("falseValue", falseValue)] = .ok n ↔
      ∃ c t f, condition.condition = .ok c ∧ trueValue.node = .ok t ∧ falseValue.node = .ok f ∧
        .conditional c.operator c.left c.right t f = n := by
  simp only [ofMembers, Members.required, List.lookup_cons, Field.of]
  cases hc : condition.condition <;> cases ht : trueValue.node <;> cases hf : falseValue.node <;>
    simp [hc, ht, hf, Members.check, Except.map, bind, Except.bind]

theorem ofMembers_condition {symbol : String} {left right : View} {c : Condition} :
    Condition.ofMembers [("operator", View.of (.string symbol)), ("left", left),
        ("right", right)] = .ok c ↔
      ∃ l r, left.node = .ok l ∧ right.node = .ok r ∧ ⟨symbol, l, r⟩ = c := by
  simp only [Condition.ofMembers, Members.required, List.lookup_cons, Field.of]
  cases hl : left.node <;> cases hr : right.node <;>
    simp [hl, hr, Members.check, Except.map, bind, Except.bind, View.text, View.of]

theorem optional_text (s : String) :
    View.optional View.text (View.of (.string s)) = .ok (some s) := by
  simp [View.optional, View.text, View.json_of, Except.map]

theorem optional_texts (ss : List String) :
    View.optional View.texts (View.of (strings ss)) = .ok (some ss) := by
  have notNull : (View.of (strings ss)).json = .array (ss.map .string) := View.json_of _
  rw [View.optional, notNull]
  simp only [Json.texts_strings, Except.map]

/-- The members that give an optional field. Where the value is missing, so is the member, or it is
null. -/
def IsOptional {α : Type} (name : String) (encode : α → Json) :
    Option α → List (String × Json) → Prop
  | some a, ms => ms = [(name, encode a)]
  | none, ms => ms = [] ∨ ms = [(name, .null)]

theorem isOptional_optionalMember {α : Type} (name : String) (encode : α → Json)
    (value : Option α) : IsOptional name encode value (optionalMember name encode value) := by
  cases value with
  | none => exact .inl rfl
  | some a => rfl

theorem IsOptional.cases {α : Type} {name : String} {encode : α → Json}
    {decode : View → Except DocumentFault α}
    (inverse : ∀ a, View.optional decode (View.of (encode a)) = .ok (some a)) {value : Option α}
    {ms : List (String × Json)} (h : IsOptional name encode value ms) :
    (ms = [] ∧ value = none) ∨
      ∃ j, ms = [(name, j)] ∧ View.optional decode (View.of j) = .ok value := by
  cases value with
  | some a => exact .inr ⟨encode a, h, inverse a⟩
  | none =>
    rcases h with absent | null
    · exact .inl ⟨absent, rfl⟩
    · exact .inr ⟨.null, null, rfl⟩

theorem IsOptional.name_eq {α : Type} {name : String} {encode : α → Json} {value : Option α}
    {ms : List (String × Json)} (h : IsOptional name encode value ms) : ∀ m ∈ ms, m.1 = name := by
  intro m hm
  cases value with
  | some a =>
    obtain rfl : ms = [(name, encode a)] := h
    rw [List.mem_singleton.mp hm]
  | none =>
    rcases h with rfl | rfl
    · cases hm
    · rw [List.mem_singleton.mp hm]

/-- An optional field that is absent is decoded as one that is there and holds nothing. -/
theorem ofMembers_operator {list : Option (List String)} {shared : Option String}
    {ms ms' : List (String × Json)} (h : IsOptional "operators" strings list ms)
    (h' : IsOptional "operator" .string shared ms') (args : View) :
    ofMembers .operator (View.ofMembers (ms ++ ms') ++ [("args", args)]) =
      args.nodes.map (.operator list shared) := by
  rcases h.cases optional_texts with ⟨rfl, rfl⟩ | ⟨j, rfl, hlist⟩ <;>
    rcases h'.cases optional_text with ⟨rfl, rfl⟩ | ⟨j', rfl, hshared⟩ <;>
    simp only [ofMembers, Members.withDefault, Field.of, View.ofMembers, List.nil_append,
      List.cons_append, List.lookup_cons] <;>
    cases hargs : args.nodes <;>
      simp [*, Members.check, Except.map, bind, Except.bind]

mutual

/-- The node with every number as its text reads, if all of them read as numbers. -/
def reread : Node → Option Node
  | .cellValue value => some (.cellValue value)
  | .number value => value.reread.map .number
  | .textbox value => some (.textbox value)
  | .operator list shared args => (rereadAll args).map (.operator list shared)
  | .conditional symbol left right trueValue falseValue => do
    some (.conditional symbol (← left.reread) (← right.reread) (← trueValue.reread)
      (← falseValue.reread))
  | .function name args => (rereadAll args).map (.function name)

def rereadAll : List Node → Option (List Node)
  | [] => some []
  | n :: ns => do some ((← n.reread) :: (← rereadAll ns))

end

/-- A node is decoded from its members, wherever it stands. -/
theorem reread_toJson_iff {decode : Json → Except DocumentFault Node}
    (kindOf : Json → Except DocumentFault Kind)
    (object : ∀ ms, decode (.object ms) = ofParts kindOf (.inr (View.ofMembers ms)))
    (strings : ∀ s, kindOf (.string s) = Kind.ofName s) (n m : Node) :
    (∃ j, n.toJson.reread = some j ∧ decode j = .ok m) ↔
      Json.FieldsYield n.fields (ofMembers n.kind) m := by
  simp only [Json.FieldsYield, toJson_eq, Json.reread, Option.map_eq_some_iff,
    Json.rereadMembers_cons_eq_some_iff]
  constructor
  · rintro ⟨j, ⟨ms', ⟨tag, ms, hTag, hms, rfl⟩, rfl⟩, decoded⟩
    cases hTag
    have untagged := Json.names_of_reread hms ▸ untagged_fields n
    rw [object, ofParts_tagged kindOf strings n.kind untagged] at decoded
    exact ⟨ms, hms, decoded⟩
  · rintro ⟨ms, hms, decoded⟩
    have untagged := Json.names_of_reread hms ▸ untagged_fields n
    refine ⟨_, ⟨_, ⟨_, ms, rfl, hms, rfl⟩, rfl⟩, ?_⟩
    rw [object, ofParts_tagged kindOf strings n.kind untagged]
    exact decoded

theorem yields_node_iff_fields (n m : Node) :
    n.toJson.Yields View.node m ↔ Json.FieldsYield n.fields (ofMembers n.kind) m :=
  reread_toJson_iff Kind.ofInnerTag (fun ms => by rw [View.of]) (fun _ => rfl) n m

theorem yields_nodes {args ms : List Node}
    (ih : ∀ n ∈ args, ∀ m, n.toJson.Yields View.node m ↔ n.reread = some m) :
    (Json.array (toJsons args)).Yields View.nodes ms ↔ rereadAll args = some ms := by
  have items : (∃ js, Json.rereadItems (toJsons args) = some js ∧
      (View.ofList js).mapM View.node = .ok ms) ↔ rereadAll args = some ms := by
    induction args generalizing ms with
    | nil =>
      constructor
      · rintro ⟨js, hjs, decoded⟩
        cases hjs
        cases decoded
        rfl
      · intro h
        cases h
        exact ⟨[], rfl, rfl⟩
    | cons n ns rest =>
      obtain ⟨first, ih⟩ := List.forall_mem_cons.mp ih
      simp only [toJsons, Json.rereadItems, rereadAll, Option.bind_eq_bind, Option.bind_eq_some_iff,
        Option.map_eq_some_iff, Option.some.injEq]
      constructor
      · rintro ⟨js, ⟨j, hj, js', hjs, rfl⟩, decoded⟩
        rw [View.ofList, List.mapM_cons] at decoded
        obtain ⟨m, hm, decoded⟩ := bind_eq_ok_iff.mp decoded
        obtain ⟨ms', hms, decoded⟩ := bind_eq_ok_iff.mp decoded
        cases decoded
        exact ⟨m, (first m).mp ⟨j, hj, hm⟩, ms', (rest ih).mp ⟨js', hjs, hms⟩, rfl⟩
      · rintro ⟨m, hm, ms', hms, rfl⟩
        obtain ⟨j, hj, hm⟩ := (first m).mpr hm
        obtain ⟨js, hjs, hms⟩ := (rest ih).mpr hms
        refine ⟨j :: js, ⟨j, hj, js, hjs, rfl⟩, ?_⟩
        rw [View.ofList, List.mapM_cons]
        exact bind_eq_ok_iff.mpr ⟨m, hm, bind_eq_ok_iff.mpr ⟨ms', hms, rfl⟩⟩
  rw [← items]
  simp only [Json.Yields, Json.reread, Option.map_eq_some_iff]
  constructor
  · rintro ⟨j, ⟨js, hjs, rfl⟩, decoded⟩
    rw [View.of] at decoded
    exact ⟨js, hjs, decoded⟩
  · rintro ⟨js, hjs, decoded⟩
    refine ⟨.array js, ⟨js, hjs, rfl⟩, ?_⟩
    rw [View.of]
    exact decoded

theorem yields_condition {symbol : String} {left right : Json} {c : Condition} :
    (Json.object [("operator", .string symbol), ("left", left), ("right", right)]).Yields
        View.condition c ↔
      ∃ l r, left.Yields View.node l ∧ right.Yields View.node r ∧ ⟨symbol, l, r⟩ = c := by
  have members : (Json.object [("operator", .string symbol), ("left", left),
      ("right", right)]).Yields View.condition c ↔ Json.FieldsYield
        [("operator", .string symbol), ("left", left), ("right", right)] Condition.ofMembers c := by
    simp only [Json.Yields, Json.FieldsYield, Json.reread, Option.map_eq_some_iff]
    constructor
    · rintro ⟨j, ⟨ms, hms, rfl⟩, decoded⟩
      rw [View.of] at decoded
      exact ⟨ms, hms, decoded⟩
    · rintro ⟨ms, hms, decoded⟩
      refine ⟨.object ms, ⟨ms, hms, rfl⟩, ?_⟩
      rw [View.of]
      exact decoded
  simp only [members, Json.fieldsYield_cons, Json.fieldsYield_nil, Json.reread, Option.some.injEq,
    exists_eq_left', ofMembers_condition]
  constructor
  · rintro ⟨left', hleft, right', hright, l, r, hl, hr, rfl⟩
    exact ⟨l, r, ⟨left', hleft, hl⟩, ⟨right', hright, hr⟩, rfl⟩
  · rintro ⟨l, r, ⟨left', hleft, hl⟩, ⟨right', hright, hr⟩, rfl⟩
    exact ⟨left', hleft, right', hright, l, r, hl, hr, rfl⟩

theorem fieldsYield_conditional {condition trueValue falseValue : Json} {n : Node} :
    Json.FieldsYield [("condition", condition), ("trueValue", trueValue),
        ("falseValue", falseValue)] (ofMembers .conditional) n ↔
      ∃ c t f, condition.Yields View.condition c ∧ trueValue.Yields View.node t ∧
        falseValue.Yields View.node f ∧ .conditional c.operator c.left c.right t f = n := by
  simp only [Json.fieldsYield_cons, Json.fieldsYield_nil, ofMembers_conditional]
  constructor
  · rintro ⟨jc, hjc, jt, hjt, jf, hjf, c, t, f, hc, ht, hf, rfl⟩
    exact ⟨c, t, f, ⟨jc, hjc, hc⟩, ⟨jt, hjt, ht⟩, ⟨jf, hjf, hf⟩, rfl⟩
  · rintro ⟨c, t, f, ⟨jc, hjc, hc⟩, ⟨jt, hjt, ht⟩, ⟨jf, hjf, hf⟩, rfl⟩
    exact ⟨jc, hjc, jt, hjt, jf, hjf, c, t, f, hc, ht, hf, rfl⟩

theorem fieldsYield_operator {list : Option (List String)} {shared : Option String} {args : Json}
    {n : Node} :
    Json.FieldsYield (optionalMember "operators" strings list ++
        optionalMember "operator" .string shared ++ [("args", args)]) (ofMembers .operator) n ↔
      ∃ ns, args.Yields View.nodes ns ∧ .operator list shared ns = n := by
  have members : Json.FieldsYield (optionalMember "operators" strings list ++
      optionalMember "operator" .string shared ++ [("args", args)]) (ofMembers .operator) n ↔
      ∃ j, args.reread = some j ∧ ofMembers .operator (View.ofMembers
        (optionalMember "operators" strings list ++ optionalMember "operator" .string shared) ++
          [("args", View.of j)]) = .ok n := by
    cases list <;> cases shared <;>
      simp [optionalMember, Json.fieldsYield_cons, Json.fieldsYield_nil, Json.reread,
        Json.reread_strings, View.ofMembers]
  simp only [members, ofMembers_operator (isOptional_optionalMember _ _ list)
    (isOptional_optionalMember _ _ shared), map_eq_ok_iff]
  constructor
  · rintro ⟨j, hj, ns, hns, rfl⟩
    exact ⟨ns, ⟨j, hj, hns⟩, rfl⟩
  · rintro ⟨ns, ⟨j, hj, hns⟩, rfl⟩
    exact ⟨j, hj, ns, hns, rfl⟩

theorem fieldsYield_function {name : String} {args : Json} {n : Node} :
    Json.FieldsYield [("name", .string name), ("args", args)] (ofMembers .function) n ↔
      ∃ ns, args.Yields View.nodes ns ∧ .function name ns = n := by
  simp only [Json.fieldsYield_cons, Json.fieldsYield_nil, Json.reread, Option.some.injEq,
    exists_eq_left', ofMembers_function, map_eq_ok_iff]
  constructor
  · rintro ⟨j, hj, ns, hns, rfl⟩
    exact ⟨ns, ⟨j, hj, hns⟩, rfl⟩
  · rintro ⟨ns, ⟨j, hj, hns⟩, rfl⟩
    exact ⟨j, hj, ns, hns, rfl⟩

/-- The document of a node, written and read, decodes to the node with every number as its text
reads. -/
theorem yields_node (n m : Node) : n.toJson.Yields View.node m ↔ n.reread = some m := by
  induction n using induction generalizing m with
  | cellValue value =>
    rw [yields_node_iff_fields]
    simp [fields, kind, Json.fieldsYield_cons, Json.fieldsYield_nil, Json.reread,
      ofMembers_cellValue, View.text, View.json_of, Except.map, reread]
  | number value =>
    rw [yields_node_iff_fields]
    simp only [fields, kind, Json.fieldsYield_cons, Json.fieldsYield_nil, ofMembers_number,
      map_eq_ok_iff, reread, Option.map_eq_some_iff, ← Json.yields_number]
    constructor
    · rintro ⟨j, hj, y, hy, rfl⟩
      exact ⟨y, ⟨j, hj, hy⟩, rfl⟩
    · rintro ⟨y, ⟨j, hj, hy⟩, rfl⟩
      exact ⟨j, hj, y, hy, rfl⟩
  | textbox value =>
    rw [yields_node_iff_fields]
    simp [fields, kind, Json.fieldsYield_cons, Json.fieldsYield_nil, Json.reread,
      ofMembers_textbox, View.text, View.json_of, Except.map, reread]
  | operator list shared args ih =>
    rw [yields_node_iff_fields, fields, kind, fieldsYield_operator, reread, Option.map_eq_some_iff]
    simp only [yields_nodes ih]
  | conditional symbol l r t f ihl ihr iht ihf =>
    rw [yields_node_iff_fields, fields, kind, fieldsYield_conditional]
    simp only [yields_condition, ihl, ihr, iht, ihf, reread, Option.bind_eq_bind,
      Option.bind_eq_some_iff, Option.some.injEq]
    constructor
    · rintro ⟨c, t', f', ⟨l', r', hl, hr, rfl⟩, ht, hf, rfl⟩
      exact ⟨l', hl, r', hr, t', ht, f', hf, rfl⟩
    · rintro ⟨l', hl, r', hr, t', ht, f', hf, rfl⟩
      exact ⟨⟨symbol, l', r'⟩, t', f', ⟨l', r', hl, hr, rfl⟩, ht, hf, rfl⟩
  | function name args ih =>
    rw [yields_node_iff_fields, fields, kind, fieldsYield_function, reread, Option.map_eq_some_iff]
    simp only [yields_nodes ih]

theorem ofJson_reread (n m : Node) :
    (∃ j, n.toJson.reread = some j ∧ ofJson j = .ok m) ↔ n.reread = some m := by
  rw [← yields_node, yields_node_iff_fields]
  exact reread_toJson_iff Kind.ofTag (fun _ => rfl) (fun _ => rfl) n m

end Node

namespace Formula

mutual

/-- How many arrays and objects nest in the document of a tree. -/
def documentDepth : Formula → Nat
  | .chain operands _ => 2 + deepest operands
  | .conditional _ left right whenTrue whenFalse =>
    max (2 + max left.documentDepth right.documentDepth)
      (1 + max whenTrue.documentDepth whenFalse.documentDepth)
  | .call _ arguments => 2 + deepest arguments
  | _ => 1

def deepest : List Formula → Nat
  | [] => 0
  | x :: xs => max x.documentDepth (deepest xs)

end

theorem depthItems_ofFormulas {fs : List Formula}
    (ih : ∀ f ∈ fs, f.toJson.depth = f.documentDepth) :
    Json.depthItems (Node.toJsons (Node.ofFormulas fs)) = deepest fs := by
  induction fs with
  | nil => rfl
  | cons f fs rest =>
    obtain ⟨first, ih⟩ := List.forall_mem_cons.mp ih
    have first : (Node.ofFormula f).toJson.depth = f.documentDepth := first
    rw [Node.ofFormulas, Node.toJsons, Json.depthItems, first, rest ih, deepest]

theorem depth_strings (ss : List String) : (Node.strings ss).depth = 1 := by
  have flat : Json.depthItems (ss.map .string) = 0 := by
    induction ss with
    | nil => rfl
    | cons s ss ih =>
      have leaf : (Json.string s).depth = 0 := rfl
      rw [List.map_cons, Json.depthItems, ih, leaf, Nat.max_self]
  rw [Node.strings, Json.depth, flat]

theorem depth_toJson (f : Formula) : f.toJson.depth = f.documentDepth := by
  rw [toJson]
  induction f using induction with
  | cell name => rfl
  | number value => rfl
  | text value => rfl
  | chain operands operators ih =>
    have args := depthItems_ofFormulas ih
    cases operators with
    | perPair list =>
      simp only [Node.ofFormula, Node.toJson, Node.optionalMember, List.cons_append,
        List.nil_append, Json.depth, Json.depthMembers, depth_strings, args, documentDepth,
        Nat.zero_max, Nat.max_zero]
      omega
    | shared op =>
      simp only [Node.ofFormula, Node.toJson, Node.optionalMember, List.cons_append,
        List.nil_append, Json.depth, Json.depthMembers, args, documentDepth, Nat.zero_max,
        Nat.max_zero]
      omega
  | conditional comparator l r t f ihl ihr iht ihf =>
    simp only [Node.ofFormula, Node.toJson, Json.depth, Json.depthMembers, ihl, ihr, iht, ihf,
      documentDepth, Nat.zero_max, Nat.max_zero]
    omega
  | call name arguments ih =>
    simp only [Node.ofFormula, Node.toJson, Json.depth, Json.depthMembers,
      depthItems_ofFormulas ih, documentDepth, Nat.zero_max, Nat.max_zero]
    omega

/-- Each of the two documents is a text in a style. -/
theorem toDocument_eq (f : Formula) :
    f.toDocument = String.ofList (f.toJson.styled .compact 0) := by
  rw [toDocument, Json.toText, Json.compact_eq_styled _ 0]

theorem toIndentedDocument_eq (f : Formula) :
    f.toIndentedDocument = String.ofList (f.toJson.styled .indented 0) := by
  rw [toIndentedDocument, Json.toIndentedText, Json.indented_eq_styled]

theorem exists_style {f : Formula} {text : String}
    (document : text = f.toDocument ∨ text = f.toIndentedDocument) :
    ∃ s, text = String.ofList (f.toJson.styled s 0) := by
  rcases document with rfl | rfl
  · exact ⟨.compact, toDocument_eq f⟩
  · exact ⟨.indented, toIndentedDocument_eq f⟩

/-- What the documents of a tree give back, whatever the tree. -/
theorem ofDocument_eq_ok_iff_reread {f g : Formula} {text : String}
    (document : text = f.toDocument ∨ text = f.toIndentedDocument) :
    ofDocument text = .ok g ↔ f.documentDepth ≤ Json.depthLimit ∧
      ∃ m, (Node.ofFormula f).reread = some m ∧ m.toFormula = .ok g := by
  obtain ⟨s, rfl⟩ := exists_style document
  rw [ofDocument_eq_ok_iff, Json.readAll_styled, Json.readBack, depth_toJson]
  by_cases fits : f.documentDepth ≤ Json.depthLimit
  · simp only [fits, if_true, true_and, ofJson_eq_ok_iff, ← Node.ofJson_reread]
    constructor
    · rintro ⟨j, read, m, decoded, built⟩
      cases reread : f.toJson.reread with
      | none =>
        rw [reread] at read
        cases read
      | some j' =>
        rw [reread] at read
        cases read
        exact ⟨m, ⟨j, reread, decoded⟩, built⟩
    · rintro ⟨m, ⟨j, reread, decoded⟩, built⟩
      have reread : f.toJson.reread = some j := reread
      exact ⟨j, by rw [reread]; rfl, m, decoded, built⟩
  · simp [fits]

/-- The text of the number, if it is one and finite, reads as that number. -/
def KeptNumber : Formula → Prop
  | .number value => value.isFinite = true → value.reread = some value
  | _ => True

/-- The text of every finite number in the tree reads as that number. -/
def KeepsNumbers (f : Formula) : Prop :=
  f.Every KeptNumber

theorem rereadAll_ofFormulas {fs : List Formula} (kept : EveryOf KeptNumber fs)
    (ih : ∀ f ∈ fs, f.KeepsNumbers → ∀ m,
      (Node.ofFormula f).reread = some m ↔ f.Finite ∧ Node.ofFormula f = m) (ms : List Node) :
    Node.rereadAll (Node.ofFormulas fs) = some ms ↔
      EveryOf FiniteNumber fs ∧ Node.ofFormulas fs = ms := by
  induction fs generalizing ms with
  | nil => simp [Node.ofFormulas, Node.rereadAll, EveryOf]
  | cons f fs rest =>
    obtain ⟨first, ih⟩ := List.forall_mem_cons.mp ih
    simp only [Node.ofFormulas, Node.rereadAll, Option.bind_eq_bind, Option.bind_eq_some_iff,
      first kept.1, rest kept.2 ih, Option.some.injEq, EveryOf]
    constructor
    · rintro ⟨m, ⟨finite, rfl⟩, ms, ⟨finite', rfl⟩, rfl⟩
      exact ⟨⟨finite, finite'⟩, rfl⟩
    · rintro ⟨⟨finite, finite'⟩, rfl⟩
      exact ⟨_, ⟨finite, rfl⟩, _, ⟨finite', rfl⟩, rfl⟩

/-- A tree that keeps its numbers is read as it was written if these are finite. -/
theorem reread_ofFormula {f : Formula} (kept : f.KeepsNumbers) (m : Node) :
    (Node.ofFormula f).reread = some m ↔ f.Finite ∧ Node.ofFormula f = m := by
  induction f using induction generalizing m with
  | cell name => simp [Node.ofFormula, Node.reread, Finite, Every, FiniteNumber]
  | text value => simp [Node.ofFormula, Node.reread, Finite, Every, FiniteNumber]
  | number value =>
    simp only [Node.ofFormula, Node.reread, Finite, Every, FiniteNumber]
    cases finite : value.isFinite with
    | true =>
      have same : value.reread = some value := kept finite
      simp [same]
    | false => simp [Binary64.reread_of_not_isFinite finite]
  | chain operands operators ih =>
    have args := rereadAll_ofFormulas kept.2 ih
    cases operators <;>
      simp [Node.ofFormula, Node.reread, Finite, Every, FiniteNumber, args, and_assoc]
  | conditional comparator l r t f ihl ihr iht ihf =>
    obtain ⟨-, kl, kr, kt, kf⟩ := kept
    simp only [Node.ofFormula, Node.reread, Option.bind_eq_bind, Option.bind_eq_some_iff, ihl kl,
      ihr kr, iht kt, ihf kf, Option.some.injEq, Finite, Every, FiniteNumber, true_and]
    constructor
    · rintro ⟨_, ⟨fl, rfl⟩, _, ⟨fr, rfl⟩, _, ⟨ft, rfl⟩, _, ⟨ff, rfl⟩, rfl⟩
      exact ⟨⟨fl, fr, ft, ff⟩, rfl⟩
    · rintro ⟨⟨fl, fr, ft, ff⟩, rfl⟩
      exact ⟨_, ⟨fl, rfl⟩, _, ⟨fr, rfl⟩, _, ⟨ft, rfl⟩, _, ⟨ff, rfl⟩, rfl⟩
  | call name arguments ih =>
    simp [Node.ofFormula, Node.reread, Finite, Every, FiniteNumber,
      rereadAll_ofFormulas kept.2 ih, and_assoc]

/-- A tree whose finite numbers are kept can be read from either of its documents exactly if it is
valid and nests no deeper than a document may, and then it is read as it was written. -/
theorem ofDocument_document {f : Formula} (wellFormed : f.WellFormed) (kept : f.KeepsNumbers)
    {text : String} (document : text = f.toDocument ∨ text = f.toIndentedDocument) :
    ((∃ g, ofDocument text = .ok g) ↔ f.validate = .ok () ∧ f.documentDepth ≤ 127) ∧
      ∀ g, ofDocument text = .ok g → g = f := by
  have read : ∀ g, ofDocument text = .ok g ↔
      (f.validate = .ok () ∧ f.documentDepth ≤ 127) ∧ g = f := by
    intro g
    rw [ofDocument_eq_ok_iff_reread document, validate_eq_ok_iff]
    constructor
    · rintro ⟨fits, m, reread, built⟩
      obtain ⟨finite, rfl⟩ := (reread_ofFormula kept m).mp reread
      obtain ⟨⟨-, named⟩, rfl⟩ := Node.toFormula_ofFormula_eq_ok_iff.mp built
      exact ⟨⟨⟨named, finite⟩, fits⟩, rfl⟩
    · rintro ⟨⟨⟨named, finite⟩, fits⟩, rfl⟩
      exact ⟨fits, Node.ofFormula g, (reread_ofFormula kept _).mpr ⟨finite, rfl⟩,
        Node.toFormula_ofFormula_eq_ok_iff.mpr ⟨⟨wellFormed, named⟩, rfl⟩⟩
  constructor
  · constructor
    · rintro ⟨g, h⟩
      exact ((read g).mp h).1
    · intro h
      exact ⟨f, (read f).mpr ⟨h, rfl⟩⟩
  · intro g h
    exact ((read g).mp h).2

/-- `IF(A1>1.5,LOOKUP("a\"\b"),(B1+-0+""))`, its sum with a shared operator. -/
def quotedSum : Formula :=
  .conditional .greaterThan (.cell "A1") (.number (.ofRatio false 3 2))
    (.lookup [.text "a\"\\b"])
    (.chain [.cell "B1", .number (.zero true), .text ""] (.shared .add))

theorem ofDocument_document_quotedSum : quotedSum.WellFormed ∧ quotedSum.KeepsNumbers ∧
    ofDocument quotedSum.toIndentedDocument = .ok quotedSum := by
  have wellFormed : quotedSum.WellFormed :=
    ⟨trivial, trivial, ⟨trivial, trivial⟩, Nat.le_succ 2, trivial, trivial, trivial, trivial⟩
  have half : KeptNumber (.number (.ofRatio false 3 2)) := fun _ => by decide +kernel
  have zero : KeptNumber (.number (.zero true)) := fun _ => by decide +kernel
  have kept : quotedSum.KeepsNumbers :=
    ⟨trivial, trivial, half, ⟨trivial, trivial, trivial⟩, trivial, trivial, zero, trivial, trivial⟩
  obtain ⟨readable, same⟩ := ofDocument_document wellFormed kept (.inr rfl)
  obtain ⟨g, read⟩ := readable.mpr ⟨rfl, by decide⟩
  obtain rfl := same g read
  exact ⟨wellFormed, kept, read⟩

end Formula

end CellFormula
