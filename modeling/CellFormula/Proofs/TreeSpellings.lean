import CellFormula.Proofs.FieldOrder
import CellFormula.Proofs.JsonGrammar

/-!
# Spellings of a tree

A tree has many documents: each of its nodes is an object, its members in any order and beside
others, or an array; the operators of a chain may stand beside a field that does not count; equality
has two symbols; and what is empty may be left out. All of them are loaded as the same tree.
-/

namespace CellFormula

open Reading (bind_eq_ok_iff)

namespace Json

/-- The value is a node with the fields: an object with the tag and the fields among its members, or
an array of the tag and the fields, in which only the last ones may be missing. -/
def IsNode (kind : Kind) (fields : List (String × Json)) : Json → Prop
  | .object members =>
    (members.filter fun m => ("type" :: kind.fieldNames).contains m.1).Perm
      (("type", .string kind.name) :: fields)
  | .array items =>
    items = .string kind.name :: fields.map Prod.snd ∧ fields.map Prod.fst <+: kind.fieldNames
  | _ => False

/-- The value is a condition: an object with its three fields among the members, or an array. -/
def IsCondition (condition : Json) (symbol : String) (left right : Json) : Prop :=
  match condition with
  | .object members =>
    (members.filter fun m => Condition.fieldNames.contains m.1).Perm
      [("operator", .string symbol), ("left", left), ("right", right)]
  | .array items => items = [.string symbol, left, right]
  | _ => False

end Json

namespace Formula

/-- The symbols of a comparator; equality has two. -/
def SymbolOf (comparator : Comparator) (symbol : String) : Prop :=
  symbol = comparator.symbol ∨ comparator = .equal ∧ symbol = "=="

/-- The two fields that give the operators of a chain. What stands beside a list does not count, and
a shared operator counts beside an empty list. -/
inductive OperatorFields : Operators → Option (List String) → Option String → Prop where
  | perPair (ops : List Operator) (shared : Option String) :
    OperatorFields (.perPair ops) (some (Node.symbols ops)) shared
  | shared {list : Option (List String)} (op : Operator) (h : list = none ∨ list = some []) :
    OperatorFields (.shared op) list (some op.symbol.toString)

mutual

/-- The values that spell a tree. -/
def SpelledBy : Formula → Json → Prop
  | .cell name, j => j.IsNode .cellValue [("value", .string name)]
  | .number x, j => ∃ n : JsonNumber, n.toBinary64.same x = true ∧
    j.IsNode .number [("value", .number n)]
  | .text s, j => j.IsNode .textbox [("value", .string s)]
  | .chain operands operators, j => ∃ list shared ms ms' args,
    OperatorFields operators list shared ∧ Node.IsOptional "operators" Node.strings list ms ∧
      Node.IsOptional "operator" .string shared ms' ∧ SpelledByAll operands args ∧
        j.IsNode .operator (ms ++ ms' ++ [("args", .array args)])
  | .conditional comparator left right whenTrue whenFalse, j => ∃ symbol l r condition t f,
    SymbolOf comparator symbol ∧ left.SpelledBy l ∧ right.SpelledBy r ∧
      condition.IsCondition symbol l r ∧ whenTrue.SpelledBy t ∧ whenFalse.SpelledBy f ∧
        j.IsNode .conditional [("condition", condition), ("trueValue", t), ("falseValue", f)]
  | .call name arguments, j => ∃ args, SpelledByAll arguments args ∧
    (j.IsNode .function [("name", .string name), ("args", .array args)] ∨
      args = [] ∧ j.IsNode .function [("name", .string name)])

def SpelledByAll : List Formula → List Json → Prop
  | [], js => js = []
  | f :: fs, js => ∃ first rest, f.SpelledBy first ∧ SpelledByAll fs rest ∧ js = first :: rest

end

end Formula

theorem View.among_ofMembers (names : List String) (ms : List (String × Json)) :
    Members.among names (ofMembers ms) = ofMembers (ms.filter fun m => names.contains m.1) := by
  rw [ofMembers_eq_map, ofMembers_eq_map, Members.among, List.filter_map]
  rfl

theorem View.perm_ofMembers {ms ms' : List (String × Json)} (h : ms.Perm ms') :
    (ofMembers ms).Perm (ofMembers ms') := by
  rw [ofMembers_eq_map, ofMembers_eq_map]
  exact h.map _

theorem Members.among_among {names names' : List String} (h : ∀ n ∈ names, n ∈ names')
    (members : Members) : among names (among names' members) = among names members := by
  simp only [among, List.filter_filter]
  apply List.filter_congr
  intro m _
  by_cases inner : m.1 ∈ names
  · simp [inner, h m.1 inner]
  · simp [inner]

theorem Members.perm_among {members members' : Members} (h : members.Perm members')
    (names : List String) : (among names members).Perm (among names members') :=
  h.filter _

theorem Members.among_eq_nil {names : List String} {members : Members}
    (h : ∀ m ∈ members, m.1 ∉ names) : among names members = [] := by
  simpa [among] using h

namespace Node

variable {kind : Kind} {n : Node}

theorem ofParts_of_perm {members fields : Members} {tag : View}
    (perm : (Members.among ("type" :: kind.fieldNames) members).Perm (("type", tag) :: fields))
    (own : ∀ m ∈ fields, m.1 ∈ kind.fieldNames) (decoded : ofMembers kind fields = .ok n)
    {kindOf : Json → Except DocumentFault Kind} (kindOf_tag : kindOf tag.json = .ok kind) :
    ofParts kindOf (.inr members) = .ok n := by
  have untagged := kind.type_not_mem_fieldNames
  have foreign : ∀ m ∈ fields, m.1 ∉ ["type"] := by
    intro m hm same
    rw [List.mem_singleton] at same
    exact untagged (same ▸ own m hm)
  have tagged : Members.among ["type"] members = [("type", tag)] := by
    have split := Members.perm_among perm ["type"]
    rw [Members.among_among (by simp),
      Members.among_cons_of_mem (m := ("type", tag)) List.mem_cons_self,
      Members.among_eq_nil foreign] at split
    exact List.perm_singleton.mp split
  have others := Members.perm_among perm kind.fieldNames
  rw [Members.among_among fun n hn => List.mem_cons_of_mem _ hn,
    Members.among_cons_of_not_mem (m := ("type", tag)) untagged] at others
  obtain ⟨rest, kinded, same⟩ := Members.exists_kind tagged kindOf_tag
  rw [← same kind.fieldNames untagged] at others
  exact bind_eq_ok_iff.mpr ⟨(kind, rest), kinded, ofMembers_of_perm others decoded⟩

/-- The value decodes to the node, inside a document and as a whole. -/
def DecodedFrom (n : Node) (j : Json) : Prop :=
  (View.of j).node = .ok n ∧ ofJson j = .ok n

/-- A node decodes from its fields in each of its forms. -/
theorem decodedFrom_of_isNode {fields : List (String × Json)} {j : Json} (h : j.IsNode kind fields)
    (own : ∀ m ∈ fields, m.1 ∈ kind.fieldNames)
    (decoded : ofMembers kind (View.ofMembers fields) = .ok n) : n.DecodedFrom j := by
  have kindOf_inner : Kind.ofInnerTag (View.of (.string kind.name)).json = .ok kind := by
    rw [View.json_of]
    exact ofName_name kind
  have kindOf_outer : Kind.ofTag (View.of (.string kind.name)).json = .ok kind := by
    rw [View.json_of]
    exact ofName_name kind
  cases j with
  | object members =>
    have perm := View.perm_ofMembers h
    rw [← View.among_ofMembers] at perm
    have own : ∀ m ∈ View.ofMembers fields, m.1 ∈ kind.fieldNames := by
      rw [View.ofMembers_eq_map]
      intro m hm
      obtain ⟨m', hm', rfl⟩ := List.mem_map.mp hm
      exact own m' hm'
    rw [DecodedFrom, View.of]
    exact ⟨ofParts_of_perm perm own decoded kindOf_inner,
      ofParts_of_perm perm own decoded kindOf_outer⟩
  | array items =>
    obtain ⟨rfl, ordered⟩ := h
    have names : (View.ofMembers fields).map Prod.fst <+: kind.fieldNames := by
      rw [View.names_ofMembers]
      exact ordered
    have items := ofItems_of_ofMembers names decoded
    have values : (View.ofMembers fields).map Prod.snd = View.ofList (fields.map Prod.snd) := by
      rw [View.ofMembers_eq_map, View.ofList_eq_map, List.map_map, List.map_map]
      rfl
    rw [values] at items
    rw [DecodedFrom, View.of]
    exact ⟨bind_eq_ok_iff.mpr ⟨kind, kindOf_inner, items⟩,
      bind_eq_ok_iff.mpr ⟨kind, kindOf_outer, items⟩⟩
  | _ => exact h.elim

theorem condition_of_isCondition {symbol : String} {left right j : Json} {l r : Node}
    (h : j.IsCondition symbol left right) (hl : (View.of left).node = .ok l)
    (hr : (View.of right).node = .ok r) : (View.of j).condition = .ok ⟨symbol, l, r⟩ := by
  have decoded : Condition.ofMembers (View.ofMembers
      [("operator", .string symbol), ("left", left), ("right", right)]) = .ok ⟨symbol, l, r⟩ :=
    ofMembers_condition.mpr ⟨l, r, hl, hr, rfl⟩
  cases j with
  | object members =>
    have perm := Members.perm_among (View.perm_ofMembers h) Condition.fieldNames
    rw [← View.among_ofMembers, Members.among_among fun n hn => hn] at perm
    rw [View.of]
    exact Condition.ofMembers_of_perm perm decoded
  | array items =>
    obtain rfl : items = [.string symbol, left, right] := h
    rw [View.of]
    exact Condition.ofItems_of_ofMembers (List.prefix_refl _) decoded
  | _ => exact h.elim

theorem decodedFrom_operator {list : Option (List String)} {shared : Option String}
    {ms ms' : List (String × Json)} {args : Json} {ns : List Node} {j : Json}
    (hms : IsOptional "operators" strings list ms)
    (hms' : IsOptional "operator" .string shared ms') (nodes : (View.of args).nodes = .ok ns)
    (h : j.IsNode .operator (ms ++ ms' ++ [("args", args)])) :
    (Node.operator list shared ns).DecodedFrom j := by
  apply decodedFrom_of_isNode h
  · intro m hm
    rcases List.mem_append.mp hm with hm | hm
    · rcases List.mem_append.mp hm with hm | hm
      · simp [hms.name_eq m hm, Kind.fieldNames]
      · simp [hms'.name_eq m hm, Kind.fieldNames]
    · simp [List.mem_singleton.mp hm, Kind.fieldNames]
  · rw [View.ofMembers_append]
    exact (ofMembers_operator hms hms' _).trans (by rw [nodes]; rfl)

theorem decodedFrom_conditional {symbol : String} {l r t f condition j : Json}
    {left right trueValue falseValue : Node} (hl : left.DecodedFrom l) (hr : right.DecodedFrom r)
    (ht : trueValue.DecodedFrom t) (hf : falseValue.DecodedFrom f)
    (hc : condition.IsCondition symbol l r)
    (h : j.IsNode .conditional [("condition", condition), ("trueValue", t), ("falseValue", f)]) :
    (Node.conditional symbol left right trueValue falseValue).DecodedFrom j := by
  apply decodedFrom_of_isNode h (by simp [Kind.fieldNames])
  exact ofMembers_conditional.mpr ⟨_, trueValue, falseValue,
    condition_of_isCondition hc hl.1 hr.1, ht.1, hf.1, rfl⟩

/-- No arguments are the same as an empty list of them. -/
theorem decodedFrom_function {name : String} {args : List Json} {ns : List Node} {j : Json}
    (nodes : (View.of (.array args)).nodes = .ok ns)
    (h : j.IsNode .function [("name", .string name), ("args", .array args)] ∨
      args = [] ∧ j.IsNode .function [("name", .string name)]) :
    (Node.function name ns).DecodedFrom j := by
  rcases h with h | ⟨rfl, h⟩
  · apply decodedFrom_of_isNode h (by simp [Kind.fieldNames])
    exact (ofMembers_function name _).trans (by rw [nodes]; rfl)
  · obtain rfl : ns = [] := by
      cases nodes
      rfl
    exact decodedFrom_of_isNode h (by simp [Kind.fieldNames]) rfl

end Node

namespace Formula

theorem SymbolOf.ofSymbol {comparator : Comparator} {symbol : String}
    (h : SymbolOf comparator symbol) : Comparator.ofSymbol symbol = .ok comparator := by
  rcases h with rfl | ⟨rfl, rfl⟩
  · exact comparator.ofSymbol_symbol
  · rfl

theorem OperatorFields.ofSymbols {operators : Operators} {list : Option (List String)}
    {shared : Option String} (h : OperatorFields operators list shared) {operands : List Formula}
    (fits : operators.Fits operands.length) :
    Chain.ofSymbols operands list shared = .ok ⟨operands, operators, fits⟩ := by
  cases h with
  | perPair ops shared => exact Chain.ofSymbols_perPair fits
  | shared op h =>
    rcases h with rfl | rfl
    · exact Chain.ofSymbols_shared fits
    · exact Chain.ofSymbols_shared fits

/-- The value decodes to a node that builds the tree. -/
def DecodedFrom (t : Formula) (j : Json) : Prop :=
  ∃ (n : Node) (g : Formula), n.DecodedFrom j ∧ n.toFormula = .ok g ∧ g.same t = true

theorem decodedFrom_all {ts : List Formula} {js : List Json}
    (ih : ∀ t ∈ ts, ∀ j, t.SpelledBy j → t.DecodedFrom j) (h : SpelledByAll ts js) :
    ∃ ns gs, (View.of (.array js)).nodes = .ok ns ∧ Node.toFormulas ns = .ok gs ∧
      sameListBy Binary64.same gs ts = true := by
  have items : ∃ ns gs, (View.ofList js).mapM View.node = .ok ns ∧ Node.toFormulas ns = .ok gs ∧
      sameListBy Binary64.same gs ts = true := by
    induction ts generalizing js with
    | nil =>
      obtain rfl : js = [] := h
      exact ⟨[], [], rfl, rfl, rfl⟩
    | cons t ts rest =>
      obtain ⟨first, ih⟩ := List.forall_mem_cons.mp ih
      obtain ⟨j, js, hj, hjs, rfl⟩ := h
      obtain ⟨n, g, ⟨node, -⟩, built, same⟩ := first j hj
      obtain ⟨ns, gs, nodes, builts, sames⟩ := rest ih hjs
      refine ⟨n :: ns, g :: gs, ?_, ?_, ?_⟩
      · rw [View.ofList, List.mapM_cons, node, nodes]
        rfl
      · rw [Node.toFormulas, built, builts]
        rfl
      · rw [sameListBy, sames, Bool.and_true]
        exact same
  obtain ⟨ns, gs, nodes, built, same⟩ := items
  exact ⟨ns, gs, by rw [View.of]; exact nodes, built, same⟩

theorem length_of_sameListBy {eq : Binary64 → Binary64 → Bool} {fs gs : List Formula}
    (h : sameListBy eq fs gs = true) : fs.length = gs.length := by
  induction fs generalizing gs with
  | nil => cases gs with
    | nil => rfl
    | cons g gs => cases h
  | cons f fs ih => cases gs with
    | nil => cases h
    | cons g gs =>
      rw [sameListBy, Bool.and_eq_true] at h
      rw [List.length_cons, List.length_cons, ih h.2]

theorem decodedFrom_of_spelledBy {t : Formula} (wellFormed : t.WellFormed) (named : t.Named)
    {j : Json} (h : t.SpelledBy j) : t.DecodedFrom j := by
  induction t using induction generalizing j with
  | cell name =>
    have node : (Node.cellValue name).DecodedFrom j :=
      Node.decodedFrom_of_isNode h (by simp [Kind.fieldNames]) (Node.ofMembers_cellValue _)
    have ne : name ≠ "" := fun e => named (by rw [e])
    exact ⟨_, .cell name, node, if_neg fun e => ne (String.isEmpty_iff.mp e),
      by simp [same, sameBy]⟩
  | number x =>
    obtain ⟨n, equal, h⟩ := h
    have node : (Node.number n.toBinary64).DecodedFrom j :=
      Node.decodedFrom_of_isNode h (by simp [Kind.fieldNames]) (Node.ofMembers_number _)
    exact ⟨_, .number n.toBinary64, node, rfl, equal⟩
  | text s =>
    have node : (Node.textbox s).DecodedFrom j :=
      Node.decodedFrom_of_isNode h (by simp [Kind.fieldNames]) (Node.ofMembers_textbox _)
    exact ⟨_, .text s, node, rfl, by simp [same, sameBy]⟩
  | chain operands operators ih =>
    obtain ⟨fits, wellFormed⟩ := wellFormed
    have wellFormed := wellFormedList_iff.mp wellFormed
    have named := everyOf_iff.mp named.2
    obtain ⟨list, shared, ms, ms', args, given, hms, hms', hargs, h⟩ := h
    obtain ⟨ns, gs, nodes, built, equal⟩ := decodedFrom_all
      (fun x hx j => ih x hx (wellFormed x hx) (named x hx)) hargs
    have fits : operators.Fits gs.length := (length_of_sameListBy equal).symm ▸ fits
    refine ⟨_, .chain gs operators, Node.decodedFrom_operator hms hms' nodes h, ?_, ?_⟩
    · exact bind_eq_ok_iff.mpr ⟨gs, built, bind_eq_ok_iff.mpr ⟨_, given.ofSymbols fits, rfl⟩⟩
    · simp [same, sameBy, equal]
  | conditional comparator left right whenTrue whenFalse ihl ihr iht ihf =>
    obtain ⟨wl, wr, wt, wf⟩ := wellFormed
    obtain ⟨-, nl, nr, nt, nf⟩ := named
    obtain ⟨symbol, l, r, condition, t, f, spelled, hl, hr, hc, ht, hf, h⟩ := h
    obtain ⟨_, gl, nodel, builtl, samel⟩ := ihl wl nl hl
    obtain ⟨_, gr, noder, builtr, samer⟩ := ihr wr nr hr
    obtain ⟨_, gt, nodet, builtt, samet⟩ := iht wt nt ht
    obtain ⟨_, gf, nodef, builtf, samef⟩ := ihf wf nf hf
    refine ⟨_, .conditional comparator gl gr gt gf,
      Node.decodedFrom_conditional nodel noder nodet nodef hc h, ?_, ?_⟩
    · rw [Node.toFormula, spelled.ofSymbol, builtl, builtr, builtt, builtf]
      rfl
    · simp only [same] at samel samer samet samef
      simp [same, sameBy, samel, samer, samet, samef]
  | call name arguments ih =>
    have wellFormed := wellFormedList_iff.mp wellFormed
    have named := everyOf_iff.mp named.2
    obtain ⟨args, hargs, h⟩ := h
    obtain ⟨ns, gs, nodes, built, equal⟩ := decodedFrom_all
      (fun x hx j => ih x hx (wellFormed x hx) (named x hx)) hargs
    refine ⟨_, .call name gs, Node.decodedFrom_function nodes h, ?_, by simp [same, sameBy, equal]⟩
    rw [Node.toFormula, built]
    rfl

/-- Every text of every value that spells a tree is loaded as that tree. -/
theorem ofDocument_of_spelledBy {t : Formula} (wellFormed : t.WellFormed)
    (valid : t.validate = .ok ()) {j : Json} (spelled : t.SpelledBy j) (fits : j.depth ≤ 127)
    {text : String} (document : j.IsDocument text) :
    ∃ g, ofDocument text = .ok g ∧ g.same t = true := by
  obtain ⟨named, -⟩ := (validate_eq_ok_iff t).mp valid
  obtain ⟨n, g, ⟨-, decoded⟩, built, equal⟩ := decodedFrom_of_spelledBy wellFormed named spelled
  exact ⟨g, ofDocument_eq_ok_iff.mpr ⟨j, Json.readAll_of_isDocument document fits,
    ofJson_eq_ok_iff.mpr ⟨n, decoded, built⟩⟩, equal⟩

open Json

def scatteredSum : Formula :=
  .chain [.number (.ofNat 10), .call "NOW" []] (.shared .add)

/-- The members stand out of order beside a foreign one, the shared operator beside an empty list,
one operand is an array, and the other has no arguments. -/
def scatteredValue : Json :=
  .object [("args", .array [.array [.string "number", .number (.real (.ofNat 10))],
      .object [("name", .string "NOW"), ("type", .string "function")]]),
    ("note", .null), ("type", .string "operator"), ("operators", .array []),
    ("operator", .string "+")]

def scatteredText : String :=
  "\x7b\"args\":[[\"number\", 1E1],\x7b\"name\":\"\\u004eOW\",\"type\":\"function\"\x7d]," ++
    "\"note\":null,\"type\":\"operator\",\"operators\":[ ],\"operator\":\"+\"\x7d "

theorem spelledBy_scatteredValue : scatteredSum.SpelledBy scatteredValue := by
  have ten : (number (.ofNat 10)).SpelledBy
      (.array [.string "number", .number (.real (.ofNat 10))]) := ⟨_, by decide, rfl, by decide⟩
  have now : (call "NOW" []).SpelledBy
      (.object [("name", .string "NOW"), ("type", .string "function")]) :=
    ⟨[], rfl, .inr ⟨rfl, .swap ..⟩⟩
  refine ⟨some [], some "+", _, _, _, .shared .add (.inr rfl), rfl, rfl,
    ⟨_, _, ten, ⟨_, _, now, rfl, rfl⟩, rfl⟩, ?_⟩
  -- The tag moves before the arguments, then these behind the two fields of the operators.
  exact (List.Perm.swap ..).trans (.cons _ ((List.Perm.swap ..).trans (.cons _ (.swap ..))))

theorem isDocument_scatteredText : scatteredValue.IsDocument scatteredText := by
  have none : Blanks [] := by simp [Blanks]
  have blank : Blanks [' '] := by simp [Blanks, isBlank]
  have text (s : String) : HasText (.string s) (writeString s) := stringText_writeString s
  have member {k : String} {value : List Char → Prop} {cs : List Char} (h : value cs) :
      MemberText k value (writeString k ++ ':' :: cs) :=
    ⟨_, [], [], _, text k, none, none, h, rfl⟩
  have next {k : String} {v : Json} {cs : List Char} (h : v.HasText cs)
      {ms : List (String × Json)} {members : List Char} (hms : HasMoreMembers ms members) :
      HasMoreMembers ((k, v) :: ms) (',' :: (writeString k ++ ':' :: cs ++ members)) :=
    ⟨[], [], _, _, none, none, member h, hms, rfl⟩
  have digit : IsDigits ['1'] := ⟨by simp, by simp⟩
  have exponent : IsExponent ('E' :: ([] ++ ['1'])) := .upper (.inl rfl) digit
  have ten : HasText (.number (.real (.ofNat 10))) ['1', 'E', '1'] :=
    ⟨false, _, .whole digit exponent, rfl, rfl⟩
  have now : HasText (.string "NOW") "\"\\u004eOW\"".toList := by
    have unit : IsUnit 'N'.toNat "004e".toList := ⟨rfl, _, rfl, rfl⟩
    have escaped : CharText 'N' "\\u004e".toList := .unit unit
    have plain : List.Forall₂ CharText ['O', 'W'] [['O'], ['W']] := by
      refine .cons ?_ (.cons ?_ .nil) <;> exact .itself (by decide) (by decide) (by decide)
    exact ⟨_, .cons escaped plain, rfl⟩
  have first : HasText (.array [.string "number", .number (.real (.ofNat 10))]) _ :=
    ⟨[], _, _, none, text _, ⟨[], [' '], _, _, none, blank, ten, ⟨[], none, rfl⟩, rfl⟩, rfl⟩
  have second : HasText (.object [("name", .string "NOW"), ("type", .string "function")]) _ :=
    ⟨[], _, _, none, member now, next (text _) ⟨[], none, rfl⟩, rfl⟩
  have args : HasText (.array [_, _]) _ :=
    ⟨[], _, _, none, first, ⟨[], [], _, _, none, none, second, ⟨[], none, rfl⟩, rfl⟩, rfl⟩
  have operators : HasText (.array []) _ := ⟨[' '], blank, rfl⟩
  have whole : scatteredValue.HasText _ :=
    ⟨[], _, _, none, member args, next (v := .null) rfl (next (text _)
      (next operators (next (text _) ⟨[], none, rfl⟩))), rfl⟩
  exact ⟨[], _, [' '], none, whole, blank, by decide +kernel⟩

theorem ofDocument_of_spelledBy_scatteredText :
    scatteredSum.WellFormed ∧ scatteredSum.validate = .ok () ∧
      scatteredSum.SpelledBy scatteredValue ∧ scatteredValue.IsDocument scatteredText ∧
        ∃ g, ofDocument scatteredText = .ok g ∧ g.same scatteredSum = true := by
  have wellFormed : scatteredSum.WellFormed := ⟨Nat.le_refl 2, trivial, trivial, trivial⟩
  have spelled := spelledBy_scatteredValue
  have document := isDocument_scatteredText
  exact ⟨wellFormed, rfl, spelled, document,
    ofDocument_of_spelledBy wellFormed rfl spelled (by decide) document⟩

end Formula

end CellFormula
