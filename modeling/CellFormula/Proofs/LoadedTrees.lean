import CellFormula.Proofs.Decoding
import CellFormula.Proofs.NodeForms
import CellFormula.Proofs.ReadNumbers

/-!
# Loaded trees are valid

Building a tree checks its names, symbols and counts, but takes its numbers as they come. They are
finite all the same, since the reader makes no others and decoding only passes them on.
-/

namespace CellFormula

open Reading (bind_eq_ok_iff mapM_eq_ok_iff)

namespace Json

mutual

/-- Every number in the value is one that can be read. -/
def InRange : Json → Prop
  | .number n => n.InRange
  | .array items => InRangeItems items
  | .object members => InRangeMembers members
  | _ => True

def InRangeItems : List Json → Prop
  | [] => True
  | j :: js => j.InRange ∧ InRangeItems js

def InRangeMembers : List (String × Json) → Prop
  | [] => True
  | m :: ms => m.2.InRange ∧ InRangeMembers ms

end

theorem inRangeItems_iff {js : List Json} : InRangeItems js ↔ ∀ j ∈ js, j.InRange := by
  induction js with
  | nil => simp [InRangeItems]
  | cons j js ih => rw [InRangeItems, ih, List.forall_mem_cons]

theorem inRangeMembers_iff {ms : List (String × Json)} :
    InRangeMembers ms ↔ ∀ m ∈ ms, m.2.InRange := by
  induction ms with
  | nil => simp [InRangeMembers]
  | cons m ms ih => rw [InRangeMembers, ih, List.forall_mem_cons]

section

variable {ε α σ : Type}

theorem forall_of_readMoreItems {p : α → Prop} {item : Reader ε α}
    (h : ∀ {cs a rest}, item cs = .ok (a, rest) → p a) {left : Nat} {cs rest : List Char}
    {as : List α} (read : readMoreItems item left cs = .ok (as, rest)) : ∀ a ∈ as, p a := by
  induction left generalizing cs as with
  | zero => cases read
  | succ left ih =>
    rw [readMoreItems] at read
    split at read
    · cases read
    · cases read
      exact List.forall_mem_nil _
    · obtain ⟨⟨a, cs₁⟩, first, read⟩ := bind_eq_ok_iff.mp read
      obtain ⟨⟨as, cs₂⟩, others, read⟩ := bind_eq_ok_iff.mp read
      cases read
      exact List.forall_mem_cons.mpr ⟨h first, ih others⟩
    · cases read

theorem forall_of_readItems {p : α → Prop} {item : Reader ε α}
    (h : ∀ {cs a rest}, item cs = .ok (a, rest) → p a) {fuel : Nat} {cs rest : List Char}
    {as : List α} (read : readItems fuel item cs = .ok (as, rest)) : ∀ a ∈ as, p a := by
  rw [readItems] at read
  split at read
  · cases read
  · cases read
    exact List.forall_mem_nil _
  · obtain ⟨⟨a, cs₁⟩, first, read⟩ := bind_eq_ok_iff.mp read
    obtain ⟨⟨as, cs₂⟩, others, read⟩ := bind_eq_ok_iff.mp read
    cases read
    exact List.forall_mem_cons.mpr ⟨h first, forall_of_readMoreItems h others⟩

/-- What every member preserves, an object preserves. -/
theorem invariant_readMoreMembers {inv : σ → Prop} {member : MemberReader ε σ}
    (h : ∀ {state name cs state' rest}, inv state → member state name cs = .ok (state', rest) →
      inv state') {fuel left : Nat} {state state' : σ} {cs rest : List Char} (before : inv state)
    (read : readMoreMembers fuel member left state cs = .ok (state', rest)) : inv state' := by
  induction left generalizing cs state with
  | zero => cases read
  | succ left ih =>
    rw [readMoreMembers] at read
    split at read
    · cases read
    · cases read
      exact before
    · obtain ⟨⟨name, cs₁⟩, -, read⟩ := bind_eq_ok_iff.mp read
      obtain ⟨⟨next, cs₂⟩, taken, read⟩ := bind_eq_ok_iff.mp read
      exact ih (h before taken) read
    · cases read

theorem invariant_readMembers {inv : σ → Prop} {member : MemberReader ε σ}
    (h : ∀ {state name cs state' rest}, inv state → member state name cs = .ok (state', rest) →
      inv state') {fuel : Nat} {state state' : σ} {cs rest : List Char} (before : inv state)
    (read : readMembers fuel member state cs = .ok (state', rest)) : inv state' := by
  rw [readMembers] at read
  split at read
  · cases read
  · cases read
    exact before
  · obtain ⟨⟨name, cs₁⟩, -, read⟩ := bind_eq_ok_iff.mp read
    obtain ⟨⟨next, cs₂⟩, taken, read⟩ := bind_eq_ok_iff.mp read
    exact invariant_readMoreMembers h (h before taken) read

theorem forall_of_gather {p : Json → Prop} {value : Reader ε Json}
    (h : ∀ {cs j rest}, value cs = .ok (j, rest) → p j) {ms ms' : List (String × Json)}
    {name : String} {cs rest : List Char} (before : ∀ m ∈ ms, p m.2)
    (gathered : gather value ms name cs = .ok (ms', rest)) : ∀ m ∈ ms', p m.2 := by
  obtain ⟨⟨j, cs'⟩, read, eq⟩ := map_eq_ok_iff.mp gathered
  cases eq
  refine List.forall_mem_cons.mpr ⟨?_, before⟩
  unfold afterColon at read
  split at read
  · cases read
  · exact h read
  · cases read

/-- What holds of every value read in an object holds of every member. -/
theorem forall_of_readMembers {p : Json → Prop} {value : Reader ε Json}
    (h : ∀ {cs j rest}, value cs = .ok (j, rest) → p j) {fuel : Nat} {ms : List (String × Json)}
    {cs rest : List Char} (read : readMembers fuel (gather value) [] cs = .ok (ms, rest)) :
    ∀ m ∈ ms.reverse, p m.2 := by
  have all : ∀ m ∈ ms, p m.2 :=
    invariant_readMembers (forall_of_gather h) (List.forall_mem_nil _) read
  exact fun m hm => all m (List.mem_reverse.mp hm)

theorem inRange_read {fuel depth : Nat} {cs rest : List Char} {j : Json}
    (h : (read fuel depth cs : Except (ReadError ε) _) = .ok (j, rest)) : j.InRange := by
  induction depth generalizing cs rest j with
  | zero =>
    cases read_ok h with
    | null | bool | string => trivial
    | number read => exact inRange_readUnsigned read
  | succ depth ih =>
    cases read_ok h with
    | null | bool | string => trivial
    | number read => exact inRange_readUnsigned read
    | array opening read => exact inRangeItems_iff.mpr (forall_of_readItems ih read)
    | object opening read => exact inRangeMembers_iff.mpr (forall_of_readMembers ih read)

theorem exists_of_readAll {α : Type} {reader : Nat → Reader ε α} {text : String} {a : α}
    (h : readAll reader text = .ok a) :
    ∃ fuel cs rest, reader fuel cs = .ok (a, rest) := by
  simp only [readAll, bind_eq_ok_iff] at h
  obtain ⟨⟨a', rest⟩, read, done⟩ := h
  split at done <;> cases done
  exact ⟨_, _, rest, read⟩

theorem inRange_readAll {depth : Nat} {text : String} {j : Json}
    (h : (readAll (read · depth) text : Except (ReadError ε) _) = .ok j) : j.InRange := by
  obtain ⟨fuel, cs, rest, read⟩ := exists_of_readAll h
  exact inRange_read read

end

end Json

namespace Node

mutual

/-- Every number in the node is finite. -/
def Finite : Node → Prop
  | .number value => value.isFinite = true
  | .operator _ _ args => FiniteAll args
  | .conditional _ left right trueValue falseValue =>
    left.Finite ∧ right.Finite ∧ trueValue.Finite ∧ falseValue.Finite
  | .function _ args => FiniteAll args
  | _ => True

def FiniteAll : List Node → Prop
  | [] => True
  | n :: ns => n.Finite ∧ FiniteAll ns

end

theorem finite_of_finiteAll {ns : List Node} {fs : List Formula}
    (each : List.Forall₂ (fun n f => n.Finite → f.Finite) ns fs) (finite : FiniteAll ns) :
    Formula.EveryOf Formula.FiniteNumber fs := by
  induction each with
  | nil => trivial
  | cons first _ rest => exact ⟨first finite.1, rest finite.2⟩

theorem finite_toFormula {n : Node} {f : Formula} (built : n.toFormula = .ok f) :
    n.Finite → f.Finite := by
  refine toFormula_induction (fun n f built finite => ?_) built
  cases built with
  | cellValue | textbox => trivial
  | number value => exact finite
  | operator chain operands => exact ⟨trivial, finite_of_finiteAll operands finite⟩
  | conditional spelled hl hr ht hf =>
    obtain ⟨fl, fr, ft, ff⟩ := finite
    exact ⟨trivial, hl fl, hr fr, ht ft, hf ff⟩
  | function each => exact ⟨trivial, finite_of_finiteAll each finite⟩

end Node

/-- Whatever a value decodes to where it may stand in a node, its numbers are finite. -/
structure View.Finite (v : View) : Prop where
  number : ∀ {x}, v.number = .ok x → x.isFinite = true
  node : ∀ {n}, v.node = .ok n → n.Finite
  nodes : ∀ {ns}, v.nodes = .ok ns → Node.FiniteAll ns
  condition : ∀ {c}, v.condition = .ok c → c.left.Finite ∧ c.right.Finite

namespace Members

theorem mem_of_lookup {members : Members} {name : String} {v : View}
    (h : members.lookup name = some v) : (name, v) ∈ members := by
  induction members with
  | nil => cases h
  | cons m members ih =>
    rw [List.lookup_cons] at h
    split at h
    · next same =>
      cases h
      rw [beq_iff_eq.mp same]
      exact List.mem_cons_self
    · exact List.mem_cons_of_mem _ (ih h)

/-- A field that is required is decoded from the value of a member. -/
theorem exists_of_required {α : Type} {members : Members} {name : String}
    {decode : View → Except DocumentFault α} {a : α}
    (h : members.required name decode = .ok a) : ∃ v ∈ members.map Prod.snd, decode v = .ok a := by
  unfold required at h
  split at h
  · next v found => exact ⟨v, List.mem_map_of_mem (mem_of_lookup found), h⟩
  · cases h

theorem exists_of_withDefault {α : Type} {members : Members} {name : String} {value : α}
    {decode : View → Except DocumentFault α} {a : α}
    (h : members.withDefault name value decode = .ok a) :
    a = value ∨ ∃ v ∈ members.map Prod.snd, decode v = .ok a := by
  unfold withDefault at h
  split at h
  · next v found => exact .inr ⟨v, List.mem_map_of_mem (mem_of_lookup found), h⟩
  · cases h
    exact .inl rfl

theorem mem_of_kind {kindOf : Json → Except DocumentFault Kind} {known : Option Kind}
    {members others : Members} {k : Kind} (h : kind kindOf known members = .ok (k, others)) :
    ∀ m ∈ others, m ∈ members := by
  induction members generalizing known others with
  | nil =>
    cases known <;> cases h
    exact List.forall_mem_nil _
  | cons m members ih =>
    rw [kind] at h
    split at h
    · split at h
      · cases h
      · obtain ⟨k', -, h⟩ := bind_eq_ok_iff.mp h
        exact fun x hx => List.mem_cons_of_mem m (ih h x hx)
    · obtain ⟨⟨k', others⟩, rest, h⟩ := bind_eq_ok_iff.mp h
      cases h
      intro x hx
      rcases List.mem_cons.mp hx with rfl | hx
      · exact List.mem_cons_self
      · exact List.mem_cons_of_mem m (ih rest x hx)

end Members

namespace Items

theorem exists_of_required {α : Type} {items : Items} {index : Nat} {expected : String}
    {decode : View → Except DocumentFault α} {a : α}
    (h : items.required index expected decode = .ok a) : ∃ v ∈ items, decode v = .ok a := by
  unfold required at h
  split at h
  · next v found => exact ⟨v, List.mem_of_getElem? found, h⟩
  · cases h

theorem exists_of_withDefault {α : Type} {items : Items} {index : Nat} {value : α}
    {decode : View → Except DocumentFault α} {a : α}
    (h : items.withDefault index value decode = .ok a) :
    a = value ∨ ∃ v ∈ items, decode v = .ok a := by
  unfold withDefault at h
  split at h
  · next v found => exact .inr ⟨v, List.mem_of_getElem? found, h⟩
  · cases h
    exact .inl rfl

end Items

namespace Condition

/-- The two sides are decoded from two of the views. -/
def MadeFrom (vs : List View) (c : Condition) : Prop :=
  (∃ v ∈ vs, v.node = .ok c.left) ∧ ∃ v ∈ vs, v.node = .ok c.right

theorem madeFrom_ofMembers {members : Members} {c : Condition} (h : ofMembers members = .ok c) :
    c.MadeFrom (members.map Prod.snd) := by
  simp only [ofMembers, bind_eq_ok_iff] at h
  obtain ⟨-, -, _, -, l, left, r, right, h⟩ := h
  cases h
  exact ⟨Members.exists_of_required left, Members.exists_of_required right⟩

theorem madeFrom_ofItems {items : Items} {c : Condition} (h : ofItems items = .ok c) :
    c.MadeFrom items := by
  simp only [ofItems, bind_eq_ok_iff] at h
  obtain ⟨_, -, l, left, r, right, -, -, h⟩ := h
  cases h
  exact ⟨Items.exists_of_required left, Items.exists_of_required right⟩

theorem finite_of_madeFrom {vs : List View} (finite : ∀ v ∈ vs, v.Finite) {c : Condition}
    (h : c.MadeFrom vs) : c.left.Finite ∧ c.right.Finite := by
  obtain ⟨⟨v, hv, left⟩, ⟨v', hv', right⟩⟩ := h
  exact ⟨(finite v hv).node left, (finite v' hv').node right⟩

end Condition

namespace Node

/-- What a node can be whose fields are decoded from the views; arguments may be left out. -/
inductive MadeFrom (vs : List View) : Node → Prop where
  | cellValue (value : String) : MadeFrom vs (.cellValue value)
  | number {value : Binary64} (h : ∃ v ∈ vs, v.number = .ok value) : MadeFrom vs (.number value)
  | textbox (value : String) : MadeFrom vs (.textbox value)
  | operator (list : Option (List String)) (shared : Option String) {args : List Node}
    (h : args = [] ∨ ∃ v ∈ vs, v.nodes = .ok args) : MadeFrom vs (.operator list shared args)
  | conditional {c : Condition} {t f : Node} (condition : ∃ v ∈ vs, v.condition = .ok c)
    (trueValue : ∃ v ∈ vs, v.node = .ok t) (falseValue : ∃ v ∈ vs, v.node = .ok f) :
    MadeFrom vs (.conditional c.operator c.left c.right t f)
  | function (name : String) {args : List Node} (h : args = [] ∨ ∃ v ∈ vs, v.nodes = .ok args) :
    MadeFrom vs (.function name args)

theorem madeFrom_ofMembers {kind : Kind} {members : Members} {n : Node}
    (h : ofMembers kind members = .ok n) : MadeFrom (members.map Prod.snd) n := by
  cases kind with
  | cellValue =>
    simp only [ofMembers, bind_eq_ok_iff] at h
    obtain ⟨-, -, _, -, h⟩ := h
    cases h
    exact .cellValue _
  | number =>
    simp only [ofMembers, bind_eq_ok_iff] at h
    obtain ⟨-, -, x, value, h⟩ := h
    cases h
    exact .number (Members.exists_of_required value)
  | textbox =>
    simp only [ofMembers, bind_eq_ok_iff] at h
    obtain ⟨-, -, _, -, h⟩ := h
    cases h
    exact .textbox _
  | operator =>
    simp only [ofMembers, bind_eq_ok_iff] at h
    obtain ⟨-, -, list, -, shared, -, ns, args, h⟩ := h
    cases h
    exact .operator list shared (Members.exists_of_withDefault args)
  | conditional =>
    simp only [ofMembers, bind_eq_ok_iff] at h
    obtain ⟨-, -, c, condition, t, whenTrue, f, whenFalse, h⟩ := h
    cases h
    exact .conditional (Members.exists_of_required condition) (Members.exists_of_required whenTrue)
      (Members.exists_of_required whenFalse)
  | function =>
    simp only [ofMembers, bind_eq_ok_iff] at h
    obtain ⟨-, -, name, -, ns, args, h⟩ := h
    cases h
    exact .function name (Members.exists_of_withDefault args)

theorem madeFrom_ofItems {kind : Kind} {items : Items} {n : Node}
    (h : ofItems kind items = .ok n) : MadeFrom items n := by
  cases kind with
  | cellValue =>
    simp only [ofItems, bind_eq_ok_iff] at h
    obtain ⟨_, -, -, -, h⟩ := h
    cases h
    exact .cellValue _
  | number =>
    simp only [ofItems, bind_eq_ok_iff] at h
    obtain ⟨x, value, -, -, h⟩ := h
    cases h
    exact .number (Items.exists_of_required value)
  | textbox =>
    simp only [ofItems, bind_eq_ok_iff] at h
    obtain ⟨_, -, -, -, h⟩ := h
    cases h
    exact .textbox _
  | operator =>
    simp only [ofItems, bind_eq_ok_iff] at h
    obtain ⟨list, -, shared, -, ns, args, -, -, h⟩ := h
    cases h
    exact .operator list shared (Items.exists_of_withDefault args)
  | conditional =>
    simp only [ofItems, bind_eq_ok_iff] at h
    obtain ⟨c, condition, t, whenTrue, f, whenFalse, -, -, h⟩ := h
    cases h
    exact .conditional (Items.exists_of_required condition) (Items.exists_of_required whenTrue)
      (Items.exists_of_required whenFalse)
  | function =>
    simp only [ofItems, bind_eq_ok_iff] at h
    obtain ⟨name, -, ns, args, -, -, h⟩ := h
    cases h
    exact .function name (Items.exists_of_withDefault args)

theorem MadeFrom.mono {vs ws : List View} (sub : ∀ v ∈ vs, v ∈ ws) {n : Node}
    (h : MadeFrom vs n) : MadeFrom ws n := by
  have keep {p : View → Prop} (found : ∃ v ∈ vs, p v) : ∃ v ∈ ws, p v := by
    obtain ⟨v, hv, holds⟩ := found
    exact ⟨v, sub v hv, holds⟩
  cases h with
  | cellValue value => exact .cellValue value
  | number h => exact .number (keep h)
  | textbox value => exact .textbox value
  | operator list shared h => exact .operator list shared (h.imp id keep)
  | conditional condition whenTrue whenFalse =>
    exact .conditional (keep condition) (keep whenTrue) (keep whenFalse)
  | function name h => exact .function name (h.imp id keep)

theorem madeFrom_ofParts_items {kindOf : Json → Except DocumentFault Kind} {items : Items}
    {n : Node} (h : ofParts kindOf (.inl items) = .ok n) : MadeFrom items n := by
  cases items with
  | nil => cases h
  | cons tag items =>
    obtain ⟨kind, -, h⟩ := bind_eq_ok_iff.mp h
    exact (madeFrom_ofItems h).mono fun v hv => List.mem_cons_of_mem tag hv

theorem madeFrom_ofParts_members {kindOf : Json → Except DocumentFault Kind} {members : Members}
    {n : Node} (h : ofParts kindOf (.inr members) = .ok n) :
    MadeFrom (members.map Prod.snd) n := by
  obtain ⟨⟨kind, others⟩, tagged, h⟩ := bind_eq_ok_iff.mp h
  refine (madeFrom_ofMembers h).mono fun v hv => ?_
  obtain ⟨m, hm, rfl⟩ := List.mem_map.mp hv
  exact List.mem_map_of_mem (Members.mem_of_kind tagged m hm)

theorem finite_of_madeFrom {vs : List View} (finite : ∀ v ∈ vs, v.Finite) {n : Node}
    (h : MadeFrom vs n) : n.Finite := by
  cases h with
  | cellValue | textbox => trivial
  | number h =>
    obtain ⟨v, hv, value⟩ := h
    exact (finite v hv).number value
  | operator list shared h | function name h =>
    rcases h with rfl | ⟨v, hv, args⟩
    · trivial
    · exact (finite v hv).nodes args
  | conditional condition whenTrue whenFalse =>
    obtain ⟨v, hv, condition⟩ := condition
    obtain ⟨v', hv', whenTrue⟩ := whenTrue
    obtain ⟨v'', hv'', whenFalse⟩ := whenFalse
    obtain ⟨left, right⟩ := (finite v hv).condition condition
    exact ⟨left, right, (finite v' hv').node whenTrue, (finite v'' hv'').node whenFalse⟩

theorem finiteAll_of_mapM {vs : List View} (finite : ∀ v ∈ vs, v.Finite) {ns : List Node}
    (h : vs.mapM View.node = .ok ns) : FiniteAll ns := by
  replace h := mapM_eq_ok_iff.mp h
  induction h with
  | nil => trivial
  | cons node _ rest =>
    obtain ⟨first, finite⟩ := List.forall_mem_cons.mp finite
    exact ⟨first.node node, rest finite⟩

end Node

namespace View

mutual

theorem finite_of : ∀ {j : Json}, j.InRange → (of j).Finite
  | .null, _ | .bool _, _ | .string _, _ => ⟨nofun, nofun, nofun, nofun⟩
  | .number n, h => by
    refine ⟨fun {x} number => ?_, nofun, nofun, nofun⟩
    cases number
    exact h.isFinite
  | .array items, h => by
    have finite := finite_ofList h
    rw [of]
    exact ⟨nofun, fun h => Node.finite_of_madeFrom finite (Node.madeFrom_ofParts_items h),
      Node.finiteAll_of_mapM finite,
      fun h => Condition.finite_of_madeFrom finite (Condition.madeFrom_ofItems h)⟩
  | .object members, h => by
    have finite := finite_ofMembers h
    rw [of]
    exact ⟨nofun, fun h => Node.finite_of_madeFrom finite (Node.madeFrom_ofParts_members h), nofun,
      fun h => Condition.finite_of_madeFrom finite (Condition.madeFrom_ofMembers h)⟩

theorem finite_ofList : ∀ {js : List Json}, Json.InRangeItems js → ∀ v ∈ ofList js, v.Finite
  | [], _ => List.forall_mem_nil _
  | _ :: _, h => List.forall_mem_cons.mpr ⟨finite_of h.1, finite_ofList h.2⟩

theorem finite_ofMembers : ∀ {ms : List (String × Json)}, Json.InRangeMembers ms →
    ∀ v ∈ (ofMembers ms).map Prod.snd, v.Finite
  | [], _ => List.forall_mem_nil _
  | (_, _) :: _, h => List.forall_mem_cons.mpr ⟨finite_of h.1, finite_ofMembers h.2⟩

end

end View

namespace Formula

theorem valid_ofJson {j : Json} (inRange : j.InRange) {t : Formula} (h : ofJson j = .ok t) :
    t.validate = .ok () ∧ t.WellFormed := by
  obtain ⟨node, decoded, built⟩ := ofJson_eq_ok_iff.mp h
  have describes := Node.describes_of_toFormula built
  have finite : node.Finite := by
    cases j with
    | array items =>
      exact Node.finite_of_madeFrom (View.finite_ofList inRange)
        (Node.madeFrom_ofParts_items decoded)
    | object members =>
      exact Node.finite_of_madeFrom (View.finite_ofMembers inRange)
        (Node.madeFrom_ofParts_members decoded)
    | _ => cases decoded
  exact ⟨(validate_eq_ok_iff t).mpr ⟨describes.named, Node.finite_toFormula built finite⟩,
    describes.wellFormed⟩

end Formula

namespace PartialRecord

/-- The tree that has been taken in, if there is one, is described by a member. -/
theorem tree_of_foldlM_take {p : Formula → Prop} {ms : List (String × Json)}
    (h : ∀ m ∈ ms, ∀ t, Formula.ofJson m.2 = .ok t → p t) {r r' : PartialRecord}
    (before : ∀ t, r.tree = some t → p t) (taken : ms.foldlM take r = .ok r') :
    ∀ t, r'.tree = some t → p t := by
  induction ms generalizing r with
  | nil =>
    cases taken
    exact before
  | cons m ms ih =>
    obtain ⟨here, h⟩ := List.forall_mem_cons.mp h
    obtain ⟨next, first, taken⟩ := bind_eq_ok_iff.mp taken
    refine ih h ?_ taken
    unfold take at first
    split at first
    · obtain ⟨s, -, rfl⟩ := map_eq_ok_iff.mp first
      exact before
    · split at first
      · obtain ⟨s, -, rfl⟩ := map_eq_ok_iff.mp first
        exact before
      · split at first
        · obtain ⟨f, field, rfl⟩ := map_eq_ok_iff.mp first
          unfold takeField at field
          split at field
          · cases field
          · intro t eq
            cases eq
            exact here f field
        · cases first
          exact before

end PartialRecord

theorem Record.valid_ofJson {j : Json} (inRange : j.InRange) {r : Record}
    (h : ofJson j = .ok r) : r.tree.validate = .ok () ∧ r.tree.WellFormed := by
  cases j with
  | object members =>
    obtain ⟨state, taken, finished⟩ := bind_eq_ok_iff.mp h
    have each := Json.inRangeMembers_iff.mp inRange
    have none : ∀ t, ({} : PartialRecord).tree = some t → t.validate = .ok () ∧ t.WellFormed := by
      intro t known
      cases known
    have tree := PartialRecord.tree_of_foldlM_take (fun m hm t => Formula.valid_ofJson (each m hm))
      none taken
    simp only [PartialRecord.finish, bind_eq_ok_iff] at finished
    obtain ⟨_, -, _, -, t, required, _, -, eq⟩ := finished
    cases eq
    apply tree t
    cases known : state.tree with
    | none =>
      rw [known] at required
      cases required
    | some t' =>
      rw [known] at required
      cases required
      rfl
  | _ => cases h

/-- A tree loaded by itself or in a record is valid and well formed, so a record can be built from
it and any record updated to it. -/
theorem Formula.valid_of_loaded {text : String} {t : Formula}
    (loaded : ofDocument text = .ok t ∨ ∃ r, Record.ofDocument text = .ok r ∧ r.tree = t) :
    t.validate = .ok () ∧ t.WellFormed ∧
      (∀ name description, ∃ r, Record.ofTree name description t = .ok r ∧ r.tree = t) ∧
        ∀ r : Record, ∃ r', r.updateTree t = .ok r' ∧ r'.tree = t := by
  have valid : t.validate = .ok () ∧ t.WellFormed := by
    rcases loaded with loaded | ⟨r, loaded, rfl⟩
    · obtain ⟨j, read, described⟩ := ofDocument_eq_ok_iff.mp loaded
      exact valid_ofJson (Json.inRange_readAll read) described
    · obtain ⟨j, read, described⟩ := Record.ofDocument_eq_ok_iff.mp loaded
      exact Record.valid_ofJson (Json.inRange_readAll read) described
  refine ⟨valid.1, valid.2, fun name description => ?_, fun r => ?_⟩
  · exact ⟨_, bind_eq_ok_iff.mpr ⟨(), valid.1, rfl⟩, rfl⟩
  · exact ⟨_, bind_eq_ok_iff.mpr ⟨(), valid.1, rfl⟩, rfl⟩

/-- An array and an object with a foreign member, an empty list beside a shared operator, and an
integer of more than 64 bits. -/
def Formula.legacyText : String :=
  "[\"operator\",[],\"+\",[[\"number\",18446744073709551616]," ++
    "\x7b\"note\":[null],\"value\":\"A1\",\"type\":\"cellValue\"\x7d]]"

def Formula.legacySum : Formula :=
  .chain [.number (.ofNat (2 ^ 64)), .cell "A1"] (.shared .add)

theorem Formula.valid_of_loaded_legacyText : ofDocument legacyText = .ok legacySum ∧
    legacySum.validate = .ok () ∧ legacySum.WellFormed ∧
      ∀ r : Record, ∃ r', r.updateTree legacySum = .ok r' ∧ r'.tree = legacySum := by
  have loaded : ofDocument legacyText = .ok legacySum := by decide +kernel
  obtain ⟨valid, wellFormed, -, updates⟩ := valid_of_loaded (.inl loaded)
  exact ⟨loaded, valid, wellFormed, updates⟩

end CellFormula
