import CellFormula.Proofs.JsonText
import CellFormula.Proofs.Outline
import CellFormula.Record.Document

/-!
# Decoding while reading

A reader that decodes while it reads succeeds exactly where the value can be read first and decoded
afterwards, and then with the same outcome. The two need not fail alike: one may meet a bad value
before the text breaks the grammar.
-/

namespace CellFormula

open Reading (bind_eq_ok_iff)

theorem map_eq_ok_iff {ε α β : Type} {x : Except ε α} {f : α → β} {b : β} :
    x.map f = .ok b ↔ ∃ a, x = .ok a ∧ f a = b := by
  cases x <;> simp [Except.map]

theorem mapError_eq_ok_iff {ε ε' α : Type} {x : Except ε α} {f : ε → ε'} {a : α} :
    x.mapError f = .ok a ↔ x = .ok a := by
  cases x <;> simp [Except.mapError]

namespace Json

variable {ε : Type}

/-- What a value that was read came from. -/
inductive ReadAs (ε : Type) (fuel : Nat) (cs rest : List Char) : Nat → Json → Prop where
  | null {depth} : ReadAs ε fuel cs rest depth .null
  | bool {depth} (b : Bool) : ReadAs ε fuel cs rest depth (.bool b)
  | number {depth negative tail n}
      (read : (readUnsigned negative tail : Except (ReadError ε) _) = .ok (n, rest)) :
      ReadAs ε fuel cs rest depth (.number n)
  | string {depth tail s} (opening : skipBlanks cs = '"' :: tail)
      (read : (readString fuel tail : Except (ReadError ε) _) = .ok (s, rest)) :
      ReadAs ε fuel cs rest depth (.string s)
  | array {depth tail items} (opening : skipBlanks cs = '[' :: tail)
      (read : (readItems fuel (Json.read fuel depth) tail : Except (ReadError ε) _) =
        .ok (items, rest)) :
      ReadAs ε fuel cs rest (depth + 1) (.array items)
  | object {depth tail members} (opening : skipBlanks cs = '\x7b' :: tail)
      (read : (readMembers fuel (gather (Json.read fuel depth)) [] tail :
        Except (ReadError ε) _) = .ok (members, rest)) :
      ReadAs ε fuel cs rest (depth + 1) (.object members.reverse)

theorem readWith_ok {fuel : Nat} {array object : Reader ε Json} {cs rest : List Char} {j : Json}
    (h : readWith fuel array object cs = .ok (j, rest)) :
    (∀ depth, ReadAs ε fuel cs rest depth j) ∨
      (∃ tail, skipBlanks cs = '[' :: tail ∧ array tail = .ok (j, rest)) ∨
      ∃ tail, skipBlanks cs = '\x7b' :: tail ∧ object tail = .ok (j, rest) := by
  rw [readWith] at h
  split at h
  · cases h
  · obtain ⟨a, -, eq⟩ := map_eq_ok_iff.mp h
    cases eq
    exact .inl fun _ => .null
  · obtain ⟨a, -, eq⟩ := map_eq_ok_iff.mp h
    cases eq
    exact .inl fun _ => .bool true
  · obtain ⟨a, -, eq⟩ := map_eq_ok_iff.mp h
    cases eq
    exact .inl fun _ => .bool false
  · obtain ⟨a, read, eq⟩ := map_eq_ok_iff.mp h
    cases eq
    exact .inl fun _ => .number read
  · next tail opening =>
    obtain ⟨a, read, eq⟩ := map_eq_ok_iff.mp h
    cases eq
    exact .inl fun _ => .string opening read
  · next tail opening => exact .inr (.inl ⟨tail, opening, h⟩)
  · next tail opening => exact .inr (.inr ⟨tail, opening, h⟩)
  · split at h
    · obtain ⟨a, read, eq⟩ := map_eq_ok_iff.mp h
      cases eq
      exact .inl fun _ => .number read
    · cases h

theorem read_ok {fuel depth : Nat} {cs rest : List Char} {j : Json}
    (h : (read fuel depth cs : Except (ReadError ε) _) = .ok (j, rest)) :
    ReadAs ε fuel cs rest depth j := by
  cases depth with
  | zero =>
    rcases readWith_ok h with h | ⟨tail, -, h⟩ | ⟨tail, -, h⟩
    · exact h 0
    · cases h
    · cases h
  | succ depth =>
    rcases readWith_ok h with h | ⟨tail, opening, h⟩ | ⟨tail, opening, h⟩
    · exact h (depth + 1)
    · obtain ⟨⟨items, cs⟩, read, eq⟩ := map_eq_ok_iff.mp h
      cases eq
      exact .array opening read
    · obtain ⟨⟨members, cs⟩, read, eq⟩ := map_eq_ok_iff.mp h
      cases eq
      exact .object opening read

/-- The reader succeeds where the value can be read and then decoded. -/
def Decodes {φ α : Type} (reader : Reader ε α) (value : Reader ε Json)
    (decode : Json → Except φ α) : Prop :=
  ∀ cs a rest, reader cs = .ok (a, rest) ↔ ∃ j, value cs = .ok (j, rest) ∧ decode j = .ok a

theorem Decodes.afterColon {φ α : Type} {reader : Reader ε α} {value : Reader ε Json}
    {decode : Json → Except φ α} (h : Decodes reader value decode) :
    Decodes (Json.afterColon reader) (Json.afterColon value) decode := by
  intro cs a rest
  unfold Json.afterColon
  split
  · simp
  · exact h _ a rest
  · simp

/-- Taking a member in while it is read is reading its value and then taking that in. -/
def Takes {φ σ : Type} (member : MemberReader ε σ) (value : Reader ε Json)
    (take : σ → String × Json → Except φ σ) : Prop :=
  ∀ state name, Decodes (member state name) (afterColon value) fun j => take state (name, j)

section

variable {φ σ : Type} {member : MemberReader ε σ} {value : Reader ε Json}
  {take : σ → String × Json → Except φ σ}

/-- The members gathered so far, taken in one after the other, give the state. -/
theorem readMoreMembers_takes (h : Takes member value take) (init : σ) (fuel : Nat) {last : σ}
    {rest : List Char} (left : Nat) (done : List (String × Json)) (cs : List Char) :
    (∃ ms, readMoreMembers fuel (gather value) left done cs = .ok (ms, rest) ∧
        ms.reverse.foldlM take init = .ok last) ↔
      ∃ state, done.reverse.foldlM take init = .ok state ∧
        readMoreMembers fuel member left state cs = .ok (last, rest) := by
  induction left generalizing done cs with
  | zero => simp [readMoreMembers]
  | succ left ih =>
    simp only [readMoreMembers]
    split
    · simp
    · next tail _ =>
      constructor
      · rintro ⟨ms, eq, taken⟩
        cases eq
        exact ⟨last, taken, rfl⟩
      · rintro ⟨state, taken, eq⟩
        cases eq
        exact ⟨done, rfl, taken⟩
    · next tail _ =>
      simp only [bind_eq_ok_iff]
      constructor
      · rintro ⟨ms, ⟨⟨name, cs₁⟩, read, ⟨ms', cs₂⟩, gathered, more⟩, taken⟩
        obtain ⟨⟨j, cs₂⟩, value, eq⟩ := map_eq_ok_iff.mp gathered
        cases eq
        obtain ⟨state', taken, more⟩ := (ih ((name, j) :: done) cs₂).mp ⟨ms, more, taken⟩
        rw [List.reverse_cons, List.foldlM_append] at taken
        obtain ⟨state, before, taken⟩ := bind_eq_ok_iff.mp taken
        have taken : take state (name, j) = .ok state' := by simpa using taken
        exact ⟨state, before, (name, cs₁), read, (state', cs₂),
          (h state name cs₁ state' cs₂).mpr ⟨j, value, taken⟩, more⟩
      · rintro ⟨state, before, ⟨name, cs₁⟩, read, ⟨state', cs₂⟩, taken, more⟩
        obtain ⟨j, value, taken⟩ := (h state name cs₁ state' cs₂).mp taken
        have after : ((name, j) :: done).reverse.foldlM take init = .ok state' := by
          rw [List.reverse_cons, List.foldlM_append, bind_eq_ok_iff]
          exact ⟨state, before, by simpa using taken⟩
        obtain ⟨ms, more, taken⟩ := (ih ((name, j) :: done) cs₂).mpr ⟨state', after, more⟩
        exact ⟨ms, ⟨(name, cs₁), read, ((name, j) :: done, cs₂),
          map_eq_ok_iff.mpr ⟨(j, cs₂), value, rfl⟩, more⟩, taken⟩
    · simp

theorem readMembers_takes (h : Takes member value take) (init : σ) (fuel : Nat) {last : σ}
    {cs rest : List Char} :
    readMembers fuel member init cs = .ok (last, rest) ↔
      ∃ ms, readMembers fuel (gather value) [] cs = .ok (ms, rest) ∧
        ms.reverse.foldlM take init = .ok last := by
  -- After its first name an object goes on as one from which a member was read does.
  have rest_of : ∀ name cs₁, (∃ a, member init name cs₁ = .ok a ∧
      readMoreMembers fuel member fuel a.1 a.2 = .ok (last, rest)) ↔
      ∃ ms a, gather value [] name cs₁ = .ok a ∧
        readMoreMembers fuel (gather value) fuel a.1 a.2 = .ok (ms, rest) ∧
        ms.reverse.foldlM take init = .ok last := by
    intro name cs₁
    constructor
    · rintro ⟨⟨state, cs₂⟩, taken, more⟩
      obtain ⟨j, value, taken⟩ := (h init name cs₁ state cs₂).mp taken
      obtain ⟨ms, more, taken⟩ := (readMoreMembers_takes h init fuel fuel [(name, j)] cs₂).mpr
        ⟨state, by simpa using taken, more⟩
      exact ⟨ms, ([(name, j)], cs₂), map_eq_ok_iff.mpr ⟨(j, cs₂), value, rfl⟩, more, taken⟩
    · rintro ⟨ms, a, gathered, more, taken⟩
      obtain ⟨⟨j, cs₂⟩, value, rfl⟩ := map_eq_ok_iff.mp gathered
      obtain ⟨state, taken, more⟩ := (readMoreMembers_takes h init fuel fuel [(name, j)] cs₂).mp
        ⟨ms, more, taken⟩
      have taken : take init (name, j) = .ok state := by simpa using taken
      exact ⟨(state, cs₂), (h init name cs₁ state cs₂).mpr ⟨j, value, taken⟩, more⟩
  simp only [readMembers]
  split
  · simp
  · constructor
    · intro eq
      cases eq
      exact ⟨[], rfl, rfl⟩
    · rintro ⟨ms, eq, taken⟩
      cases eq
      cases taken
      rfl
  · simp only [bind_eq_ok_iff]
    constructor
    · rintro ⟨⟨name, cs₁⟩, read, more⟩
      obtain ⟨ms, a, gathered, more, taken⟩ := (rest_of name cs₁).mp more
      exact ⟨ms, ⟨(name, cs₁), read, a, gathered, more⟩, taken⟩
    · rintro ⟨ms, ⟨⟨name, cs₁⟩, read, a, gathered, more⟩, taken⟩
      exact ⟨(name, cs₁), read, (rest_of name cs₁).mpr ⟨ms, a, gathered, more, taken⟩⟩

end

/-- A text is read to its end where its value is, and that can be decoded. -/
theorem readAll_decodes {φ α : Type} {reader : Nat → Reader ε α} {value : Nat → Reader ε Json}
    {decode : Json → Except φ α} (h : ∀ fuel, Decodes (reader fuel) (value fuel) decode)
    {text : String} {a : α} :
    readAll reader text = .ok a ↔ ∃ j, readAll value text = .ok j ∧ decode j = .ok a := by
  simp only [readAll, bind_eq_ok_iff]
  constructor
  · rintro ⟨⟨b, rest⟩, read, done⟩
    split at done
    · next blank =>
      cases done
      obtain ⟨j, read, decoded⟩ := (h _ _ _ _).mp read
      exact ⟨j, ⟨(j, rest), read, if_pos blank⟩, decoded⟩
    · cases done
  · rintro ⟨j, ⟨⟨j', rest⟩, read, done⟩, decoded⟩
    split at done
    · next blank =>
      cases done
      exact ⟨(a, rest), (h _ _ _ _).mpr ⟨_, read, decoded⟩, if_pos blank⟩
    · cases done

end Json

theorem View.json_of (j : Json) : (View.of j).json = j := by
  cases j <;> simp [View.of]

theorem View.ofList_eq_map (js : List Json) : ofList js = js.map of := by
  induction js with
  | nil => rfl
  | cons j js ih => rw [ofList, ih, List.map_cons]

theorem View.ofMembers_eq_map (ms : List (String × Json)) :
    ofMembers ms = ms.map fun m => (m.1, of m.2) := by
  induction ms with
  | nil => rfl
  | cons m ms ih => rw [ofMembers, ih, List.map_cons]

theorem View.ofMembers_append (ms ms' : List (String × Json)) :
    ofMembers (ms ++ ms') = ofMembers ms ++ ofMembers ms' := by
  simp only [ofMembers_eq_map, List.map_append]

theorem View.names_ofMembers (ms : List (String × Json)) :
    (ofMembers ms).map Prod.fst = ms.map Prod.fst := by
  rw [ofMembers_eq_map, List.map_map]
  rfl

namespace Document

theorem mismatch_ne_ok {α : Type} (fuel : Nat) (expected : String) (cs : List Char)
    (a : α × List Char) : mismatch fuel expected cs ≠ .ok a := by
  intro h
  obtain ⟨found, -, h⟩ := bind_eq_ok_iff.mp h
  cases h

theorem atFault_eq_ok_iff {α : Type} {x : Except DocumentFault α} {a : α} :
    atFault x = .ok a ↔ x = .ok a :=
  mapError_eq_ok_iff

/-- What is read can be decoded further. -/
theorem decodes_andThen {α β : Type} {reader : Json.Reader DocumentFault α}
    {value : Json.Reader DocumentFault Json} {decode : Json → Except DocumentFault α}
    (h : Json.Decodes reader value decode) (more : α → Except DocumentFault β) :
    Json.Decodes (fun cs => do
      let (a, cs) ← reader cs
      .ok (← atFault (more a), cs)) value fun j => decode j >>= more := by
  intro cs b rest
  simp only [bind_eq_ok_iff]
  constructor
  · rintro ⟨⟨a, cs'⟩, read, b', decoded, eq⟩
    cases eq
    obtain ⟨j, read, first⟩ := (h _ _ _).mp read
    exact ⟨j, read, a, first, atFault_eq_ok_iff.mp decoded⟩
  · rintro ⟨j, read, a, first, decoded⟩
    exact ⟨(a, rest), (h _ _ _).mpr ⟨j, read, first⟩, b, atFault_eq_ok_iff.mpr decoded, rfl⟩

/-- An object is decoded from its members, taken in one after the other. -/
theorem readMembers_finish_iff {σ α : Type} {fuel depth : Nat}
    {member : Json.MemberReader DocumentFault σ} {take : σ → String × Json → Except DocumentFault σ}
    (h : Json.Takes member (Json.read fuel depth) take) (init : σ)
    (finish : σ → Except DocumentFault α) {cs rest : List Char} {a : α} :
    (do
      let (state, cs) ← Json.readMembers fuel member init cs
      .ok (← atFault (finish state), cs)) = .ok (a, rest) ↔
      ∃ ms, (Json.readMembers fuel (Json.gather (Json.read fuel depth)) [] cs :
          Except DocumentError _) = .ok (ms, rest) ∧
        (ms.reverse.foldlM take init >>= finish) = .ok a := by
  simp only [bind_eq_ok_iff]
  constructor
  · rintro ⟨⟨state, cs'⟩, read, a', finished, eq⟩
    cases eq
    obtain ⟨ms, read, taken⟩ := (Json.readMembers_takes h init fuel).mp read
    exact ⟨ms, read, state, taken, atFault_eq_ok_iff.mp finished⟩
  · rintro ⟨ms, read, state, taken, finished⟩
    exact ⟨(state, rest), (Json.readMembers_takes h init fuel).mpr ⟨ms, read, taken⟩, a,
      atFault_eq_ok_iff.mpr finished, rfl⟩

theorem decodes_readKind (fuel depth : Nat) :
    Json.Decodes (readKind fuel) (Json.read fuel depth) Kind.ofTag := by
  intro cs kind rest
  constructor
  · intro h
    rw [readKind] at h
    split at h
    · next tail opening =>
      obtain ⟨⟨s, cs'⟩, read, h⟩ := bind_eq_ok_iff.mp h
      obtain ⟨kind', named, h⟩ := bind_eq_ok_iff.mp h
      cases h
      refine ⟨.string s, ?_, atFault_eq_ok_iff.mp named⟩
      rw [Json.read_quote opening, read]
      rfl
    · exact absurd h (mismatch_ne_ok fuel _ _ _)
  · rintro ⟨j, read, tag⟩
    cases Json.read_ok read with
    | @string _ tail s opening quoted =>
      rw [readKind, opening]
      exact bind_eq_ok_iff.mpr ⟨(s, rest), quoted,
        bind_eq_ok_iff.mpr ⟨kind, atFault_eq_ok_iff.mpr tag, rfl⟩⟩
    | _ => cases tag

theorem decodes_readText (fuel depth : Nat) :
    Json.Decodes (readText fuel) (Json.read fuel depth) fun j => (View.of j).text := by
  intro cs s rest
  constructor
  · intro h
    rw [readText] at h
    split at h
    · next tail opening =>
      refine ⟨.string s, ?_, rfl⟩
      rw [Json.read_quote opening, h]
      rfl
    · exact absurd h (mismatch_ne_ok fuel _ _ _)
  · rintro ⟨j, read, text⟩
    simp only [View.text, View.json_of] at text
    cases Json.read_ok read with
    | @string _ tail s' opening quoted =>
      cases text
      rw [readText, opening]
      exact quoted
    | _ => cases text

theorem readTagged_eq_ok_iff {fuel depth : Nat} {cs rest : List Char} {kind : Kind}
    {items : List Json} :
    readTagged fuel depth cs = .ok ((kind, items), rest) ↔
      ∃ tag, (Json.readItems fuel (Json.read fuel depth) cs : Except DocumentError _) =
        .ok (tag :: items, rest) ∧ Kind.ofTag tag = .ok kind := by
  simp only [readTagged, Json.readItems]
  split
  · next opening => simp [opening]
  · next cs' unclosed =>
    split
    · next opening =>
      rw [opening]
      simp [readKind, Json.skipBlanks, bind_eq_ok_iff, mismatch_ne_ok]
    · next tail opening => exact absurd opening (unclosed tail)
    · simp only [bind_eq_ok_iff]
      constructor
      · rintro ⟨⟨kind', cs₁⟩, first, ⟨items', cs₂⟩, others, eq⟩
        cases eq
        obtain ⟨tag, read, kindOf⟩ := (decodes_readKind fuel depth _ _ _).mp first
        exact ⟨tag, ⟨(tag, cs₁), read, (items', cs₂), others, rfl⟩, kindOf⟩
      · rintro ⟨tag, ⟨⟨tag', cs₁⟩, read, ⟨items', cs₂⟩, others, eq⟩, kindOf⟩
        cases eq
        exact ⟨(kind, cs₁), (decodes_readKind fuel depth _ _ _).mpr ⟨tag', read, kindOf⟩,
          (items', cs₂), others, rfl⟩

end Document

open Document

namespace PartialNode

def take (node : PartialNode) : String × Json → Except DocumentFault PartialNode
  | (name, j) =>
    if name = "type" then
      if node.kind.isSome then .error (.duplicateField name)
      else (Kind.ofTag j).map fun kind => { node with kind := some kind }
    else .ok { node with others := (name, j) :: node.others }

theorem takes_readMember (fuel depth : Nat) :
    Json.Takes (readMember fuel depth) (Json.read fuel depth) take := by
  intro node name cs node' rest
  simp only [readMember, take]
  split
  · split
    · simp
    · simp only [map_eq_ok_iff]
      constructor
      · rintro ⟨⟨kind, cs'⟩, read, eq⟩
        cases eq
        obtain ⟨j, read, tag⟩ := ((decodes_readKind fuel depth).afterColon _ _ _).mp read
        exact ⟨j, read, kind, tag, rfl⟩
      · rintro ⟨j, read, kind, tag, rfl⟩
        exact ⟨(kind, rest), ((decodes_readKind fuel depth).afterColon _ _ _).mpr ⟨j, read, tag⟩,
          rfl⟩
  · simp only [map_eq_ok_iff]
    constructor
    · rintro ⟨⟨j, cs'⟩, read, eq⟩
      cases eq
      exact ⟨j, read, rfl⟩
    · rintro ⟨j, read, eq⟩
      cases eq
      exact ⟨(j, rest), read, rfl⟩

/-- The members are sorted out as they are where all of them are known. -/
theorem foldlM_take (ms : List (String × Json)) (known : Option Kind)
    (others : List (String × Json)) :
    (ms.foldlM take ⟨known, others⟩ >>= finish) =
      (Members.kind Kind.ofTag known (View.ofMembers ms) >>= fun (kind, rest) =>
        Node.ofMembers kind (View.ofMembers others.reverse ++ rest)) := by
  induction ms generalizing known others with
  | nil =>
    cases known with
    | none => rfl
    | some kind =>
      change Node.ofMembers kind _ = Node.ofMembers kind (_ ++ [])
      rw [List.append_nil]
  | cons m ms ih =>
    obtain ⟨name, j⟩ := m
    rw [List.foldlM_cons, View.ofMembers, Members.kind, take]
    by_cases type : name = "type"
    · rw [if_pos type, if_pos type]
      cases known with
      | some kind => rfl
      | none =>
        simp only [View.json_of]
        cases Kind.ofTag j with
        | error fault => rfl
        | ok kind => exact ih (some kind) others
    · rw [if_neg type, if_neg type]
      change (ms.foldlM take ⟨known, (name, j) :: others⟩ >>= finish) = _
      rw [ih known ((name, j) :: others), List.reverse_cons, View.ofMembers_append]
      cases Members.kind Kind.ofTag known (View.ofMembers ms) with
      | error fault => rfl
      | ok kinded =>
        change Node.ofMembers kinded.1 _ = Node.ofMembers kinded.1 _
        rw [List.append_assoc]
        rfl

end PartialNode

theorem Node.decodes_read (fuel depth : Nat) :
    Json.Decodes (Node.read fuel depth) (Json.read fuel depth) Node.ofJson := by
  intro cs node rest
  constructor
  · intro h
    simp only [Node.read] at h
    split at h
    · cases h
    · cases h
    · next tail depth opening =>
      obtain ⟨ms, read, finished⟩ :=
        (readMembers_finish_iff (PartialNode.takes_readMember fuel depth) _ _).mp h
      refine ⟨.object ms.reverse, ?_, ?_⟩
      · rw [Json.read_brace opening, read]
        rfl
      · exact (PartialNode.foldlM_take ms.reverse none []).symm.trans finished
    · next tail depth opening =>
      obtain ⟨⟨⟨kind, items⟩, cs'⟩, read, h⟩ := bind_eq_ok_iff.mp h
      obtain ⟨node', decoded, h⟩ := bind_eq_ok_iff.mp h
      cases h
      obtain ⟨tag, read, kindOf⟩ := readTagged_eq_ok_iff.mp read
      refine ⟨.array (tag :: items), ?_, ?_⟩
      · rw [Json.read_bracket opening, read]
        rfl
      · refine bind_eq_ok_iff.mpr ⟨kind, ?_, atFault_eq_ok_iff.mp decoded⟩
        rw [View.json_of]
        exact kindOf
    · exact absurd h (mismatch_ne_ok fuel _ _ _)
  · rintro ⟨j, read, decoded⟩
    cases Json.read_ok read with
    | @array depth tail items opening inner =>
      cases items with
      | nil => cases decoded
      | cons tag items =>
        obtain ⟨kind, kindOf, decoded⟩ := bind_eq_ok_iff.mp decoded
        rw [View.json_of] at kindOf
        simp only [Node.read, opening]
        exact bind_eq_ok_iff.mpr ⟨((kind, items), rest),
          readTagged_eq_ok_iff.mpr ⟨tag, inner, kindOf⟩,
          bind_eq_ok_iff.mpr ⟨node, atFault_eq_ok_iff.mpr decoded, rfl⟩⟩
    | @object depth tail members opening inner =>
      simp only [Node.read, opening]
      exact (readMembers_finish_iff (PartialNode.takes_readMember fuel depth) _ _).mpr
        ⟨members, inner, (PartialNode.foldlM_take members.reverse none []).trans decoded⟩
    | _ => cases decoded

namespace Formula

theorem ofJson_eq_ok_iff {j : Json} {f : Formula} :
    ofJson j = .ok f ↔ ∃ node, Node.ofJson j = .ok node ∧ node.toFormula = .ok f := by
  rw [ofJson, bind_eq_ok_iff]
  simp only [mapError_eq_ok_iff]

theorem decodes_read (fuel depth : Nat) :
    Json.Decodes (Formula.read fuel depth) (Json.read fuel depth) ofJson :=
  decodes_andThen (Node.decodes_read fuel depth) fun node => node.toFormula.mapError .tree

theorem ofDocument_eq_ok_iff {text : String} {f : Formula} :
    ofDocument text = .ok f ↔
      ∃ j, (Json.readAll (Json.read · Json.depthLimit) text : Except DocumentError _) = .ok j ∧
        ofJson j = .ok f :=
  Json.readAll_decodes fun fuel => decodes_read fuel Json.depthLimit

end Formula

namespace PartialRecord

def takeField {α : Type} (name : String) (known : Option α) (value : Except DocumentFault α) :
    Except DocumentFault α :=
  if known.isSome then .error (.duplicateField name) else value

def take (r : PartialRecord) (m : String × Json) : Except DocumentFault PartialRecord :=
  if m.1 = "name" then
    (takeField m.1 r.name (View.of m.2).text).map fun s => { r with name := some s }
  else if m.1 = "description" then
    (takeField m.1 r.description (View.of m.2).text).map fun s => { r with description := some s }
  else if m.1 = "tree" then
    (takeField m.1 r.tree (Formula.ofJson m.2)).map fun f => { r with tree := some f }
  else .ok { r with others := m :: r.others }

theorem readField_eq_ok_iff {α : Type} (name : String) (known : Option α)
    {reader : Json.Reader DocumentFault α} {value : Json.Reader DocumentFault Json}
    {decode : Json → Except DocumentFault α} (h : Json.Decodes reader value decode) :
    Json.Decodes (readField name known reader) (Json.afterColon value) fun j =>
      takeField name known (decode j) := by
  intro cs a rest
  unfold readField takeField
  split
  · simp
  · exact h.afterColon cs a rest

theorem decodes_field {α : Type} (name : String) (known : Option α) (set : α → PartialRecord)
    {reader : Json.Reader DocumentFault α} {value : Json.Reader DocumentFault Json}
    {decode : Json → Except DocumentFault α} (h : Json.Decodes reader value decode) :
    Json.Decodes (fun cs => (readField name known reader cs).map fun a => (set a.1, a.2))
      (Json.afterColon value) fun j => (takeField name known (decode j)).map set := by
  intro cs r rest
  simp only [map_eq_ok_iff]
  constructor
  · rintro ⟨⟨a, cs'⟩, read, eq⟩
    cases eq
    obtain ⟨j, read, taken⟩ := (readField_eq_ok_iff name known h _ _ _).mp read
    exact ⟨j, read, a, taken, rfl⟩
  · rintro ⟨j, read, a, taken, rfl⟩
    exact ⟨(a, rest), (readField_eq_ok_iff name known h _ _ _).mpr ⟨j, read, taken⟩, rfl⟩

theorem takes_readMember (fuel depth : Nat) :
    Json.Takes (readMember fuel depth) (Json.read fuel depth) take := by
  intro r name
  unfold readMember
  simp only [take]
  split
  · exact decodes_field name r.name (fun s => { r with name := some s })
      (decodes_readText fuel depth)
  · split
    · exact decodes_field name r.description (fun s => { r with description := some s })
        (decodes_readText fuel depth)
    · split
      · exact decodes_field name r.tree (fun f => { r with tree := some f })
          (Formula.decodes_read fuel depth)
      · intro cs r' rest
        simp only [map_eq_ok_iff]
        constructor
        · rintro ⟨⟨j, cs'⟩, read, eq⟩
          cases eq
          exact ⟨j, read, rfl⟩
        · rintro ⟨j, read, eq⟩
          cases eq
          exact ⟨(j, rest), read, rfl⟩

end PartialRecord

namespace Record

/-- The record that a JSON value describes. -/
def ofJson : Json → Except DocumentFault Record
  | .object members => do (← members.foldlM PartialRecord.take {}).finish
  | j => .error (.wrongType (.ofJson j) "struct FormulaRecord")

theorem decodes_read (fuel depth : Nat) :
    Json.Decodes (Record.read fuel depth) (Json.read fuel depth) ofJson := by
  intro cs r rest
  constructor
  · intro h
    simp only [Record.read] at h
    split at h
    · cases h
    · next tail depth opening =>
      obtain ⟨ms, read, finished⟩ :=
        (readMembers_finish_iff (PartialRecord.takes_readMember fuel depth) _ _).mp h
      refine ⟨.object ms.reverse, ?_, finished⟩
      rw [Json.read_brace opening, read]
      rfl
    · exact absurd h (mismatch_ne_ok fuel _ _ _)
  · rintro ⟨j, read, decoded⟩
    cases Json.read_ok read with
    | @object depth tail members opening inner =>
      simp only [Record.read, opening]
      exact (readMembers_finish_iff (PartialRecord.takes_readMember fuel depth) _ _).mpr
        ⟨members, inner, decoded⟩
    | _ => cases decoded

theorem ofDocument_eq_ok_iff {text : String} {r : Record} :
    ofDocument text = .ok r ↔
      ∃ j, (Json.readAll (Json.read · Json.depthLimit) text : Except DocumentError _) = .ok j ∧
        ofJson j = .ok r :=
  Json.readAll_decodes fun fuel => decodes_read fuel Json.depthLimit

end Record

end CellFormula
