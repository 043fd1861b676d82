import CellFormula.Proofs.JsonNumbers
import CellFormula.Proofs.JsonStrings

/-!
# Written values read again

Both layouts put blanks only where a reader skips them, so they are two styles of one text. A value
written in any style reads as it was, its numbers as their texts read, unless it nests too deep or
holds a number that is too large.
-/

namespace CellFormula.Json

/-- The blanks that a layout puts before items and after colons. -/
structure Style where
  line : Nat → List Char
  colon : List Char
  blank_line : ∀ level, ∀ c ∈ line level, isBlank c = true
  blank_colon : ∀ c ∈ colon, isBlank c = true

namespace Style

def compact : Style where
  line _ := []
  colon := []
  blank_line _ := by simp
  blank_colon := by simp

def indented : Style where
  line := lineAt
  colon := [' ']
  blank_line level c h := by
    rcases List.mem_cons.mp h with rfl | h
    · rfl
    · rw [List.eq_of_mem_replicate h]
      rfl
  blank_colon := by simp [isBlank]

end Style

section

variable (s : Style)

mutual

def styled (level : Nat) : Json → List Char
  | .null => "null".toList
  | .bool b => (if b then "true" else "false").toList
  | .number n => writeNumber n
  | .string v => writeString v
  | .array [] => "[]".toList
  | .array (j :: js) =>
    '[' :: s.line (level + 1) ++ j.styled (level + 1) ++ styledItems (level + 1) js ++
      s.line level ++ [']']
  | .object [] => "\x7b\x7d".toList
  | .object ((k, v) :: rest) =>
    '\x7b' :: s.line (level + 1) ++ writeString k ++ ':' :: s.colon ++ v.styled (level + 1) ++
      styledMembers (level + 1) rest ++ s.line level ++ ['\x7d']

def styledItems (level : Nat) : List Json → List Char
  | [] => []
  | j :: js => ',' :: s.line level ++ j.styled level ++ styledItems level js

def styledMembers (level : Nat) : List (String × Json) → List Char
  | [] => []
  | (k, v) :: rest =>
    ',' :: s.line level ++ writeString k ++ ':' :: s.colon ++ v.styled level ++
      styledMembers level rest

end

end

mutual

theorem compact_eq_styled : ∀ (j : Json) (level : Nat), j.compact = j.styled .compact level
  | .null, _ => rfl
  | .bool _, _ => rfl
  | .number _, _ => rfl
  | .string _, _ => rfl
  | .array [], _ => rfl
  | .array (j :: js), level => by
    simp [compact, styled, Style.compact, compact_eq_styled j (level + 1),
      compactItems_eq_styled js (level + 1)]
  | .object [], _ => rfl
  | .object ((k, v) :: rest), level => by
    simp [compact, styled, Style.compact, compact_eq_styled v (level + 1),
      compactMembers_eq_styled rest (level + 1)]

theorem compactItems_eq_styled :
    ∀ (js : List Json) (level : Nat), compactItems js = styledItems .compact level js
  | [], _ => rfl
  | j :: js, level => by
    simp [compactItems, styledItems, Style.compact, compact_eq_styled j level,
      compactItems_eq_styled js level]

theorem compactMembers_eq_styled : ∀ (ms : List (String × Json)) (level : Nat),
    compactMembers ms = styledMembers .compact level ms
  | [], _ => rfl
  | (k, v) :: rest, level => by
    simp [compactMembers, styledMembers, Style.compact, compact_eq_styled v level,
      compactMembers_eq_styled rest level]

end

mutual

theorem indented_eq_styled : ∀ (j : Json) (level : Nat), j.indented level = j.styled .indented level
  | .null, _ => rfl
  | .bool _, _ => rfl
  | .number _, _ => rfl
  | .string _, _ => rfl
  | .array [], _ => rfl
  | .array (j :: js), level => by
    simp [indented, styled, Style.indented, indented_eq_styled j (level + 1),
      indentedItems_eq_styled js (level + 1)]
  | .object [], _ => rfl
  | .object ((k, v) :: rest), level => by
    simp [indented, styled, Style.indented, indented_eq_styled v (level + 1),
      indentedMembers_eq_styled rest (level + 1)]

theorem indentedItems_eq_styled :
    ∀ (js : List Json) (level : Nat), indentedItems level js = styledItems .indented level js
  | [], _ => rfl
  | j :: js, level => by
    simp [indentedItems, styledItems, Style.indented, indented_eq_styled j level,
      indentedItems_eq_styled js level]

theorem indentedMembers_eq_styled : ∀ (ms : List (String × Json)) (level : Nat),
    indentedMembers level ms = styledMembers .indented level ms
  | [], _ => rfl
  | (k, v) :: rest, level => by
    simp [indentedMembers, styledMembers, Style.indented, indented_eq_styled v level,
      indentedMembers_eq_styled rest level]

end

mutual

/-- How many arrays and objects nest in a value. -/
def depth : Json → Nat
  | .array items => 1 + depthItems items
  | .object members => 1 + depthMembers members
  | _ => 0

def depthItems : List Json → Nat
  | [] => 0
  | j :: js => max j.depth (depthItems js)

def depthMembers : List (String × Json) → Nat
  | [] => 0
  | (_, v) :: rest => max v.depth (depthMembers rest)

end

mutual

/-- The value with every number as its text reads, if none is too large. -/
def reread : Json → Option Json
  | .number n => n.reread
  | .array items => (rereadItems items).map .array
  | .object members => (rereadMembers members).map .object
  | j => some j

def rereadItems : List Json → Option (List Json)
  | [] => some []
  | j :: js => j.reread.bind fun j' => (rereadItems js).map (j' :: ·)

def rereadMembers : List (String × Json) → Option (List (String × Json))
  | [] => some []
  | (k, v) :: rest => v.reread.bind fun v' => (rereadMembers rest).map ((k, v') :: ·)

end

/-- What a value reads as where arrays and objects may nest to the given depth. -/
def readBack (depth : Nat) (j : Json) : Option Json :=
  if j.depth ≤ depth then j.reread else none

def readBackItems (depth : Nat) (js : List Json) : Option (List Json) :=
  if depthItems js ≤ depth then rereadItems js else none

def readBackMembers (depth : Nat) (ms : List (String × Json)) : Option (List (String × Json)) :=
  if depthMembers ms ≤ depth then rereadMembers ms else none

theorem bind_guarded {α β γ : Type} (first rest depth : Nat) (x : Option α) (xs : Option β)
    (f : α → β → γ) :
    (if max first rest ≤ depth then x.bind fun a => xs.map (f a) else none) =
      (if first ≤ depth then x else none).bind fun a =>
        (if rest ≤ depth then xs else none).map (f a) := by
  by_cases one : first ≤ depth
  · by_cases others : rest ≤ depth
    · rw [if_pos (Nat.max_le.mpr ⟨one, others⟩), if_pos one, if_pos others]
    · rw [if_neg fun h => others (Nat.max_le.mp h).2, if_pos one, if_neg others]
      cases x <;> rfl
  · rw [if_neg fun h => one (Nat.max_le.mp h).1, if_neg one]
    rfl

theorem readBackItems_cons (depth : Nat) (j : Json) (js : List Json) :
    readBackItems depth (j :: js) =
      (j.readBack depth).bind fun j' => (readBackItems depth js).map (j' :: ·) :=
  bind_guarded j.depth (depthItems js) depth j.reread (rereadItems js) _

theorem readBackMembers_cons (depth : Nat) (k : String) (v : Json) (ms : List (String × Json)) :
    readBackMembers depth ((k, v) :: ms) =
      (v.readBack depth).bind fun v' => (readBackMembers depth ms).map ((k, v') :: ·) :=
  bind_guarded v.depth (depthMembers ms) depth v.reread (rereadMembers ms) _

theorem map_guarded {α β : Type} (inner depth : Nat) (x : Option α) (f : α → β) :
    (if 1 + inner ≤ depth + 1 then x.map f else none) =
      (if inner ≤ depth then x else none).map f := by
  by_cases fits : inner ≤ depth
  · rw [if_pos (by omega), if_pos fits]
  · rw [if_neg (by omega), if_neg fits]
    rfl

theorem readBack_array (depth : Nat) (items : List Json) :
    readBack (depth + 1) (.array items) = (readBackItems depth items).map .array :=
  map_guarded (depthItems items) depth (rereadItems items) Json.array

theorem readBack_object (depth : Nat) (members : List (String × Json)) :
    readBack (depth + 1) (.object members) = (readBackMembers depth members).map .object :=
  map_guarded (depthMembers members) depth (rereadMembers members) Json.object

theorem skipBlanks_append {bs : List Char} (blank : ∀ c ∈ bs, isBlank c = true) (cs : List Char) :
    skipBlanks (bs ++ cs) = skipBlanks cs :=
  List.dropWhile_append_of_pos blank

theorem skipBlanks_cons {c : Char} (h : isBlank c = false) (cs : List Char) :
    skipBlanks (c :: cs) = c :: cs := by
  simp [skipBlanks, h]

theorem endsNumber_append {bs : List Char} (blank : ∀ c ∈ bs, isBlank c = true) {cs : List Char}
    (h : EndsNumber cs) : EndsNumber (bs ++ cs) := by
  cases bs with
  | nil => exact h
  | cons b bs =>
    have : isBlank b = true := blank b List.mem_cons_self
    simp only [isBlank, Bool.or_eq_true, beq_iff_eq] at this
    rcases this with ((rfl | rfl) | rfl) | rfl <;> exact ⟨rfl, by decide, by decide, by decide⟩

theorem skipBlanks_blanks {bs : List Char} (blank : ∀ c ∈ bs, isBlank c = true) :
    skipBlanks bs = [] := by
  rw [← List.append_nil bs, skipBlanks_append blank]
  rfl

theorem endsNumber_blanks {bs : List Char} (blank : ∀ c ∈ bs, isBlank c = true) :
    EndsNumber bs := by
  rw [← List.append_nil bs]
  exact endsNumber_append blank trivial

section

variable {ε : Type}

theorem read_append_blanks {bs : List Char} (blank : ∀ c ∈ bs, isBlank c = true)
    (fuel depth : Nat) (cs : List Char) :
    (read fuel depth (bs ++ cs) : Except (ReadError ε) _) = read fuel depth cs := by
  cases depth <;> simp only [read, readWith, skipBlanks_append blank]

theorem beginsItem_styled (s : Style) (level : Nat) (j : Json) :
    BeginsItem (j.styled s level) := by
  match j with
  | .null => exact ⟨_, _, rfl, rfl, by decide⟩
  | .bool true => exact ⟨_, _, rfl, rfl, by decide⟩
  | .bool false => exact ⟨_, _, rfl, rfl, by decide⟩
  | .number (.integer n) =>
    obtain ⟨negative, cs, numeral, text⟩ := integer_text n
    rw [styled, text]
    exact numeral.beginsItem _
  | .number (.real x) =>
    rw [styled, writeNumber]
    cases finite : x.isFinite with
    | true =>
      obtain ⟨cs, numeral, text⟩ := document_of_isFinite finite
      rw [text]
      exact numeral.beginsItem _
    | false =>
      rw [document_of_not_isFinite finite]
      exact ⟨_, _, rfl, rfl, by decide⟩
  | .string v => exact ⟨_, _, rfl, rfl, by decide⟩
  | .array [] => exact ⟨_, _, rfl, rfl, by decide⟩
  | .array (_ :: _) => exact ⟨_, _, rfl, rfl, by decide⟩
  | .object [] => exact ⟨_, _, rfl, rfl, by decide⟩
  | .object ((_, _) :: _) => exact ⟨_, _, rfl, rfl, by decide⟩

/-- An array is closed or goes on with a comma. -/
theorem endsNumber_items (s : Style) (level level' : Nat) (js : List Json) (rest : List Char) :
    EndsNumber (styledItems s level js ++ (s.line level' ++ ']' :: rest)) := by
  cases js with
  | nil => exact endsNumber_append (s.blank_line level') ⟨rfl, by decide, by decide, by decide⟩
  | cons j js => exact ⟨rfl, by decide, by decide, by decide⟩

theorem endsNumber_members (s : Style) (level level' : Nat) (ms : List (String × Json))
    (rest : List Char) :
    EndsNumber (styledMembers s level ms ++ (s.line level' ++ '\x7d' :: rest)) := by
  cases ms with
  | nil => exact endsNumber_append (s.blank_line level') ⟨rfl, by decide, by decide, by decide⟩
  | cons m ms => exact ⟨rfl, by decide, by decide, by decide⟩

theorem read_quote {fuel depth : Nat} {cs tail : List Char}
    (opening : skipBlanks cs = '"' :: tail) :
    (read fuel depth cs : Except (ReadError ε) _) =
      (readString fuel tail).map fun (s, cs) => (.string s, cs) := by
  cases depth <;> simp only [read, readWith, opening]

theorem read_bracket {fuel depth : Nat} {cs tail : List Char}
    (opening : skipBlanks cs = '[' :: tail) :
    (read fuel (depth + 1) cs : Except (ReadError ε) _) =
      (readItems fuel (read fuel depth) tail).map fun (js, cs) => (.array js, cs) := by
  simp only [read, readWith, opening]

theorem read_brace {fuel depth : Nat} {cs tail : List Char}
    (opening : skipBlanks cs = '\x7b' :: tail) :
    (read fuel (depth + 1) cs : Except (ReadError ε) _) =
      (readMembers fuel (gather (read fuel depth)) [] tail).map fun (members, cs) =>
        (.object members.reverse, cs) := by
  simp only [read, readWith, opening]

theorem read_of_stringText {v : String} {cs : List Char} (h : StringText v cs) {fuel : Nat}
    (enough : cs.length < fuel) (depth : Nat) (rest : List Char) :
    (read fuel depth (cs ++ rest) : Except (ReadError ε) _) = .ok (.string v, rest) := by
  obtain ⟨tail, text, reads⟩ := readString_of_stringText (ε := ε) h enough rest
  rw [text, read_quote (skipBlanks_cons rfl tail), reads]
  rfl

/-- An array reads as what is found for its items. -/
theorem read_array {fuel depth : Nat} {cs rest : List Char} {items : Option (List Json)}
    (reads : (readItems fuel (read fuel depth) cs : Except (ReadError ε) _) = found items rest) :
    (read fuel (depth + 1) ('[' :: cs) : Except (ReadError ε) _) =
      found (items.map Json.array) rest := by
  rw [read_bracket (skipBlanks_cons rfl cs), reads]
  cases items <;> rfl

theorem read_object {fuel depth : Nat} {cs rest : List Char}
    {members : Option (List (String × Json))}
    (reads : (readMembers fuel (gather (read fuel depth)) [] cs : Except (ReadError ε) _) =
      found (members.map List.reverse) rest) :
    (read fuel (depth + 1) ('\x7b' :: cs) : Except (ReadError ε) _) =
      found (members.map Json.object) rest := by
  rw [read_brace (skipBlanks_cons rfl cs), reads]
  cases members with
  | none => rfl
  | some members => simp [found, Except.map]

section

variable {α : Type} {item : Reader ε α} {o : Option α} {os : Option (List α)}

/-- The items are found if the first is and the others are. -/
theorem readItems_first {fuel : Nat} {bs cs cs' rest : List Char}
    (blank : ∀ c ∈ bs, isBlank c = true) (begins : BeginsItem cs)
    (first : item cs = found o cs') (others : readMoreItems item fuel cs' = found os rest) :
    readItems fuel item (bs ++ cs) = found (o.bind fun a => os.map (a :: ·)) rest := by
  obtain ⟨c, tail, rfl, dark, more⟩ := begins
  rw [readItems, skipBlanks_append blank, skipBlanks_cons dark]
  split
  · next h => cases h
  · next h =>
    cases h
    exact absurd rfl more
  · rw [first]
    cases o with
    | none => rfl
    | some a =>
      change (readMoreItems item fuel cs').map _ = _
      rw [others]
      cases os <;> rfl

theorem readMoreItems_comma {left : Nat} {cs tail cs' rest : List Char}
    (opening : skipBlanks cs = ',' :: tail) (first : item tail = found o cs')
    (others : readMoreItems item left cs' = found os rest) :
    readMoreItems item (left + 1) cs = found (o.bind fun a => os.map (a :: ·)) rest := by
  rw [readMoreItems, opening]
  change (item tail >>= _) = _
  rw [first]
  cases o with
  | none => rfl
  | some a =>
    change (readMoreItems item left cs').map _ = _
    rw [others]
    cases os <;> rfl

theorem readMoreItems_close (left : Nat) (item : Reader ε α) {bs : List Char}
    (blank : ∀ c ∈ bs, isBlank c = true) (rest : List Char) :
    readMoreItems item (left + 1) (bs ++ ']' :: rest) = .ok ([], rest) := by
  rw [readMoreItems, skipBlanks_append blank]
  rfl

end

theorem readName_of_stringText {bs : List Char} (blank : ∀ c ∈ bs, isBlank c = true)
    {k : String} {name : List Char} (h : StringText k name) {fuel : Nat}
    (enough : name.length < fuel) (rest : List Char) :
    (readName fuel (bs ++ (name ++ rest)) : Except (ReadError ε) _) = .ok (k, rest) := by
  obtain ⟨tail, text, reads⟩ := readString_of_stringText (ε := ε) h enough rest
  rw [text, readName, skipBlanks_append blank]
  exact reads

section

variable {value : Reader ε Json} {o : Option Json} {os : Option (List (String × Json))}
  {k : String} {name : List Char}

theorem gather_of_reads (done : List (String × Json)) (k : String) {cs tail rest : List Char}
    (opening : skipBlanks cs = ':' :: tail) (reads : value tail = found o rest) :
    gather value done k cs = found (o.map fun v => (k, v) :: done) rest := by
  rw [gather, afterColon, opening]
  change (value tail).map _ = _
  rw [reads]
  cases o <;> rfl

/-- The members are found if the value of the first is and the others are. -/
theorem readMembers_first {fuel : Nat} {bs cs tail cs' rest : List Char}
    (blank : ∀ c ∈ bs, isBlank c = true) (h : StringText k name) (enough : name.length < fuel)
    (opening : skipBlanks cs = ':' :: tail) (first : value tail = found o cs')
    (others : ∀ v, o = some v → readMoreMembers fuel (gather value) fuel [(k, v)] cs' =
      found (os.map fun ms => ms.reverse ++ [(k, v)]) rest) :
    readMembers fuel (gather value) [] (bs ++ (name ++ cs)) =
      found ((o.bind fun v => os.map ((k, v) :: ·)).map List.reverse) rest := by
  have read : readName fuel (name ++ cs) = (.ok (k, cs) : Except (ReadError ε) _) :=
    readName_of_stringText (List.forall_mem_nil _) h enough cs
  obtain ⟨chars, text, -⟩ := readString_of_stringText (ε := ε) h enough cs
  rw [text] at read ⊢
  rw [readMembers, skipBlanks_append blank, skipBlanks_cons rfl]
  change (readName fuel _ >>= _) = _
  rw [read]
  change (gather value [] k cs >>= _) = _
  rw [gather_of_reads [] k opening first]
  cases o with
  | none => rfl
  | some v =>
    refine (others v rfl).trans ?_
    cases os with
    | none => rfl
    | some ms => simp

theorem readMoreMembers_comma {fuel left : Nat} {done : List (String × Json)}
    {bs cs tail tail' cs' rest : List Char} (blank : ∀ c ∈ bs, isBlank c = true)
    (h : StringText k name) (enough : name.length < fuel)
    (comma : skipBlanks cs = ',' :: (bs ++ (name ++ tail)))
    (opening : skipBlanks tail = ':' :: tail') (first : value tail' = found o cs')
    (others : ∀ v, o = some v → readMoreMembers fuel (gather value) left ((k, v) :: done) cs' =
      found (os.map fun ms => ms.reverse ++ (k, v) :: done) rest) :
    readMoreMembers fuel (gather value) (left + 1) done cs =
      found ((o.bind fun v => os.map ((k, v) :: ·)).map fun ms => ms.reverse ++ done) rest := by
  rw [readMoreMembers, comma]
  change (readName fuel _ >>= _) = _
  rw [readName_of_stringText blank h enough tail]
  change (gather value done k tail >>= _) = _
  rw [gather_of_reads done k opening first]
  cases o with
  | none => rfl
  | some v =>
    refine (others v rfl).trans ?_
    cases os with
    | none => rfl
    | some ms => simp

theorem readMoreMembers_close {σ : Type} (fuel left : Nat) (member : MemberReader ε σ) (state : σ)
    {bs : List Char} (blank : ∀ c ∈ bs, isBlank c = true) (rest : List Char) :
    readMoreMembers fuel member (left + 1) state (bs ++ '\x7d' :: rest) = .ok (state, rest) := by
  rw [readMoreMembers, skipBlanks_append blank]
  rfl

end

mutual

/-- A written value reads as it does alone, whatever follows it that does not go on a number. -/
theorem read_styled (s : Style) : ∀ (j : Json) (level fuel depth : Nat) (rest : List Char),
    (j.styled s level).length < fuel → EndsNumber rest →
      (read fuel depth (j.styled s level ++ rest) : Except (ReadError ε) _) =
        found (j.readBack depth) rest
  | .null, _, _, depth, _, _, _ => by cases depth <;> rfl
  | .bool true, _, _, depth, _, _, _ => by cases depth <;> rfl
  | .bool false, _, _, depth, _, _, _ => by cases depth <;> rfl
  | .number n, _, fuel, depth, rest, _, stop => by
    have fits : readBack depth (.number n) = n.reread := if_pos (Nat.zero_le depth)
    rw [fits]
    exact read_writeNumber n fuel depth stop
  | .string v, _, fuel, depth, rest, enough, _ => by
    have fits : readBack depth (.string v) = some (.string v) := if_pos (Nat.zero_le depth)
    rw [fits]
    exact read_of_stringText (stringText_writeString v) enough depth rest
  | .array items, _, _, 0, _, _, _ => by
    have tooDeep : readBack 0 (.array items) = none := if_neg (by rw [Json.depth]; omega)
    rw [tooDeep]
    cases items <;> rfl
  | .object members, _, _, 0, _, _, _ => by
    have tooDeep : readBack 0 (.object members) = none := if_neg (by rw [Json.depth]; omega)
    rw [tooDeep]
    cases members <;> rfl
  | .array [], _, _, depth + 1, _, _, _ => by
    rw [readBack_array]
    rfl
  | .object [], _, _, depth + 1, _, _, _ => by
    rw [readBack_object]
    rfl
  | .array (j :: js), level, fuel, depth + 1, rest, enough, _ => by
    simp only [styled, List.length_append, List.length_cons] at enough
    have first := read_styled s j (level + 1) fuel depth
      (styledItems s (level + 1) js ++ (s.line level ++ ']' :: rest)) (by omega)
      (endsNumber_items s (level + 1) level js rest)
    have others := readMoreItems_styled s js (level + 1) level fuel depth fuel rest (by omega)
      (Nat.le_refl fuel)
    have items := readItems_first (s.blank_line (level + 1))
      ((beginsItem_styled s (level + 1) j).append _) first others
    rw [readBack_array, readBackItems_cons, styled]
    simp only [List.cons_append, List.append_assoc, List.nil_append]
    exact read_array items
  | .object ((k, v) :: ms), level, fuel, depth + 1, rest, enough, _ => by
    simp only [styled, List.length_append, List.length_cons] at enough
    have first := read_styled s v (level + 1) fuel depth
      (styledMembers s (level + 1) ms ++ (s.line level ++ '\x7d' :: rest)) (by omega)
      (endsNumber_members s (level + 1) level ms rest)
    rw [← read_append_blanks s.blank_colon] at first
    have members := readMembers_first (s.blank_line (level + 1)) (stringText_writeString k)
      (by omega) (skipBlanks_cons rfl _) first fun v' _ =>
        readMoreMembers_styled s ms (level + 1) level fuel depth fuel rest [(k, v')] (by omega)
          (Nat.le_refl fuel)
    rw [readBack_object, readBackMembers_cons, styled]
    simp only [List.cons_append, List.append_assoc, List.nil_append]
    exact read_object members

theorem readMoreItems_styled (s : Style) :
    ∀ (js : List Json) (level level' fuel depth left : Nat) (rest : List Char),
      (styledItems s level js).length < left → left ≤ fuel →
        (readMoreItems (read fuel depth) left
          (styledItems s level js ++ (s.line level' ++ ']' :: rest)) : Except (ReadError ε) _) =
          found (readBackItems depth js) rest
  | [], _, level', _, _, left + 1, rest, _, _ => by
    exact readMoreItems_close left _ (s.blank_line level') rest
  | j :: js, level, level', fuel, depth, left + 1, rest, enough, le => by
    simp only [styledItems, List.length_append, List.length_cons] at enough
    have first := read_styled s j level fuel depth
      (styledItems s level js ++ (s.line level' ++ ']' :: rest)) (by omega)
      (endsNumber_items s level level' js rest)
    have others := readMoreItems_styled s js level level' fuel depth left rest (by omega) (by omega)
    rw [← read_append_blanks (s.blank_line level)] at first
    rw [styledItems, readBackItems_cons]
    simp only [List.cons_append, List.append_assoc]
    exact readMoreItems_comma (skipBlanks_cons rfl _) first others

theorem readMoreMembers_styled (s : Style) :
    ∀ (ms : List (String × Json)) (level level' fuel depth left : Nat) (rest : List Char)
      (done : List (String × Json)), (styledMembers s level ms).length < left → left ≤ fuel →
        (readMoreMembers fuel (gather (read fuel depth)) left done
          (styledMembers s level ms ++ (s.line level' ++ '\x7d' :: rest)) :
            Except (ReadError ε) _) =
          found ((readBackMembers depth ms).map fun ms' => ms'.reverse ++ done) rest
  | [], _, level', fuel, _, left + 1, rest, done, _, _ => by
    exact readMoreMembers_close fuel left _ done (s.blank_line level') rest
  | (k, v) :: ms, level, level', fuel, depth, left + 1, rest, done, enough, le => by
    simp only [styledMembers, List.length_append, List.length_cons] at enough
    have first := read_styled s v level fuel depth
      (styledMembers s level ms ++ (s.line level' ++ '\x7d' :: rest)) (by omega)
      (endsNumber_members s level level' ms rest)
    rw [← read_append_blanks s.blank_colon] at first
    rw [styledMembers, readBackMembers_cons]
    simp only [List.cons_append, List.append_assoc]
    exact readMoreMembers_comma (s.blank_line level) (stringText_writeString k) (by omega)
      (skipBlanks_cons rfl _) (skipBlanks_cons rfl _) first fun v' _ =>
        readMoreMembers_styled s ms level level' fuel depth left rest ((k, v') :: done) (by omega)
          (by omega)

end

/-- A whole text reads as what is found in it before the blanks at its end. -/
theorem readAll_of_reads {α : Type} {reader : Nat → Reader ε α} {text : String} {o : Option α}
    {bs : List Char} (blank : ∀ c ∈ bs, isBlank c = true)
    (reads : reader (text.toList.length + 1) text.toList = found o bs) :
    readAll reader text = o.elim (.error .malformed) .ok := by
  rw [readAll, reads]
  cases o with
  | none => rfl
  | some a =>
    change (if (skipBlanks bs).isEmpty then _ else _) = _
    rw [skipBlanks_blanks blank]
    rfl

/-- A whole document reads as the value it was written for, whatever blanks follow it. -/
theorem readAll_styled_append (s : Style) (j : Json) (level depth : Nat) {bs : List Char}
    (blank : ∀ c ∈ bs, isBlank c = true) :
    (readAll (read · depth) (String.ofList (j.styled s level ++ bs)) : Except (ReadError ε) _) =
      (j.readBack depth).elim (.error .malformed) .ok := by
  refine readAll_of_reads blank ?_
  rw [String.toList_ofList]
  have enough : (j.styled s level).length < (j.styled s level ++ bs).length + 1 := by
    rw [List.length_append]
    omega
  exact read_styled s j level _ depth bs enough (endsNumber_blanks blank)

theorem readAll_styled (s : Style) (j : Json) (level depth : Nat) :
    (readAll (read · depth) (String.ofList (j.styled s level)) : Except (ReadError ε) _) =
      (j.readBack depth).elim (.error .malformed) .ok := by
  have read := readAll_styled_append (ε := ε) s j level depth (List.forall_mem_nil _)
  rw [List.append_nil] at read
  exact read

end

end CellFormula.Json
