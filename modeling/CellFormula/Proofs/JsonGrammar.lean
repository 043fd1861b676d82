import CellFormula.Proofs.Decoding
import CellFormula.Proofs.JsonText

/-!
# Texts of JSON values

A value has many texts: blanks may stand around every token, and strings and numbers can be written
in several ways. Each text of a value reads as that value, if it nests no deeper than the reader
goes.
-/

namespace CellFormula.Json

def Blanks (bs : List Char) : Prop :=
  ∀ c ∈ bs, isBlank c = true

/-- The numerals that read as a number. Not every numeral has a reading: one may be too large or
begin with a superfluous zero. -/
def NumberText (n : JsonNumber) (cs : List Char) : Prop :=
  ∃ (negative : Bool) (ds : List Char), IsNumeral ds ∧
    cs = (if negative then ['-'] else []) ++ ds ∧
      (readUnsigned negative ds : Except (ReadError Empty) _) = .ok (n, [])

/-- The texts of a member, given those of its value. -/
def MemberText (k : String) (value : List Char → Prop) (cs : List Char) : Prop :=
  ∃ name bs bs' v, StringText k name ∧ Blanks bs ∧ Blanks bs' ∧ value v ∧
    cs = name ++ (bs ++ ':' :: (bs' ++ v))

mutual

def HasText : Json → List Char → Prop
  | .null, cs => cs = "null".toList
  | .bool b, cs => cs = (if b then "true" else "false").toList
  | .number n, cs => NumberText n cs
  | .string s, cs => StringText s cs
  | .array [], cs => ∃ bs, Blanks bs ∧ cs = '[' :: (bs ++ [']'])
  | .array (j :: js), cs => ∃ bs item items, Blanks bs ∧ j.HasText item ∧ HasMoreItems js items ∧
    cs = '[' :: (bs ++ (item ++ items))
  | .object [], cs => ∃ bs, Blanks bs ∧ cs = '\x7b' :: (bs ++ ['\x7d'])
  | .object ((k, v) :: ms), cs => ∃ bs member members, Blanks bs ∧
    MemberText k v.HasText member ∧ HasMoreMembers ms members ∧
      cs = '\x7b' :: (bs ++ (member ++ members))

/-- The texts of the further items of an array, up to its closing bracket. -/
def HasMoreItems : List Json → List Char → Prop
  | [], cs => ∃ bs, Blanks bs ∧ cs = bs ++ [']']
  | j :: js, cs => ∃ bs bs' item items, Blanks bs ∧ Blanks bs' ∧ j.HasText item ∧
    HasMoreItems js items ∧ cs = bs ++ ',' :: (bs' ++ (item ++ items))

/-- The texts of the further members of an object, up to its closing brace. -/
def HasMoreMembers : List (String × Json) → List Char → Prop
  | [], cs => ∃ bs, Blanks bs ∧ cs = bs ++ ['\x7d']
  | (k, v) :: ms, cs => ∃ bs bs' member members, Blanks bs ∧ Blanks bs' ∧
    MemberText k v.HasText member ∧ HasMoreMembers ms members ∧
      cs = bs ++ ',' :: (bs' ++ (member ++ members))

end

/-- The texts of a whole document. -/
def IsDocument (j : Json) (text : String) : Prop :=
  ∃ bs cs bs', Blanks bs ∧ j.HasText cs ∧ Blanks bs' ∧ text.toList = bs ++ (cs ++ bs')

theorem skipBlanks_dark {bs : List Char} (blank : Blanks bs) {c : Char} (dark : isBlank c = false)
    (cs : List Char) : skipBlanks (bs ++ c :: cs) = c :: cs :=
  (skipBlanks_append blank _).trans (skipBlanks_cons dark _)

theorem NumberText.beginsItem {n : JsonNumber} {cs : List Char} (h : NumberText n cs) :
    BeginsItem cs := by
  obtain ⟨negative, ds, numeral, rfl, -⟩ := h
  exact numeral.beginsItem negative

theorem HasText.beginsItem {j : Json} {cs : List Char} (h : j.HasText cs) : BeginsItem cs := by
  match j, h with
  | .null, h => exact ⟨_, _, h, rfl, by decide⟩
  | .bool true, h => exact ⟨_, _, h, rfl, by decide⟩
  | .bool false, h => exact ⟨_, _, h, rfl, by decide⟩
  | .number n, h => exact NumberText.beginsItem h
  | .string s, ⟨parts, _, h⟩ => exact ⟨_, _, h, rfl, by decide⟩
  | .array [], ⟨bs, _, h⟩ => exact ⟨_, _, h, rfl, by decide⟩
  | .array (_ :: _), ⟨_, _, _, _, _, _, h⟩ => exact ⟨_, _, h, rfl, by decide⟩
  | .object [], ⟨bs, _, h⟩ => exact ⟨_, _, h, rfl, by decide⟩
  | .object ((_, _) :: _), ⟨_, _, _, _, _, _, h⟩ => exact ⟨_, _, h, rfl, by decide⟩

theorem endsNumber_dark {bs : List Char} (blank : Blanks bs) {c : Char} (digit : c.isDigit = false)
    (other : c ≠ '.' ∧ c ≠ 'e' ∧ c ≠ 'E') (rest : List Char) : EndsNumber (bs ++ c :: rest) :=
  endsNumber_append blank ⟨digit, other⟩

theorem HasMoreItems.endsNumber {js : List Json} {cs : List Char} (h : HasMoreItems js cs)
    (rest : List Char) : EndsNumber (cs ++ rest) := by
  cases js with
  | nil =>
    obtain ⟨bs, blank, rfl⟩ := h
    simpa using endsNumber_dark blank (c := ']') rfl (by decide) rest
  | cons j js =>
    obtain ⟨bs, bs', item, items, blank, -, -, -, rfl⟩ := h
    simpa using endsNumber_dark blank (c := ',') rfl (by decide) _

theorem HasMoreMembers.endsNumber {ms : List (String × Json)} {cs : List Char}
    (h : HasMoreMembers ms cs) (rest : List Char) : EndsNumber (cs ++ rest) := by
  cases ms with
  | nil =>
    obtain ⟨bs, blank, rfl⟩ := h
    simpa using endsNumber_dark blank (c := '\x7d') rfl (by decide) rest
  | cons m ms =>
    obtain ⟨bs, bs', member, members, blank, -, -, -, rfl⟩ := h
    simpa using endsNumber_dark blank (c := ',') rfl (by decide) _

section

variable {ε : Type}

theorem read_of_numberText {n : JsonNumber} {cs : List Char} (h : NumberText n cs)
    (fuel depth : Nat) {rest : List Char} (stop : EndsNumber rest) :
    (read fuel depth (cs ++ rest) : Except (ReadError ε) _) = .ok (.number n, rest) := by
  obtain ⟨negative, ds, numeral, rfl, alone⟩ := h
  obtain ⟨o, reads⟩ := hasReading_unsigned negative numeral
  have here : readUnsigned negative (ds ++ []) = found o [] := reads Empty [] trivial
  rw [List.append_nil, alone] at here
  cases o with
  | none => cases here
  | some n' =>
    cases here
    have inner : readUnsigned negative (ds ++ rest) = found (some n) rest := reads ε rest stop
    rw [read_signed numeral, inner]
    rfl

mutual

theorem read_of_hasText : ∀ (j : Json) (cs : List Char) (fuel depth : Nat) (rest : List Char),
    j.HasText cs → cs.length < fuel → j.depth ≤ depth → EndsNumber rest →
      (read fuel depth (cs ++ rest) : Except (ReadError ε) _) = found (some j) rest
  | .null, _, _, depth, _, h, _, _, _ => by
    rw [h]
    cases depth <;> rfl
  | .bool true, _, _, depth, _, h, _, _, _ => by
    rw [h]
    cases depth <;> rfl
  | .bool false, _, _, depth, _, h, _, _, _ => by
    rw [h]
    cases depth <;> rfl
  | .number _, _, fuel, depth, _, h, _, _, stop => read_of_numberText h fuel depth stop
  | .string _, _, _, depth, rest, h, enough, _, _ => read_of_stringText h enough depth rest
  | .array items, _, _, 0, _, _, _, fits, _ => by
    rw [depth] at fits
    omega
  | .object members, _, _, 0, _, _, _, fits, _ => by
    rw [depth] at fits
    omega
  | .array [], _, fuel, depth + 1, rest, h, _, _, _ => by
    obtain ⟨bs, blank, rfl⟩ := h
    rw [List.cons_append, read_bracket (skipBlanks_cons rfl _), List.append_assoc, readItems,
      List.singleton_append, skipBlanks_dark blank rfl]
    rfl
  | .array (j :: js), _, fuel, depth + 1, rest, h, enough, fits, _ => by
    obtain ⟨bs, item, items, blank, hj, hjs, rfl⟩ := h
    simp only [List.length_cons, List.length_append] at enough
    rw [Json.depth, depthItems] at fits
    have first := read_of_hasText j item fuel depth (items ++ rest) hj (by omega) (by omega)
      (hjs.endsNumber rest)
    have others := readMoreItems_of_hasMoreItems js items fuel depth fuel rest hjs (by omega)
      (Nat.le_refl fuel) (by omega)
    have items := readItems_first blank (hj.beginsItem.append _) first others
    simp only [List.cons_append, List.append_assoc]
    exact read_array items
  | .object [], _, fuel, depth + 1, rest, h, _, _, _ => by
    obtain ⟨bs, blank, rfl⟩ := h
    rw [List.cons_append, read_brace (skipBlanks_cons rfl _), List.append_assoc, readMembers,
      List.singleton_append, skipBlanks_dark blank rfl]
    rfl
  | .object ((k, v) :: ms), _, fuel, depth + 1, rest, h, enough, fits, _ => by
    obtain ⟨bs, _, members, blank, ⟨name, bs', bs'', value, hk, blank', blank'', hv, rfl⟩, hms,
      rfl⟩ := h
    simp only [List.length_cons, List.length_append] at enough
    rw [Json.depth, depthMembers] at fits
    have first := read_of_hasText v value fuel depth (members ++ rest) hv (by omega) (by omega)
      (hms.endsNumber rest)
    rw [← read_append_blanks blank''] at first
    have members := readMembers_first blank hk (by omega)
      (skipBlanks_dark blank' rfl _) first fun v' _ =>
        readMoreMembers_of_hasMoreMembers ms members fuel depth fuel rest [(k, v')] hms (by omega)
          (Nat.le_refl fuel) (by omega)
    simp only [List.cons_append, List.append_assoc]
    exact read_object members

theorem readMoreItems_of_hasMoreItems :
    ∀ (js : List Json) (cs : List Char) (fuel depth left : Nat) (rest : List Char),
      HasMoreItems js cs → cs.length < left → left ≤ fuel → depthItems js ≤ depth →
        (readMoreItems (read fuel depth) left (cs ++ rest) : Except (ReadError ε) _) =
          found (some js) rest
  | [], _, _, _, left + 1, rest, h, _, _, _ => by
    obtain ⟨bs, blank, rfl⟩ := h
    rw [List.append_assoc]
    exact readMoreItems_close left _ blank rest
  | j :: js, _, fuel, depth, left + 1, rest, h, enough, le, fits => by
    obtain ⟨bs, bs', item, items, blank, blank', hj, hjs, rfl⟩ := h
    simp only [List.length_cons, List.length_append] at enough
    rw [depthItems] at fits
    have first := read_of_hasText j item fuel depth (items ++ rest) hj (by omega) (by omega)
      (hjs.endsNumber rest)
    rw [← read_append_blanks blank'] at first
    have others := readMoreItems_of_hasMoreItems js items fuel depth left rest hjs (by omega)
      (by omega) (by omega)
    simp only [List.append_assoc, List.cons_append]
    exact readMoreItems_comma (skipBlanks_dark blank rfl _) first others

theorem readMoreMembers_of_hasMoreMembers :
    ∀ (ms : List (String × Json)) (cs : List Char) (fuel depth left : Nat) (rest : List Char)
      (done : List (String × Json)), HasMoreMembers ms cs → cs.length < left → left ≤ fuel →
        depthMembers ms ≤ depth →
          (readMoreMembers fuel (gather (read fuel depth)) left done (cs ++ rest) :
            Except (ReadError ε) _) = found ((some ms).map fun ms => ms.reverse ++ done) rest
  | [], _, fuel, _, left + 1, rest, done, h, _, _, _ => by
    obtain ⟨bs, blank, rfl⟩ := h
    rw [List.append_assoc]
    exact readMoreMembers_close fuel left _ done blank rest
  | (k, v) :: ms, _, fuel, depth, left + 1, rest, done, h, enough, le, fits => by
    obtain ⟨bs, bs', _, members, blank, blank', ⟨name, bs'', bs₃, value, hk, blank'', blank₃, hv,
      rfl⟩, hms, rfl⟩ := h
    simp only [List.length_cons, List.length_append] at enough
    rw [depthMembers] at fits
    have first := read_of_hasText v value fuel depth (members ++ rest) hv (by omega) (by omega)
      (hms.endsNumber rest)
    rw [← read_append_blanks blank₃] at first
    simp only [List.append_assoc, List.cons_append]
    exact readMoreMembers_comma blank' hk (by omega)
      (skipBlanks_dark blank rfl _) (skipBlanks_dark blank'' rfl _) first fun v' _ =>
        readMoreMembers_of_hasMoreMembers ms members fuel depth left rest ((k, v') :: done) hms
          (by omega) (by omega) (by omega)

end

/-- Every text of a value that nests no deeper than the reader goes reads as that value. -/
theorem readAll_of_isDocument {j : Json} {text : String} (h : j.IsDocument text) {depth : Nat}
    (fits : j.depth ≤ depth) : (readAll (read · depth) text : Except (ReadError ε) _) = .ok j := by
  obtain ⟨bs, cs, bs', blank, value, blank', written⟩ := h
  have enough : cs.length < text.toList.length + 1 := by
    rw [written, List.length_append, List.length_append]
    omega
  have reads := read_of_hasText (ε := ε) j cs (text.toList.length + 1) depth bs' value enough fits
    (endsNumber_blanks blank')
  rw [← read_append_blanks blank, ← written] at reads
  exact readAll_of_reads (o := some j) blank' reads

end

end CellFormula.Json
