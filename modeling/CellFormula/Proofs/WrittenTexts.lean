import CellFormula.Proofs.JsonGrammar
import CellFormula.Proofs.NumberTexts

/-!
# Written texts

What is written for a value is one of the texts of the value, in every layout, if the texts of its
numbers read as these numbers. A number of a tree is written with a point or an exponent, so that it
is not read as an integer.
-/

namespace CellFormula

namespace Json

theorem reread_of_text {n : JsonNumber} {negative : Bool} {cs : List Char} (numeral : IsNumeral cs)
    (text : writeNumber n = (if negative then ['-'] else []) ++ cs) {j : Json}
    (h : n.reread = some j) :
    ∃ n', (readUnsigned negative cs : Except (ReadError Empty) _) = .ok (n', []) ∧
      j = .number n' := by
  obtain ⟨o, reads⟩ := hasReading_unsigned negative numeral
  have unsigned : (readUnsigned negative (cs ++ []) : Except (ReadError Empty) _) = found o [] :=
    reads Empty [] trivial
  have read := read_signed (ε := Empty) numeral negative 0 0 []
  rw [unsigned, List.append_nil] at read
  rw [JsonNumber.reread, text, read] at h
  rw [List.append_nil] at unsigned
  cases o with
  | none => cases h
  | some n' =>
    cases h
    exact ⟨n', unsigned, rfl⟩

theorem numberText_written {n : JsonNumber} (h : n.reread = some (.number n)) :
    NumberText n (writeNumber n) := by
  have text : ∃ (negative : Bool) (cs : List Char), IsNumeral cs ∧
      writeNumber n = (if negative then ['-'] else []) ++ cs := by
    cases n with
    | integer n => exact integer_text n
    | real x =>
      cases finite : x.isFinite with
      | true =>
        obtain ⟨cs, numeral, text⟩ := document_of_isFinite finite
        exact ⟨x.negative, cs, numeral, text⟩
      | false =>
        rw [JsonNumber.reread, writeNumber, document_of_not_isFinite finite] at h
        cases h
  obtain ⟨negative, cs, numeral, text⟩ := text
  obtain ⟨n', read, eq⟩ := reread_of_text numeral text h
  cases eq
  exact ⟨negative, cs, numeral, text, read⟩

section

variable {ε : Type}

/-- Only digits alone read as an integer. -/
theorem exists_real_of_readUnsigned {negative : Bool} {cs : List Char} (numeral : IsNumeral cs)
    (marked : ∃ c ∈ cs, c.isDigit = false) {n : JsonNumber}
    (h : (readUnsigned negative cs : Except (ReadError ε) _) = .ok (n, [])) :
    ∃ x, n = .real x := by
  -- What follows the leading digits is not nothing, and neither branch for it gives an integer.
  have after : ∀ {ws rest : List Char}, IsDigits ws → startsWithDigit rest = false →
      ws ++ rest = cs → (∃ n' extra : Nat, (afterDigits negative n' extra rest :
        Except (ReadError ε) _) = .ok (n, [])) := by
    intro ws rest digits stop eq
    rcases readUnsigned_of_digits negative digits with ⟨n', extra, reads⟩ | malformed
    · rw [← eq, reads ε rest stop] at h
      exact ⟨n', extra, h⟩
    · rw [← eq, malformed ε rest stop] at h
      cases h
  cases numeral with
  | @whole ws es digits exponent =>
    cases exponent with
    | none =>
      obtain ⟨c, hc, mark⟩ := marked
      rw [List.append_nil] at hc
      rw [digits.2 c hc] at mark
      cases mark
    | lower | upper =>
      obtain ⟨n', extra, read⟩ := after digits rfl rfl
      obtain ⟨x, eq, -⟩ := realOf_readExponent read
      exact ⟨x, eq⟩
  | fraction digits digits' exponent =>
    obtain ⟨n', extra, read⟩ := after digits rfl rfl
    obtain ⟨x, eq, -⟩ := realOf_readFraction read
    exact ⟨x, eq⟩

end

section

variable (s : Style)

theorem memberText_written (k : String) {value : List Char → Prop} {cs : List Char}
    (h : value cs) : MemberText k value (writeString k ++ ':' :: (s.colon ++ cs)) :=
  ⟨_, [], _, _, stringText_writeString k, List.forall_mem_nil _, s.blank_colon, h, rfl⟩

theorem rereadItems_cons_eq_self {j : Json} {js : List Json}
    (h : rereadItems (j :: js) = some (j :: js)) :
    j.reread = some j ∧ rereadItems js = some js := by
  simp only [rereadItems, Option.bind_eq_some_iff, Option.map_eq_some_iff] at h
  obtain ⟨j', hj, js', hjs, eq⟩ := h
  cases eq
  exact ⟨hj, hjs⟩

theorem rereadMembers_cons_eq_self {k : String} {v : Json} {ms : List (String × Json)}
    (h : rereadMembers ((k, v) :: ms) = some ((k, v) :: ms)) :
    v.reread = some v ∧ rereadMembers ms = some ms := by
  obtain ⟨v', ms', hv, hms, eq⟩ := rereadMembers_cons_eq_some_iff.mp h
  cases eq
  exact ⟨hv, hms⟩

mutual

theorem hasText_styled : ∀ (j : Json) (level : Nat), j.reread = some j →
    j.HasText (j.styled s level)
  | .null, _, _ => rfl
  | .bool _, _, _ => rfl
  | .number _, _, h => numberText_written h
  | .string v, _, _ => stringText_writeString v
  | .array [], _, _ => ⟨[], List.forall_mem_nil _, rfl⟩
  | .array (j :: js), level, h => by
    have items : rereadItems (j :: js) = some (j :: js) := by
      obtain ⟨items, h, eq⟩ := Option.map_eq_some_iff.mp h
      cases eq
      exact h
    obtain ⟨first, rest⟩ := rereadItems_cons_eq_self items
    refine ⟨_, _, _, s.blank_line (level + 1), hasText_styled j (level + 1) first,
      hasMoreItems_styled js (level + 1) (s.blank_line level) rest, ?_⟩
    simp [styled]
  | .object [], _, _ => ⟨[], List.forall_mem_nil _, rfl⟩
  | .object ((k, v) :: ms), level, h => by
    have members : rereadMembers ((k, v) :: ms) = some ((k, v) :: ms) := by
      obtain ⟨members, h, eq⟩ := Option.map_eq_some_iff.mp h
      cases eq
      exact h
    obtain ⟨first, rest⟩ := rereadMembers_cons_eq_self members
    refine ⟨_, _, _, s.blank_line (level + 1),
      memberText_written s k (hasText_styled v (level + 1) first),
      hasMoreMembers_styled ms (level + 1) (s.blank_line level) rest, ?_⟩
    simp [styled]

theorem hasMoreItems_styled : ∀ (js : List Json) (level : Nat) {bs : List Char}, Blanks bs →
    rereadItems js = some js → HasMoreItems js (styledItems s level js ++ (bs ++ [']']))
  | [], _, bs, blank, _ => ⟨bs, blank, rfl⟩
  | j :: js, level, bs, blank, h => by
    obtain ⟨first, rest⟩ := rereadItems_cons_eq_self h
    refine ⟨[], _, _, _, List.forall_mem_nil _, s.blank_line level, hasText_styled j level first,
      hasMoreItems_styled js level blank rest, ?_⟩
    simp [styledItems]

theorem hasMoreMembers_styled : ∀ (ms : List (String × Json)) (level : Nat) {bs : List Char},
    Blanks bs → rereadMembers ms = some ms →
      HasMoreMembers ms (styledMembers s level ms ++ (bs ++ ['\x7d']))
  | [], _, bs, blank, _ => ⟨bs, blank, rfl⟩
  | (k, v) :: ms, level, bs, blank, h => by
    obtain ⟨first, rest⟩ := rereadMembers_cons_eq_self h
    refine ⟨[], _, _, _, List.forall_mem_nil _, s.blank_line level,
      memberText_written s k (hasText_styled v level first),
      hasMoreMembers_styled ms level blank rest, ?_⟩
    simp [styledMembers]

end

end

theorem isDocument_toText {j : Json} (h : j.reread = some j) : j.IsDocument j.toText := by
  refine ⟨[], _, [], List.forall_mem_nil _, hasText_styled .compact j 0 h, List.forall_mem_nil _,
    ?_⟩
  simp [toText, compact_eq_styled j 0]

end Json

/-- A finite number is written with a point or an exponent. -/
theorem Binary64.exists_mark {x : Binary64} (finite : x.isFinite = true) :
    ∃ c ∈ Layout.document.write x, c ≠ '-' ∧ c.isDigit = false := by
  by_cases zero : x.isZero = true
  · refine ⟨'.', ?_, by decide, rfl⟩
    simp [Layout.write, isNaN_of_isFinite finite, finite, zero, Layout.document]
  · have nonzero : x.isZero = false := by simpa using zero
    rw [document_of_nonzero finite nonzero]
    have wellFormed := (wellFormed_shortest nonzero .even).1
    split
    all_goals
      split
      · obtain ⟨ws, ds, text, -⟩ := Json.positional_plain wellFormed
        exact ⟨'.', by simp [text], by decide, rfl⟩
      · exact ⟨'e', by simp [Layout.scientific], by decide, rfl⟩

theorem JsonNumber.reread_real {x : Binary64} (finite : x.isFinite = true)
    (h : x.reread = some x) : (JsonNumber.real x).reread = some (.number (.real x)) := by
  obtain ⟨cs, numeral, text⟩ := Json.document_of_isFinite finite
  have marked : ∃ c ∈ cs, c.isDigit = false := by
    obtain ⟨c, hc, sign, mark⟩ := Binary64.exists_mark finite
    refine ⟨c, ?_, mark⟩
    rw [text] at hc
    cases negative : x.negative with
    | true => simpa [negative, sign] using hc
    | false => simpa [negative] using hc
  unfold Binary64.reread at h
  split at h
  · next n read =>
    obtain ⟨n', unsigned, eq⟩ := Json.reread_of_text (n := .real x) numeral text read
    cases eq
    obtain ⟨y, rfl⟩ := Json.exists_real_of_readUnsigned numeral marked unsigned
    cases h
    exact read
  · cases h

namespace Formula

theorem rereadItems_ofFormulas {fs : List Formula}
    (h : ∀ f ∈ fs, f.toJson.reread = some f.toJson) :
    Json.rereadItems (Node.toJsons (Node.ofFormulas fs)) =
      some (Node.toJsons (Node.ofFormulas fs)) := by
  induction fs with
  | nil => rfl
  | cons f fs ih =>
    obtain ⟨first, rest⟩ := List.forall_mem_cons.mp h
    have first : (Node.ofFormula f).toJson.reread = some (Node.ofFormula f).toJson := first
    simp [Node.ofFormulas, Node.toJsons, Json.rereadItems, first, ih rest]

/-- The document of a finite tree that keeps its numbers holds numbers only that read as they are
written. -/
theorem reread_toJson {f : Formula} (kept : f.KeepsNumbers) (finite : f.Finite) :
    f.toJson.reread = some f.toJson := by
  induction f using induction with
  | cell | text => rfl
  | number x =>
    have read := JsonNumber.reread_real finite (kept finite)
    simp [toJson, Node.ofFormula, Node.toJson, Json.reread, Json.rereadMembers, read]
  | chain operands operators ih =>
    have kept := everyOf_iff.mp kept.2
    have finite := everyOf_iff.mp finite.2
    have args := rereadItems_ofFormulas fun f hf => ih f hf (kept f hf) (finite f hf)
    cases operators <;>
      simp [toJson, Node.ofFormula, Node.toJson, Node.optionalMember, Json.reread,
        Json.rereadMembers, Json.reread_strings, args]
  | conditional comparator l r t f ihl ihr iht ihf =>
    obtain ⟨-, kl, kr, kt, kf⟩ := kept
    obtain ⟨-, fl, fr, ft, ff⟩ := finite
    have left := ihl kl fl
    have right := ihr kr fr
    have whenTrue := iht kt ft
    have whenFalse := ihf kf ff
    simp only [toJson] at left right whenTrue whenFalse
    simp [toJson, Node.ofFormula, Node.toJson, Json.reread, Json.rereadMembers, left, right,
      whenTrue, whenFalse]
  | call name arguments ih =>
    have kept := everyOf_iff.mp kept.2
    have finite := everyOf_iff.mp finite.2
    have args := rereadItems_ofFormulas fun f hf => ih f hf (kept f hf) (finite f hf)
    simp [toJson, Node.ofFormula, Node.toJson, Json.reread, Json.rereadMembers, args]

end Formula

end CellFormula
