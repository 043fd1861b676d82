import CellFormula.Json.Read
import CellFormula.Json.Write
import CellFormula.Proofs.Shortest

/-!
# Written numbers read again

The text of a number has one reading, whatever follows it in a document: nothing that can follow
could belong to the number. The reading need not be the number, since the reader rounds more than
once.
-/

namespace CellFormula

namespace Json

/-- The outcome of a reader that is malformed where it finds nothing. -/
def found {ε α : Type} (o : Option α) (rest : List Char) : Except (ReadError ε) (α × List Char) :=
  o.elim (.error .malformed) fun a => .ok (a, rest)

/-- The text begins with nothing that could go on a number. -/
def EndsNumber : List Char → Prop
  | [] => True
  | c :: _ => c.isDigit = false ∧ c ≠ '.' ∧ c ≠ 'e' ∧ c ≠ 'E'

theorem EndsNumber.startsWithDigit {rest : List Char} (h : EndsNumber rest) :
    startsWithDigit rest = false := by
  cases rest with
  | nil => rfl
  | cons c rest => exact h.1

def IsDigits (ds : List Char) : Prop :=
  ds ≠ [] ∧ ∀ d ∈ ds, d.isDigit = true

theorem startsWithDigit_append {ds rest : List Char} (stop : startsWithDigit rest = false) :
    startsWithDigit (ds ++ rest) = startsWithDigit ds := by
  cases ds with
  | nil => exact stop
  | cons d ds => rfl

theorem IsDigits.starts {ds : List Char} (h : IsDigits ds) (rest : List Char) :
    startsWithDigit (ds ++ rest) = true := by
  cases ds with
  | nil => exact absurd rfl h.1
  | cons d ds => exact h.2 d List.mem_cons_self

theorem dropWhile_append_digits {ds rest : List Char} (digits : ∀ d ∈ ds, d.isDigit = true)
    (stop : startsWithDigit rest = false) : (ds ++ rest).dropWhile Char.isDigit = rest := by
  rw [List.dropWhile_append_of_pos digits]
  cases rest with
  | nil => rfl
  | cons c rest =>
    have other : c.isDigit = false := stop
    simp [other]

theorem dropWhile_of_stop {rest : List Char} (stop : startsWithDigit rest = false) :
    rest.dropWhile Char.isDigit = rest := by
  simpa using dropWhile_append_digits (List.forall_mem_nil _) stop

theorem takeWhile_append_digits {ds rest : List Char} (digits : ∀ d ∈ ds, d.isDigit = true)
    (stop : startsWithDigit rest = false) : (ds ++ rest).takeWhile Char.isDigit = ds := by
  rw [List.takeWhile_append_of_pos digits]
  cases rest with
  | nil => simp
  | cons c rest =>
    have other : c.isDigit = false := stop
    simp [other]

/-- Digits are gathered in the same way whatever follows them. -/
theorem takeDigits_append (bound value count : Nat) {ds : List Char}
    (digits : ∀ d ∈ ds, d.isDigit = true) :
    ∃ v k left, (∀ d ∈ left, d.isDigit = true) ∧
      ∀ rest, startsWithDigit rest = false →
        takeDigits bound value count (ds ++ rest) = (v, k, left ++ rest) := by
  induction ds generalizing value count with
  | nil =>
    refine ⟨value, count, [], by simp, fun rest stop => ?_⟩
    cases rest with
    | nil => rfl
    | cons c rest =>
      have other : c.isDigit = false := stop
      simp [takeDigits, other]
  | cons d ds ih =>
    obtain ⟨first, more⟩ := List.forall_mem_cons.mp digits
    by_cases room : 10 * value + Numeral.digitValue d < bound
    · obtain ⟨v, k, left, hleft, reads⟩ := ih (10 * value + Numeral.digitValue d) (count + 1) more
      refine ⟨v, k, left, hleft, fun rest stop => ?_⟩
      simp [takeDigits, first, room, reads rest stop]
    · refine ⟨value, count, d :: ds, digits, fun rest _ => ?_⟩
      simp [takeDigits, room]

/-- The text has one reading, in front of whatever ends a number. -/
def HasReading (reader : (ε : Type) → Reader ε JsonNumber) (cs : List Char) : Prop :=
  ∃ o : Option JsonNumber, ∀ ε rest, EndsNumber rest → reader ε (cs ++ rest) = found o rest

theorem scaled_cases (negative : Bool) (significand : Nat) (e : Int) :
    ∃ o : Option JsonNumber, ∀ ε : Type,
      (scaled negative significand e : Except (ReadError ε) JsonNumber) =
        o.elim (.error .malformed) .ok := by
  unfold scaled
  dsimp only
  split
  · exact ⟨some _, fun _ => rfl⟩
  · split
    · split
      · exact ⟨some _, fun _ => rfl⟩
      · exact ⟨none, fun _ => rfl⟩
    · split
      · exact ⟨some _, fun _ => rfl⟩
      · exact ⟨none, fun _ => rfl⟩

theorem hasReading_scaled (negative : Bool) (significand : Nat) (e : Int) :
    HasReading (fun _ cs => (scaled negative significand e).map (·, cs)) [] := by
  obtain ⟨o, h⟩ := scaled_cases negative significand e
  refine ⟨o, fun ε rest _ => ?_⟩
  simp only [h ε, List.nil_append]
  cases o <;> rfl

theorem HasReading.of_scaled {reader : (ε : Type) → Reader ε JsonNumber} {cs : List Char}
    {negative : Bool} {significand : Nat} {e : Int}
    (h : ∀ ε rest, EndsNumber rest →
      reader ε (cs ++ rest) = (scaled negative significand e).map (·, rest)) :
    HasReading reader cs := by
  obtain ⟨o, ho⟩ := hasReading_scaled negative significand e
  exact ⟨o, fun ε rest stop => (h ε rest stop).trans (ho ε rest stop)⟩

theorem HasReading.of_eq {reader reader' : (ε : Type) → Reader ε JsonNumber} {cs cs' : List Char}
    (h : HasReading reader' cs')
    (same : ∀ ε rest, EndsNumber rest → reader ε (cs ++ rest) = reader' ε (cs' ++ rest)) :
    HasReading reader cs := by
  obtain ⟨o, ho⟩ := h
  exact ⟨o, fun ε rest stop => (same ε rest stop).trans (ho ε rest stop)⟩

/-- The sign of an exponent, which may be missing. -/
def IsSign (sign : List Char) : Prop :=
  sign = [] ∨ sign = ['+'] ∨ sign = ['-']

theorem signed_sign {sign : List Char} (h : IsSign sign) :
    ∃ down, ∀ cs, startsWithDigit cs = true → Numeral.signed (sign ++ cs) = (down, cs) := by
  rcases h with rfl | rfl | rfl
  · refine ⟨false, fun cs digit => ?_⟩
    rw [List.nil_append]
    unfold Numeral.signed
    split
    · cases digit
    · cases digit
    · rfl
  · exact ⟨false, fun _ _ => rfl⟩
  · exact ⟨true, fun _ _ => rfl⟩

theorem hasReading_exponent (negative : Bool) (significand : Nat) (e : Int)
    {sign ks : List Char} (h : IsSign sign) (digits : IsDigits ks) :
    HasReading (fun _ => readExponent negative significand e) (sign ++ ks) := by
  obtain ⟨down, signed⟩ := signed_sign h
  obtain ⟨k, count, left, hleft, reads⟩ := takeDigits_append (2 ^ 31) 0 0 digits.2
  have unfolds : ∀ ε rest, EndsNumber rest →
      (readExponent negative significand e (sign ++ ks ++ rest) : Except (ReadError ε) _) =
        if startsWithDigit left then
          if significand ≠ 0 ∧ !down then .error .malformed
          else .ok (.real (.zero negative), rest)
        else (scaled negative significand (if down then e - k else e + k)).map
          (·, left ++ rest) := by
    intro ε rest stop
    have starts := digits.starts rest
    have ne : (ks ++ rest).isEmpty = false := by
      cases ks with
      | nil => exact absurd rfl digits.1
      | cons d ds => rfl
    simp only [readExponent, List.append_assoc, signed (ks ++ rest) starts, ne, starts,
      reads rest stop.startsWithDigit, startsWithDigit_append stop.startsWithDigit,
      dropWhile_append_digits hleft stop.startsWithDigit, Bool.not_true, Bool.false_eq_true,
      if_false]
  cases left with
  | nil =>
    apply HasReading.of_scaled
    intro ε rest stop
    rw [unfolds ε rest stop]
    rfl
  | cons d left =>
    have beyond : startsWithDigit (d :: left) = true := hleft d List.mem_cons_self
    by_cases large : significand ≠ 0 ∧ (!down) = true
    · refine ⟨none, fun ε rest stop => (unfolds ε rest stop).trans ?_⟩
      rw [if_pos beyond, if_pos large]
      rfl
    · refine ⟨some (.real (.zero negative)), fun ε rest stop => (unfolds ε rest stop).trans ?_⟩
      rw [if_pos beyond, if_neg large]
      rfl

/-- The exponent of a number: nothing, or its letter, a sign and digits. -/
inductive IsExponent : List Char → Prop where
  | none : IsExponent []
  | lower {sign ks : List Char} (h : IsSign sign) (digits : IsDigits ks) :
    IsExponent ('e' :: (sign ++ ks))
  | upper {sign ks : List Char} (h : IsSign sign) (digits : IsDigits ks) :
    IsExponent ('E' :: (sign ++ ks))

/-- What follows the digits of a number is no digit. -/
theorem IsExponent.startsWithDigit {es : List Char} (h : IsExponent es) {rest : List Char}
    (stop : EndsNumber rest) : startsWithDigit (es ++ rest) = false := by
  cases h with
  | none => exact stop.startsWithDigit
  | lower | upper => rfl

theorem readScale_of_ends {ε : Type} (negative : Bool) (significand : Nat) (e : Int)
    {rest : List Char} (stop : EndsNumber rest) :
    (readScale negative significand e rest : Except (ReadError ε) _) =
      (scaled negative significand e).map (·, rest) := by
  unfold readScale
  split
  · exact absurd rfl stop.2.2.1
  · exact absurd rfl stop.2.2.2
  · rfl

theorem hasReading_scale (negative : Bool) (significand : Nat) (e : Int) {es : List Char}
    (h : IsExponent es) : HasReading (fun _ => readScale negative significand e) es := by
  cases h with
  | none => exact .of_scaled fun _ _ stop => readScale_of_ends _ _ _ stop
  | lower h digits | upper h digits =>
    exact (hasReading_exponent negative significand e h digits).of_eq fun _ _ _ => rfl

theorem hasReading_fraction (negative : Bool) (significand : Nat) (e : Int) {ds es : List Char}
    (digits : IsDigits ds) (h : IsExponent es) :
    HasReading (fun _ => readFraction negative significand e) (ds ++ es) := by
  obtain ⟨v, count, left, hleft, reads⟩ := takeDigits_append (2 ^ 64) significand 0 digits.2
  apply (hasReading_scale negative v (e - count) h).of_eq
  intro ε rest stop
  have stop' := h.startsWithDigit stop
  have starts := digits.starts (es ++ rest)
  have ne : (ds ++ (es ++ rest)).isEmpty = false := by
    cases ds with
    | nil => exact absurd rfl digits.1
    | cons d ds => rfl
  simp only [readFraction, List.append_assoc, ne, starts, reads (es ++ rest) stop',
    dropWhile_append_digits hleft stop', Bool.not_true, Bool.false_eq_true, if_false]

/-- The text of a number without its sign. -/
inductive IsNumeral : List Char → Prop where
  | whole {ws es : List Char} (digits : IsDigits ws) (h : IsExponent es) : IsNumeral (ws ++ es)
  | fraction {ws ds es : List Char} (digits : IsDigits ws) (digits' : IsDigits ds)
    (h : IsExponent es) : IsNumeral (ws ++ '.' :: (ds ++ es))

/-- What is read after the leading digits, of which `extra` did not fit the significand. -/
def afterDigits {ε : Type} (negative : Bool) (n extra : Nat) : Reader ε JsonNumber
  | '.' :: cs => readFraction negative n extra cs
  | 'e' :: cs => readExponent negative n extra cs
  | 'E' :: cs => readExponent negative n extra cs
  | cs =>
    if extra = 0 then .ok (wholeNumber negative n, cs)
    else (scaled negative n extra).map (·, cs)

theorem hasReading_afterDigits (negative : Bool) (n extra : Nat) {es : List Char}
    (h : IsExponent es) : HasReading (fun _ => afterDigits negative n extra) es := by
  cases h with
  | lower h digits | upper h digits =>
    exact (hasReading_exponent negative n extra h digits).of_eq fun _ _ _ => rfl
  | none =>
    have ends : ∀ ε rest, EndsNumber rest → (afterDigits negative n extra rest :
        Except (ReadError ε) _) = if extra = 0 then .ok (wholeNumber negative n, rest)
          else (scaled negative n extra).map (·, rest) := by
      intro ε rest stop
      unfold afterDigits
      split
      · exact absurd rfl stop.2.1
      · exact absurd rfl stop.2.2.1
      · exact absurd rfl stop.2.2.2
      · rfl
    by_cases fits : extra = 0
    · refine ⟨some (wholeNumber negative n), fun ε rest stop => (ends ε rest stop).trans ?_⟩
      rw [if_pos fits]
      rfl
    · exact .of_scaled fun ε rest stop => (ends ε rest stop).trans (if_neg fits)

/-- Digits that begin with a superfluous zero are malformed; any others are gathered. -/
theorem readUnsigned_of_digits (negative : Bool) {ws : List Char} (digits : IsDigits ws) :
    (∃ n extra : Nat, ∀ ε rest, startsWithDigit rest = false →
      (readUnsigned negative (ws ++ rest) : Except (ReadError ε) _) =
        afterDigits negative n extra rest) ∨
    ∀ ε rest, startsWithDigit rest = false →
      (readUnsigned negative (ws ++ rest) : Except (ReadError ε) _) = .error .malformed := by
  obtain ⟨n, count, left, hleft, reads⟩ := takeDigits_append (2 ^ 64) 0 0 digits.2
  cases ws with
  | nil => exact absurd rfl digits.1
  | cons c cs =>
    have first : c.isDigit = true := digits.2 c List.mem_cons_self
    by_cases padded : (c == '0' && startsWithDigit cs) = true
    · right
      intro ε rest stop
      simp only [List.cons_append, readUnsigned, startsWithDigit_append stop, padded, Bool.or_true,
        if_true]
    · left
      rw [Bool.not_eq_true] at padded
      refine ⟨n, left.length, fun ε rest stop => ?_⟩
      have reads := reads rest stop
      rw [List.cons_append] at reads
      simp only [List.cons_append, readUnsigned, startsWithDigit_append stop, padded, first, reads,
        takeWhile_append_digits hleft stop, dropWhile_append_digits hleft stop, Bool.not_true,
        Bool.or_false, Bool.false_eq_true, if_false]
      rfl

theorem hasReading_unsigned (negative : Bool) {cs : List Char} (h : IsNumeral cs) :
    HasReading (fun _ => readUnsigned negative) cs := by
  cases h with
  | @whole ws es digits h =>
    rcases readUnsigned_of_digits negative digits with ⟨n, extra, reads⟩ | malformed
    · apply (hasReading_afterDigits negative n extra h).of_eq
      intro ε rest stop
      rw [List.append_assoc]
      exact reads ε _ (h.startsWithDigit stop)
    · refine ⟨none, fun ε rest stop => ?_⟩
      rw [List.append_assoc]
      exact malformed ε _ (h.startsWithDigit stop)
  | @fraction ws ds es digits digits' h =>
    rcases readUnsigned_of_digits negative digits with ⟨n, extra, reads⟩ | malformed
    · apply (hasReading_fraction negative n extra digits' h).of_eq
      intro ε rest stop
      rw [List.append_assoc]
      exact reads ε _ rfl
    · refine ⟨none, fun ε rest stop => ?_⟩
      rw [List.append_assoc]
      exact malformed ε _ rfl

theorem IsNumeral.head {cs : List Char} (h : IsNumeral cs) :
    ∃ c rest, cs = c :: rest ∧ c.isDigit = true := by
  have first : ∀ {ws : List Char}, IsDigits ws → ∀ rest, ∃ c tail, ws ++ rest = c :: tail ∧
      c.isDigit = true := by
    intro ws digits rest
    cases ws with
    | nil => exact absurd rfl digits.1
    | cons c ws => exact ⟨c, ws ++ rest, rfl, digits.2 c List.mem_cons_self⟩
  cases h with
  | whole digits h => exact first digits _
  | fraction digits digits' h => exact first digits _

theorem isDigits_toDigits (n : Nat) : IsDigits (Nat.toDigits 10 n) :=
  ⟨Nat.toDigits_ne_nil, List.all_eq_true.mp (Decimal.all_isDigit_toDigits n)⟩

/-- The digits `ws` before and `ds` behind the point are a text of the decimal. -/
structure Positional (d : Decimal) (ws ds : List Char) : Prop where
  whole : IsDigits ws
  head : d.digits.head? ≠ some '0' → ws.head? ≠ some '0' ∨ ws = ['0']
  fraction : IsDigits ds
  length : (ws.length : Int) ≤ max 1 d.point
  value : Numeral.digitsValue (ws ++ ds) =
    10 ^ (d.point + 1 - d.digits.length).toNat * Numeral.digitsValue d.digits
  place : -(ds.length : Int) =
    d.point - d.digits.length - (d.point + 1 - d.digits.length).toNat

theorem positional_plain {d : Decimal} (h : d.WellFormed) :
    ∃ ws ds, Layout.document.plain d = ws ++ '.' :: ds ∧ Positional d ws ds := by
  have all := List.all_eq_true.mp h.digits
  have count : 0 < d.digits.length := List.length_pos_of_ne_nil h.ne_nil
  have zero : IsDigits ['0'] := ⟨by simp, by simp⟩
  have form := Decimal.plainForm Layout.document h
  generalize Layout.document.plain d = text at form
  cases form with
  | small k point =>
    have none : (d.point + 1 - d.digits.length).toNat = 0 := by omega
    refine ⟨['0'], List.replicate k '0' ++ d.digits, rfl, zero, fun _ => .inr rfl,
      ⟨by simp [h.ne_nil], fun b hb => ?_⟩, ?_, ?_, ?_⟩
    · exact (List.mem_append.mp hb).elim Decimal.isDigit_of_mem_replicate (all b)
    · rw [List.length_singleton]
      omega
    · rw [none, Nat.pow_zero, Nat.one_mul]
      exact Decimal.digitsValue_replicate_append (k + 1) d.digits
    · rw [none, List.length_append, List.length_replicate]
      omega
  | whole k point =>
    have places : (d.point + 1 - d.digits.length).toNat = k + 1 := by omega
    refine ⟨d.digits ++ List.replicate k '0', ['0'], rfl,
      ⟨by simp [h.ne_nil], fun b hb => ?_⟩, fun head => .inl ?_, zero, ?_, ?_, ?_⟩
    · exact (List.mem_append.mp hb).elim (all b) Decimal.isDigit_of_mem_replicate
    · rw [List.head?_append_of_ne_nil _ h.ne_nil]
      exact head
    · rw [List.length_append, List.length_replicate]
      omega
    · have tail : List.replicate k '0' ++ ['0'] = List.replicate (k + 1) '0' :=
        List.replicate_succ'.symm
      rw [List.append_assoc, tail, Numeral.digitsValue_append,
        Numeral.digitsValue_replicate_zero, List.length_replicate, places]
      rfl
    · rw [places, List.length_singleton]
      omega
  | @mixed ws ds digits before behind point =>
    have length := congrArg List.length digits
    rw [List.length_append] at length
    have some : 0 < ds.length := List.length_pos_of_ne_nil behind
    have none : (d.point + 1 - d.digits.length).toNat = 0 := by omega
    rw [digits] at all
    refine ⟨ws, ds, rfl, ⟨before, fun b hb => all b (List.mem_append_left ds hb)⟩,
      fun head => .inl ?_, ⟨behind, fun b hb => all b (List.mem_append_right ws hb)⟩, ?_, ?_, ?_⟩
    · rw [digits, List.head?_append_of_ne_nil _ before] at head
      exact head
    · omega
    · rw [none, Nat.pow_zero, Nat.one_mul, digits]
    · omega

theorem isNumeral_plain {d : Decimal} (h : d.WellFormed) :
    IsNumeral (Layout.document.plain d) := by
  obtain ⟨ws, ds, text, parts⟩ := positional_plain h
  rw [text, ← List.append_nil ds]
  exact .fraction parts.whole parts.fraction .none

theorem isNumeral_scientific {d : Decimal} (h : d.WellFormed) :
    IsNumeral (Layout.scientific d) := by
  have all := List.all_eq_true.mp h.digits
  have sign : IsSign [if d.point - 1 < 0 then '-' else '+'] := by
    split
    · exact .inr (.inr rfl)
    · exact .inr (.inl rfl)
  have exponent : IsExponent d.exponentText :=
    .lower sign (isDigits_toDigits (d.point - 1).natAbs)
  have form := Decimal.scientificForm h
  generalize Layout.scientific d = text at form
  cases form with
  | whole digits => exact .whole ⟨List.cons_ne_nil _ _, digits ▸ all⟩ exponent
  | fraction digits more =>
    rw [digits, List.forall_mem_cons] at all
    exact .fraction ⟨List.cons_ne_nil _ _, List.forall_mem_singleton.mpr all.1⟩ ⟨more, all.2⟩
      exponent

theorem document_of_not_isFinite {x : Binary64} (h : x.isFinite = false) :
    Layout.document.write x = "null".toList := by
  unfold Layout.write
  split
  · rfl
  · rw [h]
    cases x.negative <;> rfl

/-- A finite number is written as a numeral, behind a minus or nothing. -/
theorem document_of_isFinite {x : Binary64} (finite : x.isFinite = true) :
    ∃ cs, IsNumeral cs ∧
      Layout.document.write x = (if x.negative then ['-'] else []) ++ cs := by
  have number := Binary64.isNaN_of_isFinite finite
  by_cases zero : x.isZero = true
  · have digits : IsDigits ['0'] := ⟨by simp, by simp⟩
    refine ⟨_, .fraction digits digits .none, ?_⟩
    simp [Layout.write, number, finite, zero, Layout.document]
  · have nonzero : x.isZero = false := by simpa using zero
    have wellFormed := (Binary64.wellFormed_shortest nonzero .even).1
    refine ⟨_, ?_, by simp only [Layout.write, number, finite, nonzero, Bool.not_true,
      Bool.false_eq_true, if_false]; rfl⟩
    split
    · exact isNumeral_plain wellFormed
    · exact isNumeral_scientific wellFormed

/-- An integer is written as a numeral, behind a minus or nothing. -/
theorem integer_text (n : Int) : ∃ (negative : Bool) (cs : List Char), IsNumeral cs ∧
    writeNumber (.integer n) = (if negative then ['-'] else []) ++ cs := by
  cases n with
  | ofNat n =>
    refine ⟨false, Nat.toDigits 10 n,
      by simpa using IsNumeral.whole (isDigits_toDigits n) .none, ?_⟩
    simp [writeNumber, toString, Int.repr, Nat.repr]
  | negSucc n =>
    refine ⟨true, Nat.toDigits 10 (n + 1),
      by simpa using IsNumeral.whole (isDigits_toDigits (n + 1)) .none, ?_⟩
    simp [writeNumber, toString, Int.repr, Nat.repr]

theorem read_eq_readWith {ε : Type} (fuel depth : Nat) :
    ∃ array object : Reader ε Json, read fuel depth = readWith fuel array object := by
  cases depth with
  | zero => exact ⟨_, _, rfl⟩
  | succ depth => exact ⟨_, _, rfl⟩

theorem ne_of_isDigit {c d : Char} (digit : c.isDigit = true) (other : d.isDigit = false) :
    c ≠ d := by
  rintro rfl
  rw [digit] at other
  cases other

theorem isBlank_of_isDigit {c : Char} (digit : c.isDigit = true) : isBlank c = false := by
  have space := ne_of_isDigit digit (show ' '.isDigit = false from rfl)
  have tab := ne_of_isDigit digit (show '\t'.isDigit = false from rfl)
  have newline := ne_of_isDigit digit (show '\n'.isDigit = false from rfl)
  have carriage := ne_of_isDigit digit (show '\r'.isDigit = false from rfl)
  simp [isBlank, space, tab, newline, carriage]

theorem readWith_digit {ε : Type} (fuel : Nat) (array object : Reader ε Json) {c : Char}
    (digit : c.isDigit = true) (cs : List Char) : readWith fuel array object (c :: cs) =
      (readUnsigned false (c :: cs)).map fun (n, cs) => (.number n, cs) := by
  have kept : skipBlanks (c :: cs) = c :: cs := by simp [skipBlanks, isBlank_of_isDigit digit]
  rw [readWith, kept]
  split
  · next h => cases h
  all_goals
    next h =>
      cases h
      first
        | cases digit
        | rw [if_pos digit]

/-- The text begins with neither a blank nor the end of an array. -/
def BeginsItem (cs : List Char) : Prop :=
  ∃ c tail, cs = c :: tail ∧ isBlank c = false ∧ c ≠ ']'

theorem BeginsItem.append {cs : List Char} (h : BeginsItem cs) (rest : List Char) :
    BeginsItem (cs ++ rest) := by
  obtain ⟨c, tail, rfl, dark, more⟩ := h
  exact ⟨c, tail ++ rest, rfl, dark, more⟩

theorem IsNumeral.beginsItem {cs : List Char} (h : IsNumeral cs) (negative : Bool) :
    BeginsItem ((if negative then ['-'] else []) ++ cs) := by
  obtain ⟨c, tail, rfl, digit⟩ := h.head
  cases negative with
  | true => exact ⟨'-', c :: tail, rfl, rfl, by decide⟩
  | false => exact ⟨c, tail, rfl, isBlank_of_isDigit digit, ne_of_isDigit digit rfl⟩

/-- A numeral is read after its sign. -/
theorem read_signed {ε : Type} {cs : List Char} (h : IsNumeral cs) (negative : Bool)
    (fuel depth : Nat) (rest : List Char) :
    (read fuel depth ((if negative then ['-'] else []) ++ cs ++ rest) : Except (ReadError ε) _) =
      (readUnsigned negative (cs ++ rest)).map fun (n, cs) => (.number n, cs) := by
  obtain ⟨array, object, eq⟩ := read_eq_readWith (ε := ε) fuel depth
  rw [eq]
  cases negative with
  | true => rfl
  | false =>
    obtain ⟨c, tail, rfl, digit⟩ := h.head
    exact readWith_digit fuel array object digit _

theorem read_numeral {cs : List Char} (h : IsNumeral cs) (negative : Bool) :
    ∃ o : Option Json, ∀ (ε : Type) (fuel depth : Nat) (rest : List Char), EndsNumber rest →
      (read fuel depth ((if negative then ['-'] else []) ++ cs ++ rest) :
        Except (ReadError ε) _) = found o rest := by
  obtain ⟨o, reads⟩ := hasReading_unsigned negative h
  refine ⟨o.map .number, fun ε fuel depth rest stop => ?_⟩
  have inner : readUnsigned negative (cs ++ rest) = found o rest := reads ε rest stop
  rw [read_signed h, inner]
  cases o <;> rfl

end Json

/-- What the text of a number reads as, unless that is too large. -/
def JsonNumber.reread (n : JsonNumber) : Option Json :=
  match (Json.read 0 0 (Json.writeNumber n) : Except (Json.ReadError Empty) _) with
  | .ok (j, _) => some j
  | .error _ => none

namespace Json

/-- The text of a number has one reading in front of whatever may follow it. -/
theorem read_writeNumber {ε : Type} (n : JsonNumber) (fuel depth : Nat) {rest : List Char}
    (stop : EndsNumber rest) :
    (read fuel depth (writeNumber n ++ rest) : Except (ReadError ε) _) = found n.reread rest := by
  have one : ∃ o : Option Json, ∀ (ε : Type) (fuel depth : Nat) (rest : List Char),
      EndsNumber rest →
        (read fuel depth (writeNumber n ++ rest) : Except (ReadError ε) _) = found o rest := by
    cases n with
    | integer n =>
      obtain ⟨negative, cs, numeral, text⟩ := integer_text n
      rw [text]
      exact read_numeral numeral negative
    | real x =>
      rw [writeNumber]
      cases finite : x.isFinite with
      | true =>
        obtain ⟨cs, numeral, text⟩ := document_of_isFinite finite
        rw [text]
        exact read_numeral numeral x.negative
      | false =>
        rw [document_of_not_isFinite finite]
        refine ⟨some .null, fun ε fuel depth rest _ => ?_⟩
        obtain ⟨array, object, eq⟩ := read_eq_readWith (ε := ε) fuel depth
        rw [eq]
        rfl
  obtain ⟨o, reads⟩ := one
  have alone : n.reread = o := by
    have here := reads Empty 0 0 [] trivial
    rw [List.append_nil] at here
    rw [JsonNumber.reread, here]
    cases o <;> rfl
  rw [alone]
  exact reads ε fuel depth rest stop

theorem le_ofDigitChars (ds : List Char) (value : Nat) : value ≤ Nat.ofDigitChars 10 ds value := by
  induction ds generalizing value with
  | nil => exact Nat.le_refl value
  | cons d ds ih =>
    have := ih (10 * value + (d.toNat - '0'.toNat))
    rw [Nat.ofDigitChars_cons]
    omega

theorem takeDigits_all {bound value : Nat} {ds : List Char} (digits : ∀ d ∈ ds, d.isDigit = true)
    (fits : Nat.ofDigitChars 10 ds value < bound) (count : Nat) :
    takeDigits bound value count ds =
      (Nat.ofDigitChars 10 ds value, count + ds.length, []) := by
  induction ds generalizing value count with
  | nil => rfl
  | cons d ds ih =>
    obtain ⟨digit, digits⟩ := List.forall_mem_cons.mp digits
    rw [Nat.ofDigitChars_cons] at fits ⊢
    have here : 10 * value + Numeral.digitValue d < bound :=
      Nat.lt_of_le_of_lt (le_ofDigitChars ds _) fits
    have rest := ih digits fits (count + 1)
    have length : count + 1 + ds.length = count + (d :: ds).length := by
      rw [List.length_cons]
      omega
    rw [length] at rest
    rw [takeDigits, if_pos (by simp [digit, here])]
    exact rest

/-- Only zero begins with a zero. -/
theorem toDigits_zero_head {n : Nat} {cs : List Char} (h : Nat.toDigits 10 n = '0' :: cs) :
    cs = [] := by
  induction n using Nat.strongRecOn generalizing cs with
  | ind n ih =>
    by_cases small : n < 10
    · rw [Nat.toDigits_of_lt_base small] at h
      exact (List.cons.inj h).2.symm
    · rw [Nat.toDigits_of_base_le (by decide) (Nat.le_of_not_lt small)] at h
      cases first : Nat.toDigits 10 (n / 10) with
      | nil => exact absurd first Nat.toDigits_ne_nil
      | cons c ds =>
        rw [first, List.cons_append] at h
        obtain ⟨rfl, -⟩ := List.cons.inj h
        obtain rfl := ih (n / 10) (by omega) first
        have value : Nat.ofDigitChars 10 (Nat.toDigits 10 (n / 10)) 0 = n / 10 :=
          Nat.ofDigitChars_ten_toDigits
        rw [first] at value
        have zero : Nat.ofDigitChars 10 ['0'] 0 = 0 := rfl
        omega

theorem takeDigits_all_append {bound value : Nat} {ds : List Char}
    (digits : ∀ d ∈ ds, d.isDigit = true) (fits : Nat.ofDigitChars 10 ds value < bound)
    (count : Nat) {rest : List Char} (stop : startsWithDigit rest = false) :
    takeDigits bound value count (ds ++ rest) =
      (Nat.ofDigitChars 10 ds value, count + ds.length, rest) := by
  obtain ⟨v, k, left, -, reads⟩ := takeDigits_append bound value count digits
  have alone := reads [] rfl
  rw [List.append_nil, takeDigits_all digits fits, List.append_nil] at alone
  obtain ⟨rfl, rest'⟩ := Prod.mk.inj alone
  obtain ⟨rfl, rfl⟩ := Prod.mk.inj rest'
  exact reads rest stop

/-- Digits without a superfluous zero that fit 64 bits are the significand. -/
theorem readUnsigned_of_small {ε : Type} (negative : Bool) {ws : List Char} (digits : IsDigits ws)
    (head : ws.head? ≠ some '0' ∨ ws = ['0']) (small : Nat.ofDigitChars 10 ws 0 < 2 ^ 64)
    {rest : List Char} (stop : startsWithDigit rest = false) :
    (readUnsigned negative (ws ++ rest) : Except (ReadError ε) _) =
      afterDigits negative (Nat.ofDigitChars 10 ws 0) 0 rest := by
  have taken := takeDigits_all_append digits.2 small 0 stop
  cases ws with
  | nil => exact absurd rfl digits.1
  | cons c cs =>
    have first : c.isDigit = true := digits.2 c List.mem_cons_self
    have noZero : (c == '0' && startsWithDigit cs) = false := by
      rcases head with head | only
      · have ne : c ≠ '0' := by simpa using head
        simp [ne]
      · obtain rfl := (List.cons.inj only).2
        simp [startsWithDigit]
    rw [List.cons_append] at taken
    have none : rest.takeWhile Char.isDigit = [] := by
      simpa using takeWhile_append_digits (List.forall_mem_nil _) stop
    simp only [List.cons_append, readUnsigned, first, startsWithDigit_append stop, noZero, taken,
      none, dropWhile_of_stop stop, Bool.not_true, Bool.or_false, Bool.false_eq_true, if_false]
    rfl

/-- A count of 64 bits reads as it was written. -/
theorem reread_count {n : Nat} (fits : n < 2 ^ 64) :
    (JsonNumber.integer n).reread = some (.number (.integer n)) := by
  have text : writeNumber (.integer n) = Nat.toDigits 10 n := by
    simp [writeNumber, toString, Int.repr, Nat.repr]
  have digits := isDigits_toDigits n
  have numeral : IsNumeral (Nat.toDigits 10 n) := by
    simpa using IsNumeral.whole digits .none
  have value : Nat.ofDigitChars 10 (Nat.toDigits 10 n) 0 = n := Nat.ofDigitChars_ten_toDigits
  have head : (Nat.toDigits 10 n).head? ≠ some '0' ∨ Nat.toDigits 10 n = ['0'] := by
    cases ds : Nat.toDigits 10 n with
    | nil => exact .inl nofun
    | cons c cs =>
      by_cases zero : c = '0'
      · subst zero
        exact .inr (by rw [toDigits_zero_head ds])
      · exact .inl (by simpa using zero)
  have stop : startsWithDigit [] = false := rfl
  have unsigned := readUnsigned_of_small (ε := Empty) false digits head (value.symm ▸ fits) stop
  have read := read_signed (ε := Empty) numeral false 0 0 []
  rw [unsigned, value] at read
  rw [if_neg Bool.false_ne_true, List.nil_append, List.append_nil] at read
  rw [JsonNumber.reread, text, read]
  rfl

end Json

end CellFormula
