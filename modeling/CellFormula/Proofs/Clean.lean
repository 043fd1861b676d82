import CellFormula.Proofs.Compact
import CellFormula.Proofs.NormalForm
import CellFormula.Proofs.Shortest

/-!
# Clean trees

Trees whose names, texts and numbers do not interfere with the cuts. Their texts are compact, and
below a call, where quotes are not looked at, the parentheses in them balance.
-/

namespace CellFormula

namespace Formula

open Text Scan Nesting Reading

/-- A character at which no rule cuts. -/
def isNamePart (c : Char) : Bool :=
  isPlain c && !isOperator c && !isSeparator c

/-- A name in brackets with neither quotes nor delimiters inside, or a name that nothing cuts and
that does not begin like a numeral. -/
def CleanName (cs : List Char) : Prop :=
  (∃ inside, cs = '[' :: inside ++ [']'] ∧ ∀ c ∈ inside, isPlain c = true) ∨
    cs ≠ [] ∧ trim cs = cs ∧ (∀ c ∈ cs, isNamePart c = true) ∧
      ∀ c, cs.head? = some c → c.isDigit = false ∧ c ≠ '.'

mutual

/-- `inCall` says whether the tree stands below a condition or a call. -/
def Clean (inCall : Bool) : Formula → Prop
  | .cell name => CleanName name.toList
  | .number value => value.isFinite = true
  | .text value => (∀ c ∈ value.toList, isQuote c = false) ∧
    (inCall = true → Balanced value.toList)
  | .chain operands operators => operators.Fits operands.length ∧ CleanList inCall operands
  | .conditional _ left right whenTrue whenFalse =>
    left.Clean true ∧ right.Clean true ∧ whenTrue.Clean true ∧ whenFalse.Clean true
  | .call name arguments => name = lookupName ∧ CleanList true arguments

def CleanList (inCall : Bool) : List Formula → Prop
  | [] => True
  | x :: xs => x.Clean inCall ∧ CleanList inCall xs

end

theorem cleanList_iff {inCall : Bool} {xs : List Formula} :
    CleanList inCall xs ↔ ∀ x ∈ xs, x.Clean inCall := by
  induction xs with
  | nil => simp [CleanList]
  | cons x xs ih => rw [CleanList, ih, List.forall_mem_cons]

instance (cs : List Char) : Decidable (CleanName cs) :=
  have bracketed : (cs = '[' :: cs.tail.dropLast ++ [']'] ∧ cs.tail.dropLast.all isPlain = true) ↔
      ∃ inside, cs = '[' :: inside ++ [']'] ∧ ∀ c ∈ inside, isPlain c = true := by
    constructor
    · exact fun ⟨shape, plain⟩ => ⟨_, shape, List.all_eq_true.mp plain⟩
    · rintro ⟨inside, rfl, plain⟩
      simpa using plain
  have plain : (cs ≠ [] ∧ trim cs = cs ∧ cs.all isNamePart = true ∧
      cs.head?.all (fun c => !c.isDigit && c != '.') = true) ↔
        cs ≠ [] ∧ trim cs = cs ∧ (∀ c ∈ cs, isNamePart c = true) ∧
          ∀ c, cs.head? = some c → c.isDigit = false ∧ c ≠ '.' := by
    rw [List.all_eq_true]
    cases cs.head? <;> simp
  have := decidable_of_iff _ bracketed
  have := decidable_of_iff _ plain
  inferInstanceAs (Decidable (_ ∨ _))

mutual

def decidableClean (inCall : Bool) : ∀ f : Formula, Decidable (f.Clean inCall)
  | .cell name => inferInstanceAs (Decidable (CleanName name.toList))
  | .number value => inferInstanceAs (Decidable (value.isFinite = true))
  | .text value =>
    have : Decidable (∀ c ∈ value.toList, isQuote c = false) :=
      decidable_of_iff (value.toList.all (fun c => !isQuote c) = true) (by simp)
    inferInstanceAs (Decidable ((∀ c ∈ value.toList, isQuote c = false) ∧
      (inCall = true → Balanced value.toList)))
  | .chain operands operators =>
    have := decidableCleanList inCall operands
    inferInstanceAs (Decidable (operators.Fits operands.length ∧ CleanList inCall operands))
  | .conditional _ left right whenTrue whenFalse =>
    have := decidableClean true left
    have := decidableClean true right
    have := decidableClean true whenTrue
    have := decidableClean true whenFalse
    inferInstanceAs (Decidable (left.Clean true ∧ right.Clean true ∧ whenTrue.Clean true ∧
      whenFalse.Clean true))
  | .call name arguments =>
    have := decidableCleanList true arguments
    inferInstanceAs (Decidable (name = lookupName ∧ CleanList true arguments))

def decidableCleanList (inCall : Bool) : ∀ xs : List Formula, Decidable (CleanList inCall xs)
  | [] => inferInstanceAs (Decidable True)
  | x :: xs =>
    have := decidableClean inCall x
    have := decidableCleanList inCall xs
    inferInstanceAs (Decidable (x.Clean inCall ∧ CleanList inCall xs))

end

instance (inCall : Bool) (f : Formula) : Decidable (f.Clean inCall) :=
  decidableClean inCall f

theorem isNamePart_iff {c : Char} : isNamePart c = true ↔
    isPlain c = true ∧ isOperator c = false ∧ isSeparator c = false := by
  simp [isNamePart, and_assoc]

/-- A text that is compact and, below a call, balanced. -/
structure Tidy (inCall : Bool) (w : List Char) : Prop where
  compact : Compact w
  balanced : inCall = true → Balanced w

/-- A tidy text that may have blanks around it. -/
structure Loose (inCall : Bool) (p : List Char) : Prop where
  operand : Operand p
  balanced : inCall = true → Balanced p

theorem Tidy.loose {inCall : Bool} {w : List Char} (h : Tidy inCall w) : Loose inCall w :=
  ⟨h.compact.toOperand, h.balanced⟩

theorem Tidy.pad {inCall : Bool} {before w after : List Char} (h : Tidy inCall w)
    (blankBefore : ∀ c ∈ before, isBlank c = true) (blankAfter : ∀ c ∈ after, isBlank c = true) :
    Loose inCall (before ++ w ++ after) where
  operand := h.compact.toOperand.pad blankBefore blankAfter
  balanced below :=
    ((balanced_of_isBlank blankBefore).append (h.balanced below)).append
      (balanced_of_isBlank blankAfter)

theorem compact_of_isNamePart {cs : List Char} (ne : cs ≠ []) (trimmed : Trimmed cs)
    (parts : ∀ c ∈ cs, isNamePart c = true) : Compact cs := by
  have plain : ∀ c ∈ cs, isPlain c = true := fun c hc => (isNamePart_iff.mp (parts c hc)).1
  apply compact_of_surface (closed_of_isPlain plain) trimmed ne
  intro c hc
  obtain ⟨-, operator, separator⟩ := isNamePart_iff.mp (parts c (surface_subset _ _ hc))
  exact ⟨separator, operator⟩

/-- A span is cut nowhere: only the character that closes it is at top level. -/
theorem compact_span {first last : Char} {cs : List Char}
    (fixed : ∀ c ∈ cs, (start.step first).step c = start.step first)
    (closes : (start.step first).step last = start) (level : (start.step first).parens = 0)
    (deep : start.step first ≠ start) (dark : isBlank first = false ∧ isBlank last = false)
    (free : isSeparator last = false ∧ isOperator last = false) :
    Compact (first :: cs ++ [last]) := by
  apply compact_of_surface (closed_span rfl fixed closes level) (trimmed_ends dark.1 dark.2 cs)
    (by simp)
  intro c hc
  rw [surface_span rfl fixed closes deep, List.mem_singleton] at hc
  rw [hc]
  exact free

theorem compact_bracketed {cs : List Char} (plain : ∀ c ∈ cs, isPlain c = true) :
    Compact ('[' :: cs ++ [']']) :=
  compact_span (fun c hc => step_bracketed (plain c hc)) rfl rfl (by decide) ⟨rfl, rfl⟩ ⟨rfl, rfl⟩

theorem tidy_name {cs : List Char} (h : CleanName cs) (inCall : Bool) : Tidy inCall cs := by
  rcases h with ⟨inside, rfl, plain⟩ | ⟨ne, trimmed, parts, -⟩
  · refine ⟨compact_bracketed plain, fun _ => ?_⟩
    have left : Balanced ['['] := rfl
    have right : Balanced [']'] := rfl
    exact (left.append (balanced_of_isPlain plain)).append right
  · refine ⟨compact_of_isNamePart ne (trimmed_iff.mpr trimmed) parts, fun _ => ?_⟩
    exact balanced_of_isPlain fun c hc => (isNamePart_iff.mp (parts c hc)).1

theorem tidy_text {inCall : Bool} {cs : List Char} (quotes : ∀ c ∈ cs, isQuote c = false)
    (balanced : inCall = true → Balanced cs) : Tidy inCall ('"' :: cs ++ ['"']) := by
  constructor
  · exact compact_span (fun c hc => step_of_quoted rfl (quotes c hc)) rfl rfl (by decide)
      ⟨rfl, rfl⟩ ⟨rfl, rfl⟩
  · intro below
    have quote : Balanced ['"'] := rfl
    exact (quote.append (balanced below)).append quote

/-- A class of characters at none of which a rule cuts. -/
theorem isNamePart_of {p : Char → Bool} {c : Char} (h : p c = true)
    (out : (['"', '\'', '(', ')', '[', ']'] ++ ['+', '-', '*', '/'] ++ [',', '<', '>', '=']).any p =
      false) : isNamePart c = true := by
  rw [List.any_append, List.any_append, Bool.or_eq_false_iff, Bool.or_eq_false_iff] at out
  obtain ⟨⟨delimiters, operators⟩, separators⟩ := out
  rw [isNamePart_iff]
  refine ⟨isPlain_of h delimiters, isOperator_eq_false_of h operators, ?_⟩
  rw [Bool.eq_false_iff]
  intro separator
  have none := List.any_eq_false.mp separators
  simp only [isSeparator, Bool.or_eq_true, beq_iff_eq] at separator
  rcases separator with ((rfl | rfl) | rfl) | rfl <;> exact none _ (by simp) h

/-- The characters of numerals in formulas, the sign apart. -/
def isNumeralPart (c : Char) : Bool :=
  c.isDigit || c == '.'

theorem isBlank_eq_false_of_isNumeralPart {c : Char} (h : isNumeralPart c = true) :
    isBlank c = false := by
  simp only [isNumeralPart, Bool.or_eq_true, beq_iff_eq] at h
  rcases h with digit | rfl
  · exact Reading.isBlank_eq_false_of_isDigit digit
  · rfl

theorem tidy_number {x : Binary64} (finite : x.isFinite = true) (inCall : Bool) :
    Tidy inCall x.toText := by
  obtain ⟨sign, c, rest, text, signs, digit, others⟩ := Binary64.toText_shape finite
  have parts : ∀ b ∈ c :: rest, isNumeralPart b = true := by
    intro b hb
    rcases List.mem_cons.mp hb with rfl | hb
    · simp [isNumeralPart, digit]
    · simpa [isNumeralPart] using others b hb
  have names : ∀ b ∈ c :: rest, isNamePart b = true :=
    fun b hb => isNamePart_of (parts b hb) (by decide)
  have plain : ∀ b ∈ c :: rest, isPlain b = true := fun b hb => (isNamePart_iff.mp (names b hb)).1
  have visible : ∀ b ∈ c :: rest, isBlank b = false :=
    fun b hb => isBlank_eq_false_of_isNumeralPart (parts b hb)
  have trimmed : Trimmed (c :: rest) :=
    ⟨fun b hb => visible b (List.mem_of_head? hb), fun b hb => visible b (List.mem_of_getLast? hb)⟩
  rw [text]
  rcases signs with rfl | rfl
  · exact ⟨compact_of_isNamePart (by simp) trimmed names, fun _ => balanced_of_isPlain plain⟩
  · have sign : Trimmed ['-'] := trimmed_iff.mpr rfl
    constructor
    · apply @compact_signed .subtract (c :: rest) (closed_of_isPlain plain)
      · exact sign.append (by simp) trimmed (by simp)
      · intro b hb
        obtain ⟨-, operator, separator⟩ := isNamePart_iff.mp (names b (surface_subset _ _ hb))
        exact ⟨separator, operator⟩
    · intro _
      have minus : Balanced ['-'] := rfl
      exact minus.append (balanced_of_isPlain plain)

theorem balanced_links {more : List (Operator × List Char)} (h : ∀ s ∈ more, Balanced s.2) :
    Balanced (links more) := by
  induction more with
  | nil => rfl
  | cons s more ih =>
    have symbol : Balanced [s.1.symbol] :=
      balanced_of_isPlain (List.forall_mem_singleton.mpr (isPlain_symbol s.1))
    have tail := ih fun t ht => h t (List.mem_cons_of_mem s ht)
    exact symbol.append ((h s List.mem_cons_self).append tail)

/-- What joining keeps. -/
theorem joined_of {p : List Char → Prop} {separator : List Char} {ws : List (List Char)}
    (nil : p []) (append : ∀ xs ys, p xs → p ys → p (xs ++ ys)) (hs : p separator)
    (h : ∀ w ∈ ws, p w) : p (joined separator ws) := by
  induction ws using joined.induct with
  | case1 => exact nil
  | case2 w => exact h w List.mem_cons_self
  | case3 w ws other ih =>
    rw [joined]
    · have tail := ih fun v hv => h v (List.mem_cons_of_mem w hv)
      exact append _ _ (append _ _ (h w List.mem_cons_self) hs) tail
    · exact other

/-- In parentheses nothing shows but the last of them. -/
theorem tidy_group {inCall : Bool} {cs : List Char} (closed : Closed cs)
    (balanced : inCall = true → Balanced cs) : Tidy inCall ('(' :: cs ++ [')']) := by
  constructor
  · apply compact_of_surface closed.wrap (trimmed_ends rfl rfl _) (by simp)
    intro c hc
    rw [closed.surface_wrap, List.mem_singleton] at hc
    rw [hc]
    exact ⟨rfl, rfl⟩
  · exact fun below => (balanced below).wrap

section

variable {inCall : Bool} {p : List Char} {more : List (Operator × List Char)}
  (first : Loose inCall p) (rest : ∀ s ∈ more, Loose inCall s.2)

include first rest

theorem closed_interior : Closed (p ++ links more) :=
  first.operand.closed.append (closed_links fun s hs => (rest s hs).operand)

theorem tidy_chain : Tidy inCall ('(' :: (p ++ links more) ++ [')']) := by
  apply tidy_group (closed_interior first rest)
  intro below
  exact (first.balanced below).append (balanced_links fun s hs => (rest s hs).balanced below)

end

theorem tidy_call {keyword : Keyword} {word content : List Char} (head : IsWord keyword word)
    (closed : Closed content) (balanced : Balanced content) (inCall : Bool) :
    Tidy inCall (word ++ '(' :: content ++ [')']) := by
  have names : ∀ c ∈ word, isNamePart c = true :=
    fun c hc => isNamePart_of (head.isWordPart c hc) (by decide)
  have wordClosed := closed_of_isPlain head.isPlain
  have shape : word ++ '(' :: content ++ [')'] = word ++ ('(' :: content ++ [')']) := by simp
  constructor
  · apply compact_of_surface _ (head.trimmed_call content) (by simp)
    · intro c hc
      rw [shape, surface_append, wordClosed.run, closed.surface_wrap] at hc
      rcases List.mem_append.mp hc with hc | hc
      · obtain ⟨-, operator, separator⟩ := isNamePart_iff.mp (names c (surface_subset _ _ hc))
        exact ⟨separator, operator⟩
      · rw [List.mem_singleton.mp hc]
        exact ⟨rfl, rfl⟩
    · rw [shape]
      exact wordClosed.append closed.wrap
  · intro _
    rw [shape]
    exact (balanced_of_isPlain head.isPlain).append balanced.wrap

section

variable (spelling : EqualitySpelling)

theorem write_chain_eq {x : Formula} {xs : List Formula} {operators : Operators}
    (fits : operators.Fits (x :: xs).length) : (chain (x :: xs) operators).write spelling =
      '(' :: (x.write spelling ++
        links ((operators.toList (xs.length + 1)).zip (xs.map (write spelling)))) ++ [')'] := by
  have count := Operators.length_toList fits
  rw [write_chain, List.length_cons, writeChain_eq (by simpa using count)]

theorem write_conditional_eq (comparator : Comparator) (l r t f : Formula) :
    (conditional comparator l r t f).write spelling =
      "IF".toList ++ '(' :: joined [','] [l.write spelling ++ spelling.write comparator ++
        r.write spelling, t.write spelling, f.write spelling] ++ [')'] := by
  simp [write_conditional, joined]

theorem write_lookup_eq (arguments : List Formula) : (call lookupName arguments).write spelling =
    "LOOKUP".toList ++ '(' :: joined [','] (arguments.map (write spelling)) ++ [')'] := by
  simp [write_lookup, writeArguments_eq]

theorem isPlain_write (comparator : Comparator) :
    ∀ c ∈ spelling.write comparator, isPlain c = true := by
  have all : (spelling.write comparator).all isPlain = true := by
    cases comparator <;> cases spelling <;> rfl
  exact List.all_eq_true.mp all

end

/-- The two sides of a condition with the comparator between them are one argument. -/
theorem argument_comparison {left right : List Char} (hl : Compact left) (hr : Compact right)
    (spelling : EqualitySpelling) (comparator : Comparator) :
    Argument (left ++ spelling.write comparator ++ right) := by
  have plain := isPlain_write spelling comparator
  have symbol := closed_of_isPlain plain
  have ends : Trimmed (spelling.write comparator) ∧ spelling.write comparator ≠ [] ∧
      ',' ∉ spelling.write comparator := by
    cases comparator <;> cases spelling <;> exact ⟨trimmed_iff.mpr rfl, by decide, by decide⟩
  obtain ⟨trimmed, ne, comma⟩ := ends
  have front := hl.trimmed.append hl.ne_nil trimmed ne
  refine ⟨((hl.closed.append symbol).append hr.closed).run, ?_,
    front.append (by simp [ne]) hr.trimmed hr.ne_nil, by simp [ne]⟩
  intro mem
  rw [surface_append, surface_append, (hl.closed.append symbol).run, hl.closed.run] at mem
  rcases List.mem_append.mp mem with mem | mem
  · rcases List.mem_append.mp mem with mem | mem
    · exact hl.argument.comma mem
    · exact comma (surface_subset _ _ mem)
  · exact hr.argument.comma mem

/-- A class of texts with the comma and closed under joining holds the arguments of a call. -/
theorem joined_comparison {p : List Char → Prop} {left symbol right whenTrue whenFalse : List Char}
    (append : ∀ xs ys, p xs → p ys → p (xs ++ ys)) (nil : p []) (comma : p [','])
    (hs : p symbol) (hl : p left) (hr : p right) (ht : p whenTrue) (hf : p whenFalse) :
    p (joined [','] [left ++ symbol ++ right, whenTrue, whenFalse]) := by
  apply joined_of nil append comma
  intro w hw
  simp only [List.mem_cons, List.not_mem_nil, or_false] at hw
  rcases hw with rfl | rfl | rfl
  · exact append _ _ (append _ _ hl hs) hr
  · exact ht
  · exact hf

theorem closed_nil : Closed [] :=
  ⟨rfl, trivial⟩

theorem closed_comma : Closed [','] :=
  closed_of_isPlain (List.forall_mem_singleton.mpr rfl)

theorem closed_joined {ws : List (List Char)} (h : ∀ w ∈ ws, Closed w) :
    Closed (joined [','] ws) :=
  joined_of closed_nil (fun _ _ => Closed.append) closed_comma h

theorem balanced_joined {ws : List (List Char)} (h : ∀ w ∈ ws, Balanced w) :
    Balanced (joined [','] ws) := by
  have nil : Balanced [] := rfl
  have comma : Balanced [','] := rfl
  exact joined_of nil (fun _ _ => Balanced.append) comma h

section

variable {left symbol right whenTrue whenFalse : List Char}
  (plain : ∀ c ∈ symbol, isPlain c = true)

include plain

theorem closed_comparison (hl : Closed left) (hr : Closed right) (ht : Closed whenTrue)
    (hf : Closed whenFalse) :
    Closed (joined [','] [left ++ symbol ++ right, whenTrue, whenFalse]) :=
  joined_comparison (fun _ _ => Closed.append) closed_nil closed_comma (closed_of_isPlain plain)
    hl hr ht hf

theorem balanced_comparison (hl : Balanced left) (hr : Balanced right) (ht : Balanced whenTrue)
    (hf : Balanced whenFalse) :
    Balanced (joined [','] [left ++ symbol ++ right, whenTrue, whenFalse]) := by
  have nil : Balanced [] := rfl
  have comma : Balanced [','] := rfl
  exact joined_comparison (fun _ _ => Balanced.append) nil comma (balanced_of_isPlain plain)
    hl hr ht hf

end

end Formula

end CellFormula
