import CellFormula.Proofs.Calls
import CellFormula.Proofs.Levels

/-!
# What the second reading of a chain rescues

A text that could not be read is tried once more as a chain, its operands with all levels of the
limit. For a text that the chain rule took in the first place this is one level more and nothing
else. Any other text with an operator at top level is a call that failed, and then its first operand
is the same call cut short, which fails as well.
-/

namespace CellFormula.Reading

open Text Scan Nesting
open Formula (parse parseStrict)

/-- The tree that was read, or else the text itself. -/
def treeOrText (cs : List Char) : Except ReadingError Formula → Formula
  | .ok f => f
  | .error _ => .text (String.ofList cs)

/-- A text with an operator at top level that no rule before the one for chains takes. -/
structure OperatorText (known : Registry) (cs : List Char) : Prop where
  operator : hasTopLevelOperator cs = true
  not_conditional : startsConditional cs = false
  not_lookup : startsLookup cs = false
  not_quoted : quotedInterior cs = none
  not_bracketed : wrappedInterior .bracket cs = none
  not_number : number? cs = none
  not_known : known.contains (String.ofList cs) = false
  not_spreadsheet : isSpreadsheetName cs = false
  not_identifier : isIdentifier cs = false

theorem leaf?_eq_none_iff {α : Type} [Depth α] {known : Registry} {cs : List Char} :
    leaf? known cs α = none ↔ quotedInterior cs α = none ∧
      wrappedInterior .bracket cs α = none ∧ number? cs = none ∧
        known.contains (String.ofList cs) = false ∧ isSpreadsheetName cs = false ∧
          isIdentifier cs = false := by
  rw [leaf?]
  cases quotedInterior cs α with
  | some interior => simp
  | none =>
    cases wrappedInterior .bracket cs α with
    | some interior => simp
    | none =>
      cases number? cs with
      | some x => simp
      | none => simp [and_assoc]

theorem operatorText_iff {known : Registry} {cs : List Char} : OperatorText known cs ↔
    hasTopLevelOperator cs = true ∧ startsConditional cs = false ∧ startsLookup cs = false ∧
      leaf? known cs = none := by
  rw [leaf?_eq_none_iff]
  constructor
  · intro h
    exact ⟨h.operator, h.not_conditional, h.not_lookup, h.not_quoted, h.not_bracketed,
      h.not_number, h.not_known, h.not_spreadsheet, h.not_identifier⟩
  · rintro ⟨ho, hc, hl, hq, hb, hn, hk, hs, hi⟩
    exact ⟨ho, hc, hl, hq, hb, hn, hk, hs, hi⟩

instance (known : Registry) (cs : List Char) : Decidable (OperatorText known cs) :=
  decidable_of_iff _ operatorText_iff.symm

theorem OperatorText.rules_eq {known : Registry} {cs : List Char} (h : OperatorText known cs)
    (inner : Reader) : rules known inner cs = chain inner cs := by
  obtain ⟨operator, conditional, lookup, leaf⟩ := operatorText_iff.mp h
  simp [rules, conditional, lookup, leaf, operator]

/-- The second reading of such a text is a first reading with one level more. -/
theorem OperatorText.chain_eq {known : Registry} {cs : List Char} (h : OperatorText known cs)
    (trimmed : Trimmed cs) (limit levels : Nat) :
    chain (expression ⟨known, limit⟩ levels) cs = expression ⟨known, limit⟩ (levels + 1) cs := by
  rw [expression_succ, trimmed.trim_eq, h.rules_eq]

theorem chain_eq_error_of_head {inner : Reader} {cs p : List Char} {ps : List (List Char)}
    {e : ReadingError} (hp : (Segments.ofText cs).operands = p :: ps) (he : inner p = .error e) :
    ∃ e', chain inner cs = .error e' := by
  rw [chain_eq_read, chainOutline]
  dsimp only
  split
  · split
    · exact ⟨_, rfl⟩
    · rw [hp]
      exact ⟨e, he⟩
  · split
    · exact ⟨_, rfl⟩
    · rw [hp, Outline.read, List.mapM_cons, he]
      exact ⟨e, rfl⟩

/-- The first operand of a text that begins with a call begins with the same head. -/
theorem operands_of_starts {keyword : Keyword} {before : List Char} (rest : List Char)
    (word : IsWord keyword before) :
    ∃ p ps, (Segments.ofText (before ++ '(' :: rest)).operands = (before ++ '(' :: p) :: ps ∧
      p <+: rest := by
  have quiet : ∀ c ∈ start.surface (before ++ ['(']), isOperator c = false := by
    intro c hc
    rcases List.mem_append.mp (surface_subset _ _ hc) with hc | hc
    · exact word.isOperator_eq_false c hc
    · rw [List.mem_singleton.mp hc]
      rfl
  have cut := rawSegments_append quiet true rest
  have whole := append_rawSegments (start.run (before ++ ['(']))
    (true && (before ++ ['(']).all isBlank) rest
  generalize rawSegments (start.run (before ++ ['('])) _ rest = after at cut whole
  have front : trim (before ++ ['('] ++ after.1) = before ++ '(' :: trimEnd after.1 := by
    rw [word.trimmed.trim_append (by simp)]
    simp
  refine ⟨trimEnd after.1, dropEmptyLast (after.2.map fun s => trim s.2), ?_, ?_⟩
  · have split : before ++ '(' :: rest = before ++ ['('] ++ rest := by simp
    rw [Segments.ofText, split, cut]
    simp only [List.map_cons, List.map_map, front]
    exact dropEmptyLast_cons (by simp) _
  · exact (trimEnd_isPrefix _).trans ⟨_, whole⟩

theorem outline_of_keyword {known : Registry} {keyword : Keyword} {cs : List Char}
    (h : keyword? cs = some keyword) :
    outline known cs = callOutline keyword (callArguments keyword cs) := by
  rw [outline, h]

/-- A call that fails leaves no operand for a chain: what the operators cut off is the same call, or
is not even closed. -/
theorem head_fails_of_call_fails {known : Registry} {limit levels : Nat} {keyword : Keyword}
    {cs : List Char} {e : ReadingError} (trimmed : Trimmed cs) (call : keyword? cs = some keyword)
    (fails : expression ⟨known, limit⟩ (levels + 1) cs = .error e) :
    ∃ p ps e', (Segments.ofText cs).operands = p :: ps ∧
      expression ⟨known, limit⟩ (levels + 1) p = .error e' := by
  obtain ⟨before, rest, word, rfl⟩ := keyword?_eq_some_iff.mp call
  obtain ⟨p, ps, hp, after, rfl⟩ := operands_of_starts rest word
  refine ⟨before ++ '(' :: p, ps, ?_⟩
  have operandTrimmed : Trimmed (before ++ '(' :: p) := by
    obtain ⟨q, -, hq⟩ := Segments.mem_raw (hp ▸ List.mem_cons_self)
    exact hq ▸ trimmed_trim q
  have operandCall : keyword? (before ++ '(' :: p) = some keyword :=
    keyword?_eq_some_iff.mpr ⟨before, p, word, rfl⟩
  rw [expression_succ, trimmed.trim_eq, rules_eq_read, outline_of_keyword call] at fails
  rw [expression_succ, operandTrimmed.trim_eq, rules_eq_read, outline_of_keyword operandCall]
  cases closed : splitCall (before ++ '(' :: p) with
  | none =>
    rw [callArguments, closed]
    exact ⟨_, hp, rfl⟩
  | some sides =>
    obtain ⟨content, tail⟩ := sides
    have same : callArguments keyword (before ++ '(' :: (p ++ after)) =
        callArguments keyword (before ++ '(' :: p) := by
      have longer := splitCall_append closed after
      rw [List.append_assoc] at longer
      rw [callArguments, callArguments, closed]
      simp only [List.cons_append] at longer
      rw [longer]
    rw [← same]
    exact ⟨e, hp, fails⟩

/-- A text that the chain rule did not take is not read as a chain either, once it has failed. -/
theorem chain_fails {known : Registry} {n : Nat} {cs : List Char} {e : ReadingError}
    (trimmed : Trimmed cs) (operator : hasTopLevelOperator cs = true)
    (other : ¬ OperatorText known cs) (fails : expression ⟨known, n⟩ n cs = .error e) :
    ∃ e', chain (expression ⟨known, n⟩ n) cs = .error e' := by
  cases n with
  | zero =>
    cases hp : (Segments.ofText cs).operands with
    | nil =>
      refine ⟨.noLeftOperand cs, ?_⟩
      rw [chain]
      simp [hp]
    | cons p ps => exact chain_eq_error_of_head hp rfl
  | succ levels =>
    cases call : keyword? cs with
    | some keyword =>
      obtain ⟨p, ps, e', hp, he'⟩ := head_fails_of_call_fails trimmed call fails
      exact chain_eq_error_of_head hp he'
    | none =>
      obtain ⟨conditional, lookup⟩ := keyword?_eq_none_iff.mp call
      cases leaf : leaf? known cs with
      | none => exact absurd (operatorText_iff.mpr ⟨operator, conditional, lookup, leaf⟩) other
      | some f =>
        rw [expression_succ, trimmed.trim_eq, rules] at fails
        simp [conditional, lookup, leaf] at fails

theorem trimmed_strip (cs : List Char) : Trimmed (strip cs) := by
  unfold strip
  split
  · exact trimmed_trim _
  · exact trimmed_trim cs

theorem strip_isInfix (cs : List Char) : strip cs <:+: cs := by
  have outer := trim_isInfix cs
  unfold strip
  split
  · next rest whole =>
    rw [whole] at outer
    exact (trim_isInfix rest).trans ((List.suffix_cons _ _).isInfix.trans outer)
  · exact outer

theorem treeOrText_settles {known : Registry} {cs : List Char} {k : Nat}
    {r : Except ReadingError Formula}
    (h : Settles (fun limit levels => expression ⟨known, limit⟩ levels cs) k r)
    (limit limit' levels : Nat) : treeOrText cs (expression ⟨known, limit⟩ levels cs) =
      treeOrText cs (expression ⟨known, limit'⟩ levels cs) := by
  by_cases low : levels < k
  · rw [h.below limit levels low, h.below limit' levels low]
    rfl
  · rw [h.above limit levels (by omega), h.above limit' levels (by omega)]

theorem parse_of_ok {options : ParseOptions} {text : String} {f : Formula}
    (h : parseStrict options text = .ok f) : parse options text = f := by
  rw [parseStrict] at h
  simp only [parse, h]

theorem parse_of_error {options : ParseOptions} {text : String} {e : ReadingError}
    (h : parseStrict options text = .error e) : parse options text =
      if hasTopLevelOperator (strip text.toList) then
        treeOrText (strip text.toList)
          (chain (expression options options.limit) (strip text.toList))
      else .text (String.ofList (strip text.toList)) := by
  rw [parseStrict] at h
  simp only [parse, h]
  split
  · cases chain (expression options options.limit) (strip text.toList) <;> rfl
  · rfl

theorem parse_operatorText {known : Registry} {text : String}
    (h : OperatorText known (strip text.toList)) (n : Nat) : parse ⟨known, n⟩ text =
      treeOrText (strip text.toList) (parseStrict ⟨known, n + 1⟩ text) := by
  obtain ⟨k, r, -, settled⟩ := expression_settles known (strip text.toList)
  cases first : parseStrict ⟨known, n⟩ text with
  | ok f =>
    have enough : k ≤ n := by
      apply Nat.le_of_not_lt
      intro low
      have tooDeep := settled.below n n low
      rw [parseStrict] at first
      rw [first] at tooDeep
      cases tooDeep
    rw [parse_of_ok first, parseStrict]
    rw [parseStrict] at first
    have same : expression ⟨known, n + 1⟩ (n + 1) (strip text.toList) =
        expression ⟨known, n⟩ n (strip text.toList) :=
      (settled.above (n + 1) (n + 1) (by omega)).trans (settled.above n n enough).symm
    rw [same, first]
    rfl
  | error e =>
    rw [parse_of_error first, if_pos h.operator, h.chain_eq (trimmed_strip _)]
    exact treeOrText_settles settled n (n + 1) (n + 1)

theorem parse_of_not_operatorText {known : Registry} {text : String}
    (h : ¬ OperatorText known (strip text.toList)) (n : Nat) : parse ⟨known, n⟩ text =
      treeOrText (strip text.toList) (parseStrict ⟨known, n⟩ text) := by
  cases first : parseStrict ⟨known, n⟩ text with
  | ok f => exact parse_of_ok first
  | error e =>
    rw [parse_of_error first]
    by_cases operator : hasTopLevelOperator (strip text.toList) = true
    · rw [if_pos operator]
      obtain ⟨e', he'⟩ := chain_fails (trimmed_strip _) operator h first
      rw [he']
      rfl
    · rw [if_neg operator]
      rfl

/-- Whatever the limit, the tree of a text is read strictly under some limit or is the text
itself. -/
theorem parse_cases (options : ParseOptions) (text : String) :
    (∃ limit, parseStrict ⟨options.known, limit⟩ text = .ok (parse options text)) ∨
      parse options text = .text (String.ofList (strip text.toList)) := by
  obtain ⟨known, n⟩ := options
  have once : ∃ limit, parse ⟨known, n⟩ text =
      treeOrText (strip text.toList) (parseStrict ⟨known, limit⟩ text) := by
    by_cases operator : OperatorText known (strip text.toList)
    · exact ⟨n + 1, parse_operatorText operator n⟩
    · exact ⟨n, parse_of_not_operatorText operator n⟩
  obtain ⟨limit, whole⟩ := once
  cases read : parseStrict ⟨known, limit⟩ text with
  | ok f =>
    rw [read] at whole
    exact .inl ⟨limit, by rw [read, whole]; rfl⟩
  | error e =>
    rw [read] at whole
    exact .inr whole

/-- The second reading succeeds after the first has failed only where one level was missing. -/
theorem rescue_only_of_depth {known : Registry} {n : Nat} {text : String} {e : ReadingError}
    {f : Formula} (first : parseStrict ⟨known, n⟩ text = .error e)
    (operator : hasTopLevelOperator (strip text.toList) = true)
    (second : chain (expression ⟨known, n⟩ n) (strip text.toList) = .ok f) :
    OperatorText known (strip text.toList) ∧
      ∀ m, parseStrict ⟨known, m⟩ text = if m ≤ n then .error (.nestingTooDeep m) else .ok f := by
  have taken : OperatorText known (strip text.toList) := by
    by_contra other
    obtain ⟨e', he'⟩ := chain_fails (trimmed_strip _) operator other first
    rw [second] at he'
    cases he'
  refine ⟨taken, ?_⟩
  obtain ⟨k, r, -, settled⟩ := expression_settles known (strip text.toList)
  rw [taken.chain_eq (trimmed_strip _)] at second
  have reached : k ≤ n + 1 := by
    apply Nat.le_of_not_lt
    intro low
    have tooDeep := settled.below n (n + 1) low
    rw [second] at tooDeep
    cases tooDeep
  have answer : r = .ok f := (settled.above n (n + 1) reached).symm.trans second
  have missing : n < k := by
    apply Nat.lt_of_not_le
    intro enough
    have found := settled.above n n enough
    rw [answer] at found
    cases first.symm.trans found
  intro m
  by_cases low : m ≤ n
  · rw [if_pos low]
    exact settled.below m m (by omega)
  · rw [if_neg low]
    exact (settled.above m m (by omega)).trans answer

theorem text_of_isOfText {known : Registry} {n : Nat} {text : String} {e : ReadingError}
    (first : parseStrict ⟨known, n⟩ text = .error e) (ofText : e.isOfText = true) :
    parse ⟨known, n⟩ text = .text (String.ofList (strip text.toList)) := by
  by_cases operator : OperatorText known (strip text.toList)
  · obtain ⟨k, r, -, settled⟩ := expression_settles known (strip text.toList)
    have enough : k ≤ n := by
      apply Nat.le_of_not_lt
      intro low
      cases first.symm.trans (settled.below n n low)
      cases ofText
    have answer : r = .error e := (settled.above n n enough).symm.trans first
    have again : parseStrict ⟨known, n + 1⟩ text = .error e :=
      (settled.above (n + 1) (n + 1) (by omega)).trans answer
    rw [parse_operatorText operator, again]
    rfl
  · rw [parse_of_not_operatorText operator, first]
    rfl

/-- What reading a chain a second time can rescue, and what it cannot: a text of the chain rule gets
one level more than the limit, every other text nothing, and an error of the text is never
rescued. -/
theorem parse_retry (known : Registry) (n : Nat) (text : String) :
    (parse ⟨known, n⟩ text = treeOrText (strip text.toList) (parseStrict
      ⟨known, if OperatorText known (strip text.toList) then n + 1 else n⟩ text)) ∧
    (∀ e, parseStrict ⟨known, n⟩ text = .error e → e.isOfText = true →
      parse ⟨known, n⟩ text = .text (String.ofList (strip text.toList))) ∧
    ∀ e f, parseStrict ⟨known, n⟩ text = .error e →
      hasTopLevelOperator (strip text.toList) = true →
      chain (expression ⟨known, n⟩ n) (strip text.toList) = .ok f →
        OperatorText known (strip text.toList) ∧
        ∀ m, parseStrict ⟨known, m⟩ text =
          if m ≤ n then .error (.nestingTooDeep m) else .ok f := by
  refine ⟨?_, fun _ => text_of_isOfText, fun _ _ => rescue_only_of_depth⟩
  by_cases operator : OperatorText known (strip text.toList)
  · rw [if_pos operator]
    exact parse_operatorText operator n
  · rw [if_neg operator]
    exact parse_of_not_operatorText operator n

/-- One level is missing for the group, and the second reading supplies it. -/
example : parseStrict ⟨.empty, 2⟩ "A1+(B1)" = .error (.nestingTooDeep 2) ∧
    parse ⟨.empty, 2⟩ "A1+(B1)" = .chain [.cell "A1", .cell "B1"] (.perPair [.add]) := by
  decide

end CellFormula.Reading
