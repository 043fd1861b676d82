import CellFormula.Proofs.Composition
import CellFormula.Proofs.Levels

/-!
# Reading layouts

Every layout of a clean tree reads as the normal form of the tree, as the text written for the tree
does. The induction is over the tree and carries what may follow: after a call anything, since
nothing there is looked at, and after any other tree only blanks. So a chain that begins with a call
is read by the hypothesis for that call, with the rest of the chain after it.
-/

namespace CellFormula

namespace Formula

open Scan

theorem Loose.selfContained {p : List Char} (h : Loose true p) : SelfContained p where
  ends := by
    rw [h.operand.closed.run]
    rfl
  balanced := h.balanced rfl
  comma hc := by cases h.operand.quiet _ hc

theorem need_le (f : Formula) : f.need ≤ 2 * f.height := by
  have list : ∀ {xs : List Formula}, (∀ x ∈ xs, x.need ≤ 2 * x.height) →
      needList xs ≤ 2 * heightList xs := by
    intro xs each
    rw [needList_le_iff]
    intro x hx
    exact Nat.le_trans (each x hx)
      (Nat.mul_le_mul_left 2 (heightList_le_iff.mp (Nat.le_refl _) x hx))
  induction f using induction with
  | cell | number | text => exact Nat.le_succ 1
  | chain operands operators ih =>
    have := list ih
    rw [need, height]
    omega
  | conditional comparator l r t f ihl ihr iht ihf =>
    rw [need, height]
    omega
  | call name arguments ih =>
    have := list ih
    rw [need, height]
    omega

end Formula

namespace Reading

open Text Scan Nesting Formula

/-- Every layout of the tree reads as its normal form, whatever follows if it is a call. -/
def ReadsLaidOut (options : ParseOptions) (f : Formula) : Prop :=
  ∀ n w after, f.need ≤ n → LaidOut f w → (f.isCall = true ∨ ∀ c ∈ after, isBlank c = true) →
    expression options n (w ++ after) = .ok f.norm

section

variable {options : ParseOptions} {n : Nat}

theorem ReadsLaidOut.of_spaced {f : Formula} {p : List Char} (reads : ReadsLaidOut options f)
    (enough : f.need ≤ n) (spaced : Spaced f p) : expression options n p = .ok f.norm := by
  obtain ⟨laid, blankBefore, blankAfter⟩ := spaced
  rw [List.append_assoc, expression_congr options n (trim_blanks_append blankBefore _)]
  exact reads n _ _ enough laid (.inr blankAfter)

theorem mapM_spaced {xs : List Formula} {ps : List (List Char)}
    (pieces : List.Forall₂ Spaced xs ps) (reads : ∀ x ∈ xs, ReadsLaidOut options x)
    (enough : needList xs ≤ n) : ps.mapM (expression options n) = .ok (normList xs) := by
  rw [mapM_eq_ok_iff]
  rw [needList_le_iff] at enough
  induction pieces with
  | nil => exact .nil
  | cons first _ ih =>
    obtain ⟨reads, readsRest⟩ := List.forall_mem_cons.mp reads
    obtain ⟨enough, enoughRest⟩ := List.forall_mem_cons.mp enough
    exact .cons (reads.of_spaced enough first) (ih readsRest enoughRest)

/-- The blanks before a text and those at the end are trimmed off, those between stay. -/
theorem trim_spaced {before w after : List Char} (blank : ∀ c ∈ before, isBlank c = true)
    (trimmed : Trimmed w) (ne : w ≠ []) (op : Operator) (ys : List Char) :
    trim (before ++ w ++ after ++ op.symbol :: ys) = w ++ after ++ op.symbol :: trimEnd ys := by
  have visible : isBlank op.symbol = false := by cases op <;> rfl
  have stop : ∀ c, (after ++ [op.symbol]).getLast? = some c → isBlank c = false := by
    intro c hc
    rw [List.getLast?_append] at hc
    cases hc
    exact visible
  have shape : before ++ w ++ after ++ op.symbol :: ys =
      before ++ (w ++ (after ++ [op.symbol] ++ ys)) := by simp
  rw [shape, trim_blanks_append blank, trimmed.trim_append ne, trimEnd_append stop]
  simp

theorem strip_spaced_append {inCall : Bool} {f : Formula} (clean : f.Clean inCall)
    {p : List Char} (spaced : Spaced f p) (rest : List Char) :
    strip (p ++ rest) = trim (p ++ rest) := by
  obtain @⟨_, before, w, after, laid, blankBefore, -⟩ := spaced
  have compact := (tidy_laidOut clean laid).compact
  have shape : before ++ w ++ after ++ rest = before ++ (w ++ (after ++ rest)) := by simp
  apply strip_eq_trim
  rw [shape, trim_blanks_append blankBefore, compact.trimmed.trim_append compact.ne_nil,
    List.head?_append_of_ne_nil _ compact.ne_nil]
  intro first
  obtain ⟨more, rfl⟩ := List.head?_eq_some_iff.mp first
  cases compact.head

/-- Of a whole text the blanks around it and the equals sign are stripped off. -/
theorem strip_entered {f : Formula} (clean : f.Clean false) {cs : List Char}
    (entered : Entered f cs) : ∃ p, Spaced f p ∧ strip cs = trim p := by
  cases entered with
  | plain spaced =>
    have whole := strip_spaced_append clean spaced []
    rw [List.append_nil] at whole
    exact ⟨cs, spaced, whole⟩
  | @marked before p blank spaced =>
    have mark : Trimmed ['='] := trimmed_iff.mpr rfl
    have whole : trim (before ++ '=' :: p) = '=' :: trimEnd p := by
      rw [trim_blanks_append blank]
      exact mark.trim_append (by simp) p
    refine ⟨p, spaced, ?_⟩
    rw [strip, whole]
    exact trim_trimEnd p

theorem readsLaidOut_leaf {inCall : Bool} {f : Formula} (clean : f.Clean inCall)
    (one : f.need = 1) (other : f.isCall = false)
    (leaf : ∀ w, LaidOut f w → outline options.known w = .leaf f.norm) :
    ReadsLaidOut options f := by
  intro n w after enough laid ends
  obtain ⟨m, rfl⟩ : ∃ m, n = m + 1 := ⟨n - 1, by omega⟩
  have trimmed := (tidy_laidOut clean laid).compact.trimmed
  rcases ends with call | blank
  · rw [other] at call
    cases call
  · rw [expression_succ, trim_append_blanks blank, trimmed.trim_eq, rules_eq_read, leaf w laid]
    rfl

theorem readsLaidOut_conditional {inCall : Bool} {comparator : Comparator} {l r t f : Formula}
    (clean : (Formula.conditional comparator l r t f).Clean inCall)
    (readsL : ReadsLaidOut options l) (readsR : ReadsLaidOut options r)
    (readsT : ReadsLaidOut options t) (readsF : ReadsLaidOut options f) :
    ReadsLaidOut options (.conditional comparator l r t f) := by
  intro n w after enough laid _
  obtain ⟨hl, hr, ht, hf⟩ := clean
  rw [need] at enough
  obtain ⟨m, rfl⟩ : ∃ m, n = m + 1 := ⟨n - 1, by omega⟩
  cases laid with
  | @conditional _ _ _ _ _ word left symbol right whenTrue whenFalse head spelled spacedL spacedR
      spacedT spacedF =>
    have looseL := loose_spaced hl spacedL
    have looseR := loose_spaced hr spacedR
    have looseT := loose_spaced ht spacedT
    have looseF := loose_spaced hf spacedF
    have contained : ∀ w ∈ [left, right, whenTrue, whenFalse], SelfContained w := by
      simp only [List.forall_mem_cons]
      exact ⟨looseL.selfContained, looseR.selfContained, looseT.selfContained,
        looseF.selfContained, by simp⟩
    have call := expression_comparison options m head contained looseL.operand.withoutComparator
      looseR.operand.withoutComparator looseF.operand.visible spelled after
    rw [List.append_assoc, List.singleton_append, call,
      readsL.of_spaced (by omega) spacedL, readsR.of_spaced (by omega) spacedR,
      readsT.of_spaced (by omega) spacedT, readsF.of_spaced (by omega) spacedF]
    rfl

theorem readsLaidOut_lookup {xs : List Formula} (clean : ∀ x ∈ xs, x.Clean true)
    (reads : ∀ x ∈ xs, ReadsLaidOut options x) : ReadsLaidOut options (.lookup xs) := by
  intro n w after enough laid _
  rw [Formula.lookup, need] at enough
  obtain ⟨m, rfl⟩ : ∃ m, n = m + 1 := ⟨n - 1, by omega⟩
  cases laid with
  | @lookup _ word ps head arguments =>
    have loose := loose_pieces clean arguments
    have call := expression_lookup options m head (fun p hp => (loose p hp).selfContained)
      (fun p last => (loose p (List.mem_of_getLast? last)).operand.visible) after
    rw [List.append_assoc, List.singleton_append, call, mapM_spaced arguments reads (by omega)]
    rfl
  | noArguments head blank =>
    rw [List.append_assoc, List.singleton_append,
      expression_of_call options m head (balanced_of_isBlank blank), splitTopLevel_blanks blank]
    rfl

section

variable {inCall : Bool} {xs : List Formula} {ps : List (List Char)}
  (rest : List.Forall₂ Spaced xs ps)

include rest

theorem loose_links (operators : List Operator) (clean : ∀ x ∈ xs, x.Clean inCall) :
    ∀ s ∈ operators.zip ps, Loose inCall s.2 :=
  fun s hs => loose_pieces clean rest s.2 (List.of_mem_zip hs).2

theorem exists_links {operators : List Operator} (count : operators.length = xs.length)
    (joins : xs ≠ []) : ∃ s more, operators.zip ps = s :: more := by
  have lengths := rest.length_eq
  have some := List.length_pos_iff.mpr joins
  apply List.exists_cons_of_ne_nil
  rw [← List.length_pos_iff, List.length_zip]
  omega

end

variable (names : options.known.WithoutOperators) {inCall : Bool}

include names

section

variable {x : Formula} {xs : List Formula} (clean : ∀ y ∈ x :: xs, y.Clean inCall) {p : List Char}
  {ps : List (List Char)} (first : Spaced x p) (rest : List.Forall₂ Spaced xs ps)
  (reads : ∀ y ∈ x :: xs, ReadsLaidOut options y) {operators : List Operator}
  (count : operators.length = xs.length) (joins : xs ≠ [])

include clean first rest reads count joins

/-- Operands with operators between them are read one by one, but after a call nothing is read. -/
theorem expression_interior (enough : needList (x :: xs) ≤ n) :
    expression options (n + 1) (p ++ links (operators.zip ps)) = .ok (if x.isCall then x.norm
      else .chain (normList (x :: xs)) (.perPair operators)) := by
  have lengths := rest.length_eq
  have texts : (operators.zip ps).map (·.2) = ps := List.map_snd_zip (by omega)
  have symbols : (operators.zip ps).map (·.1) = operators := List.map_fst_zip (by omega)
  obtain ⟨cleanX, cleanXs⟩ := List.forall_mem_cons.mp clean
  have operand := (loose_spaced cleanX first).operand
  have operands := fun s hs => (loose_links rest operators cleanXs s hs).operand
  have whole := mapM_spaced (.cons first rest) reads enough
  obtain ⟨laid, blankBefore, blankAfter⟩ := first
  split
  · next led =>
    rw [needList] at enough
    rw [List.append_assoc, List.append_assoc,
      expression_congr options _ (trim_blanks_append blankBefore _)]
    exact reads x List.mem_cons_self _ _ _ (by omega) laid (.inl led)
  · next other =>
    obtain ⟨s, more, zip⟩ := exists_links rest count joins
    rw [zip] at texts symbols operands ⊢
    have compact := (tidy_laidOut cleanX laid).compact
    have shut := unrecognised blankAfter s.1 (trimEnd (s.2 ++ links more)) cleanX
      (by simpa using other) laid
    rw [← trim_spaced blankBefore compact.trimmed compact.ne_nil] at shut
    rw [expression_succ, rules_eq_read, outline_interior names operand operands shut, symbols,
      texts, Outline.read, mapM_trim, whole]
    rfl

end

theorem readsLaidOut_chain {operands : List Formula} {operators : Operators}
    (clean : (Formula.chain operands operators).Clean inCall)
    (reads : ∀ y ∈ operands, ReadsLaidOut options y) :
    ReadsLaidOut options (.chain operands operators) := by
  intro n w after enough laid ends
  obtain ⟨fits, children⟩ := clean
  have children := cleanList_iff.mp children
  rw [need] at enough
  obtain ⟨m, rfl⟩ : ∃ m, n = m + 1 + 1 := ⟨n - 2, by omega⟩
  have blank : ∀ c ∈ after, isBlank c = true := by
    rcases ends with call | blank
    · cases call
    · exact blank
  cases laid with
  | @chain x xs _ p ps first rest =>
    have two := Operators.two_le fits
    have count : (operators.toList (xs.length + 1)).length = xs.length := by
      simpa using Operators.length_toList fits
    have joins : xs ≠ [] := by
      rintro rfl
      exact absurd two (by simp)
    obtain ⟨cleanX, cleanXs⟩ := List.forall_mem_cons.mp children
    obtain ⟨s, more, zip⟩ := exists_links rest count joins
    have group := outline_chain names (loose_spaced cleanX first)
      (zip ▸ loose_links rest (operators.toList (xs.length + 1)) cleanXs)
    rw [← zip] at group
    rw [expression_congr options _ (trim_append_blanks blank _), expression_succ,
      (trimmed_ends rfl rfl _).trim_eq, rules_eq_read, group, Outline.read,
      expression_interior names children first rest reads count joins (by omega)]
    rw [Formula.norm]
    split <;> rfl

/-- The layouts of clean trees read as their normal forms. -/
theorem readsLaidOut {f : Formula} (clean : f.Clean inCall) : ReadsLaidOut options f := by
  induction f using Formula.induction generalizing inCall with
  | cell name =>
    apply readsLaidOut_leaf clean rfl rfl
    intro w laid
    cases laid
    rw [outline_name _ clean, cellNamed, String.ofList_toList]
    rfl
  | number value =>
    apply readsLaidOut_leaf clean rfl rfl
    intro w laid
    cases laid
    exact outline_number _ clean
  | text value =>
    apply readsLaidOut_leaf clean rfl rfl
    intro w laid
    cases laid
    rw [outline_text _ clean.1, String.ofList_toList]
    rfl
  | chain operands operators ih =>
    have children := cleanList_iff.mp clean.2
    exact readsLaidOut_chain names clean fun y hy => ih y hy (children y hy)
  | conditional comparator l r t f ihl ihr iht ihf =>
    exact readsLaidOut_conditional clean (ihl clean.1) (ihr clean.2.1) (iht clean.2.2.1)
      (ihf clean.2.2.2)
  | call name arguments ih =>
    obtain ⟨rfl, children⟩ := clean
    have children := cleanList_iff.mp children
    exact readsLaidOut_lookup children fun x hx => ih x hx (children x hx)

/-- What is entered for a clean tree reads strictly as its normal form. -/
theorem parseStrict_entered {f : Formula} (clean : f.Clean false) {text : String}
    (entered : Entered f text.toList) (enough : f.need ≤ options.limit) :
    parseStrict options text = .ok f.norm := by
  obtain ⟨p, spaced, stripped⟩ := strip_entered clean entered
  rw [parseStrict, stripped, expression_congr options _ (trim_trim p)]
  exact (readsLaidOut names clean).of_spaced enough spaced

end

/-- `([a+b]-IF(A1=-2.5,"()",LOOKUP(LOOKUP())))` as it is written. -/
def sprawlingTree : Formula :=
  .chain [.cell "[a+b]", .conditional .equal (.cell "A1") (.number ⟨true, 1024, 1125899906842624⟩)
    (.text "()") (.lookup [.lookup []])] (.shared .subtract)

def sprawlingText : String :=
  " = (\u00a0[a+b] -\n iF\t(A1 ==-2.5 , \"()\",LookUp( lookup(  ))) ) "

theorem entered_sprawlingText : Entered sprawlingTree sprawlingText.toList := by
  have blank : ∀ {bs : List Char}, bs.all isBlank = true → ∀ c ∈ bs, isBlank c = true :=
    List.all_eq_true.mp
  have none : LaidOut (.lookup []) "lookup(  )".toList :=
    @LaidOut.noArguments "lookup".toList "  ".toList rfl (blank rfl)
  have some : LaidOut (.lookup [.lookup []]) "LookUp( lookup(  ))".toList :=
    @LaidOut.lookup [_] "LookUp".toList [" lookup(  )".toList] rfl
      (.cons (spaced_blank_cons none.spaced) .nil)
  have cell : Spaced (.cell "A1") "A1 ".toList :=
    @Spaced.pad _ [] _ [' '] (.cell "A1") (blank rfl) (blank rfl)
  have value : LaidOut (.number ⟨true, 1024, 1125899906842624⟩) "-2.5".toList := by
    have text : Binary64.toText ⟨true, 1024, 1125899906842624⟩ = "-2.5".toList := by decide
    exact text ▸ .number _
  have quoted : Spaced (.text "()") " \"()\"".toList :=
    spaced_blank_cons (LaidOut.text "()").spaced
  have padded : Spaced (.number ⟨true, 1024, 1125899906842624⟩) "-2.5 ".toList :=
    @Spaced.pad _ [] _ [' '] value (blank rfl) (blank rfl)
  have word : IsWord .conditional "iF\t".toList := ⟨"iF".toList, ['\t'], rfl, rfl, blank rfl⟩
  have conditional := @LaidOut.conditional .equal _ _ _ _ "iF\t".toList _ "==".toList _ _ _ word
    (by decide) cell padded quoted some.spaced
  have first : Spaced (.cell "[a+b]") "\u00a0[a+b] ".toList :=
    @Spaced.pad _ ['\u00a0'] _ [' '] (.cell "[a+b]") (blank rfl) (blank rfl)
  have second := @Spaced.pad _ "\n ".toList _ [' '] conditional (blank rfl) (blank rfl)
  have chain := @LaidOut.chain _ _ (.shared .subtract) _ _ first (.cons second .nil)
  have whole := @Spaced.pad _ " ".toList _ " ".toList chain (blank rfl) (blank rfl)
  have marked := @Entered.marked sprawlingTree [' '] _ (blank rfl) whole
  refine (congrArg (Entered sprawlingTree) ?_).mp marked
  decide

/-- The texts of a preview are operands of its plus signs, with a blank on the sides of those. -/
theorem joined_sum {text : Formula → List Char} {x : Formula} {xs : List Formula}
    (laid : ∀ y ∈ x :: xs, LaidOut y (text y)) : ∃ p ps, Spaced x p ∧ List.Forall₂ Spaced xs ps ∧
      joined " + ".toList ((x :: xs).map text) =
        p ++ links ((List.replicate xs.length .add).zip ps) := by
  induction xs generalizing x with
  | nil =>
    refine ⟨text x, [], (laid x List.mem_cons_self).spaced, .nil, ?_⟩
    simp [joined, links]
  | cons y ys ih =>
    obtain ⟨here, others⟩ := List.forall_mem_cons.mp laid
    obtain ⟨q, qs, first, rest, whole⟩ := ih others
    have padded : Spaced x ([] ++ text x ++ [' ']) :=
      .pad here (by simp) (List.forall_mem_singleton.mpr rfl)
    refine ⟨_, (' ' :: q) :: qs, padded, .cons (spaced_blank_cons first) rest, ?_⟩
    have cut : joined " + ".toList ((x :: y :: ys).map text) =
        text x ++ " + ".toList ++ joined " + ".toList ((y :: ys).map text) := rfl
    rw [cut, whole]
    simp [links, Operator.symbol, List.replicate_succ]

section

variable {options : ParseOptions} (names : options.known.WithoutOperators) {x y : Formula}
  {zs : List Formula} (clean : ∀ z ∈ x :: y :: zs, z.Clean false)
  (enough : needList (x :: y :: zs) < options.limit)

include names clean enough

theorem parseStrict_previewAll : parseStrict options (previewAll (x :: y :: zs)) =
    .ok (if x.isCall then x.norm
      else .chain (normList (x :: y :: zs)) (.perPair (List.replicate (zs.length + 1) .add))) := by
  obtain ⟨p, ps, first, rest, whole⟩ := joined_sum fun z hz => laidOut_write .single (clean z hz)
  have count : (List.replicate (zs.length + 1) Operator.add).length = (y :: zs).length := by simp
  have interior := expression_interior names clean first rest
    (fun z hz => readsLaidOut names (clean z hz)) count (by simp) (Nat.le_sub_one_of_lt enough)
  rw [Nat.sub_add_cancel (Nat.one_le_of_lt enough)] at interior
  rw [parseStrict, previewAll, String.toList_ofList, whole,
    strip_spaced_append (clean x List.mem_cons_self) first,
    expression_congr options _ (trim_trim _)]
  exact interior

end

/-- A signed number to be put after a plus sign, a chain, and a call that is not the first. -/
def mixedTerms : List Formula :=
  [.cell "A1", .number ⟨true, 1024, 1125899906842624⟩,
    .chain [.text "a,b", .cell "[x*y]"] (.shared .divide), .lookup []]

end Reading

end CellFormula
