import CellFormula.Proofs.Groups
import CellFormula.Proofs.QuotedTexts

/-!
# Matching parentheses

Two searches look for the parenthesis that closes the first one. The search of a wrapped text
follows the scan, which knows quotes and brackets and may go below zero; that of a call counts
parentheses and nothing else. What each of them finds is exactly what matches by its own count. Away
from quotes the two counts are one, so the searches stop at the same parenthesis.
-/

namespace CellFormula

namespace Nesting

theorem quoted_step {c : Char} (h : isQuote c = false) (n : Nesting) :
    (n.step c).quoted = n.quoted := by
  simp only [step, h, Bool.false_eq_true, if_false]
  split_ifs <;> rfl

theorem quoted_run {cs : List Char} (h : ∀ c ∈ cs, isQuote c = false) (n : Nesting) :
    (n.run cs).quoted = n.quoted := by
  induction cs generalizing n with
  | nil => rfl
  | cons c cs ih =>
    obtain ⟨here, later⟩ := List.forall_mem_cons.mp h
    rw [run_cons, ih later, quoted_step here]

/-- Outside quotes only parentheses move the depth. -/
theorem parens_step {n : Nesting} {c : Char} (outside : n.quoted = false)
    (h : isQuote c = false) : (n.step c).parens =
      if c = '(' then n.parens + 1 else if c = ')' then n.parens - 1 else n.parens := by
  simp only [step, h, outside, Bool.false_eq_true, if_false]
  split_ifs <;> rfl

end Nesting

namespace Scan

open Text Nesting

/-- Only a parenthesis outside quotes closes the first one, and it closes no other. -/
theorem groupable_of_wrappedInterior {cs inside : List Char}
    (h : wrappedInterior .paren cs = some inside) : Groupable inside := by
  obtain ⟨last, same, within, closes⟩ :=
    Delimiter.interiorFrom_eq_some_iff.mp (wrappedInterior_eq_some_iff.mp h).2
  obtain rfl : ')' = last := by simpa [Delimiter.closing] using same
  have depths : Delimiter.paren.Above 0 start inside :=
    above_inside_iff.mp (Delimiter.within_iff_above.mp within)
  have low : 0 ≤ (start.run inside).parens := depths.le_run (Int.le_refl 0)
  change Delimiter.paren.depth ((start.inside.run inside).step ')') ≤ 0 at closes
  rw [run_inside] at closes
  have outside : (start.run inside).quoted = false := by
    by_contra within
    have quoted : (start.run inside).inside.quoted = true := Bool.eq_true_of_not_eq_false within
    have stays := step_of_quoted quoted (show isQuote ')' = false from rfl)
    rw [stays] at closes
    have deep : (start.run inside).parens + 1 ≤ 0 := closes
    omega
  rw [step_close outside] at closes
  exact ⟨Delimiter.above_iff.mp depths, Int.le_antisymm closes low, outside⟩

theorem wrappedInterior_paren_iff {cs inside : List Char} :
    wrappedInterior .paren cs = some inside ↔ cs = '(' :: inside ++ [')'] ∧ Groupable inside := by
  constructor
  · intro h
    exact ⟨(wrappedInterior_eq_some_iff.mp h).1, groupable_of_wrappedInterior h⟩
  · rintro ⟨rfl, h⟩
    exact h.wrappedInterior_group h.roomy

theorem not_mem_takeWhile_ne (d : Char) (cs : List Char) : d ∉ cs.takeWhile (· ≠ d) := by
  intro mem
  simpa using List.mem_takeWhile_imp mem

theorem takeWhile_ne_append {d : Char} {before : List Char} (h : d ∉ before) (rest : List Char) :
    (before ++ d :: rest).takeWhile (· ≠ d) = before := by
  have all : ∀ c ∈ before, decide (c ≠ d) = true :=
    fun c hc => decide_eq_true (ne_of_mem_of_not_mem hc h)
  rw [List.takeWhile_append_of_pos all, List.takeWhile_cons_of_neg (by simp), List.append_nil]

theorem eq_append_takeWhile_of_splitCall {α : Type} [Depth α] {cs inside rest : List Char}
    (h : splitCall cs α = some (inside, rest)) :
    cs = cs.takeWhile (· ≠ '(') ++ '(' :: inside ++ ')' :: rest := by
  obtain ⟨before, none, whole⟩ := eq_append_of_splitCall h
  have first : cs.takeWhile (· ≠ '(') = before := by
    rw [whole, List.append_assoc]
    exact takeWhile_ne_append none _
  rwa [first]

theorem splitCall_eq_some_iff {cs inside rest : List Char} :
    splitCall cs = some (inside, rest) ↔
      cs = cs.takeWhile (· ≠ '(') ++ '(' :: inside ++ ')' :: rest ∧ Balanced inside := by
  constructor
  · intro h
    exact ⟨eq_append_takeWhile_of_splitCall h, balanced_of_splitCall h⟩
  · rintro ⟨whole, balanced⟩
    rw [whole]
    exact splitCall_of_balanced (not_mem_takeWhile_ne '(' cs) balanced rest

/-- The bare count runs along with the depth of the scan, and fails where that would go below
zero. -/
theorem depthAfter?_eq_some_iff {n : Nesting} {depth after : Nat} {cs : List Char}
    (level : n.parens = depth) (outside : n.quoted = false)
    (unquoted : ∀ c ∈ cs, isQuote c = false) : depthAfter? depth cs = some after ↔
      Delimiter.paren.Above 0 n cs ∧ (n.run cs).parens = after := by
  induction cs generalizing n depth with
  | nil => simp [depthAfter?, Delimiter.Above, level]
  | cons c cs ih =>
    obtain ⟨here, later⟩ := List.forall_mem_cons.mp unquoted
    have step := parens_step outside here
    have goesOn : ∀ {d : Nat}, (n.step c).parens = d → (depthAfter? d cs = some after ↔
        Delimiter.paren.Above 0 n (c :: cs) ∧ (n.run (c :: cs)).parens = after) := by
      intro d reached
      have deep : 0 ≤ Delimiter.paren.depth (n.step c) := by
        rw [Delimiter.depth, reached]
        exact Int.natCast_nonneg d
      rw [ih reached ((quoted_step here n).trans outside) later, Delimiter.Above, run_cons,
        and_iff_right deep]
    simp only [depthAfter?]
    split
    · next opening =>
      rw [if_pos opening, level] at step
      exact goesOn step
    · next other =>
      rw [if_neg other] at step
      split
      · next closing =>
        rw [if_pos closing, level] at step
        cases depth with
        | zero =>
          -- Nothing is open: the count fails here, and the scan goes below zero.
          have below : ¬ 0 ≤ Delimiter.paren.depth (n.step c) := by
            rw [Delimiter.depth, step]
            decide
          exact iff_of_false (by simp) fun h => below h.1.1
        | succ depth => exact goesOn (by omega)
      · next neither =>
        rw [if_neg neither, level] at step
        exact goesOn step

theorem balanced_iff_groupable {cs : List Char} (unquoted : ∀ c ∈ cs, isQuote c = false) :
    Balanced cs ↔ Groupable cs := by
  rw [Balanced, depthAfter?_eq_some_iff (n := start) rfl rfl unquoted]
  constructor
  · rintro ⟨above, parens⟩
    exact ⟨Delimiter.above_iff.mp above, parens, quoted_run unquoted start⟩
  · intro h
    exact ⟨Delimiter.above_iff.mpr h.depths, h.parens⟩

theorem wrappedInterior_iff_of_unquoted {cs inside : List Char}
    (unquoted : ∀ c ∈ cs, isQuote c = false) (opens : cs.head? = some '(') :
    wrappedInterior .paren cs = some inside ↔ splitCall cs = some (inside, []) := by
  obtain ⟨tail, rfl⟩ := List.head?_eq_some_iff.mp opens
  have nothing : ('(' :: tail).takeWhile (· ≠ '(') = [] := List.takeWhile_cons_of_neg (by simp)
  rw [wrappedInterior_paren_iff, splitCall_eq_some_iff, nothing, List.nil_append]
  refine and_congr_right fun whole => (balanced_iff_groupable ?_).symm
  intro c hc
  apply unquoted
  rw [whole]
  simp [hc]

/-- Away from quotes the depth is what the text has opened and not closed. -/
theorem parens_lt_of_mem_scan {n : Nesting} {cs : List Char} {k : Int} (outside : n.quoted = false)
    (unquoted : ∀ c ∈ cs, isQuote c = false)
    (low : ∀ p, p <+: cs → n.parens + p.count '(' < p.count ')' + k) :
    ∀ q ∈ n.scan cs, q.2.parens < k := by
  induction cs generalizing n with
  | nil => simp [Nesting.scan]
  | cons c cs ih =>
    obtain ⟨here, later⟩ := List.forall_mem_cons.mp unquoted
    have step : (n.step c).parens + [c].count ')' = n.parens + [c].count '(' := by
      rw [parens_step outside here]
      split_ifs with opening closing
      · simp [opening]
      · simp [closing]
      · simp [opening, closing]
    have first := low [c] (by simp)
    refine List.forall_mem_cons.mpr ⟨by dsimp only; omega, ?_⟩
    refine ih ((quoted_step here n).trans outside) later fun p prefixed => ?_
    have longer := low (c :: p) (List.cons_prefix_cons.mpr ⟨rfl, prefixed⟩)
    rw [count_cons_eq _ c p, count_cons_eq _ c p] at longer
    omega

/-- Away from quotes a wrapped text is found wrapped in 32 bits too, unless 2^31 parentheses are
open at once. -/
theorem wrappedInterior_of_opensBelow {cs : List Char} (unquoted : ∀ c ∈ cs, isQuote c = false)
    (opens : OpensBelow (2 ^ 31) cs) :
    wrappedInterior .paren cs Int32 = wrappedInterior .paren cs := by
  refine wrappedInterior_narrow (parens_lt_of_mem_scan rfl unquoted fun p prefixed => ?_)
  have fewer := opens p prefixed.isInfix
  have none_open : (start : Nesting).parens = 0 := rfl
  omega

/-- With depths in 32 bits, a text without quotes that begins with a parenthesis is wrapped if and
only if nothing follows the call that it begins, as long as never 2^31 parentheses are open. In any
text a call is cut out of the text at its first parenthesis, and its arguments balance, as long as
never 2^32 parentheses are open. -/
theorem wrappedInterior_iff_splitCall :
    (∀ cs inside : List Char, (∀ c ∈ cs, isQuote c = false) → cs.head? = some '(' →
      OpensBelow (2 ^ 31) cs →
        (wrappedInterior .paren cs Int32 = some inside ↔
          splitCall cs Int32 = some (inside, []))) ∧
    (∀ cs inside rest : List Char, splitCall cs Int32 = some (inside, rest) →
      cs = cs.takeWhile (· ≠ '(') ++ '(' :: inside ++ ')' :: rest) ∧
    ∀ cs inside rest : List Char, OpensBelow (2 ^ 32) cs →
      (splitCall cs Int32 = some (inside, rest) ↔
        cs = cs.takeWhile (· ≠ '(') ++ '(' :: inside ++ ')' :: rest ∧ Balanced inside) := by
  refine ⟨?_, fun _ _ _ => eq_append_takeWhile_of_splitCall, ?_⟩
  · intro cs inside unquoted opens shallow
    have fewer : OpensBelow (2 ^ 32) cs := shallow.mono (by decide)
    rw [wrappedInterior_of_opensBelow unquoted shallow, splitCall_narrow fewer]
    exact wrappedInterior_iff_of_unquoted unquoted opens
  · intro cs inside rest shallow
    rw [splitCall_narrow shallow]
    exact splitCall_eq_some_iff

/-- Brackets that do not match, and a call that a quoted parenthesis ends. -/
theorem wrappedInterior_iff_splitCall_openBrackets :
    (∀ c ∈ "((A1]é)[)".toList, isQuote c = false) ∧ "((A1]é)[)".toList.head? = some '(' ∧
    OpensBelow (2 ^ 31) "((A1]é)[)".toList ∧
    wrappedInterior .paren "((A1]é)[)".toList Int32 = some "(A1]é)[".toList ∧
    splitCall "((A1]é)[)".toList Int32 = some ("(A1]é)[".toList, []) ∧
    splitCall "é (()')'+(".toList Int32 = some ("()'".toList, "'+(".toList) ∧
    "é (()')'+(".toList =
      "é (()')'+(".toList.takeWhile (· ≠ '(') ++ '(' :: "()'".toList ++ ')' :: "'+(".toList ∧
    OpensBelow (2 ^ 32) "é (()')'+(".toList ∧ Balanced "()'".toList := by
  obtain ⟨agree, cut, balances⟩ := wrappedInterior_iff_splitCall
  have unquoted : ∀ c ∈ "((A1]é)[)".toList, isQuote c = false := by simp [isQuote]
  have shallow : OpensBelow (2 ^ 31) "((A1]é)[)".toList := opensBelow_of_count_lt (by decide)
  have flat : OpensBelow (2 ^ 32) "é (()')'+(".toList := opensBelow_of_count_lt (by decide)
  have wrapped : wrappedInterior .paren "((A1]é)[)".toList Int32 = some "(A1]é)[".toList := by
    decide
  have alone := (agree "((A1]é)[)".toList "(A1]é)[".toList unquoted rfl shallow).mp wrapped
  have followed : splitCall "é (()')'+(".toList Int32 = some ("()'".toList, "'+(".toList) := by
    decide
  exact ⟨unquoted, rfl, shallow, wrapped, alone, followed, cut _ _ _ followed, flat,
    ((balances _ _ _ flat).mp followed).2⟩

/-- A parenthesis in quotes closes a call and not a group. -/
example : wrappedInterior .paren "(')')".toList = some "')'".toList ∧
    splitCall "(')')".toList = some ("'".toList, "')".toList) := by
  decide

theorem balanced_nested (k : Nat) : Balanced (nested k) := by
  induction k with
  | zero => rfl
  | succ k ih => exact nested_succ k ▸ ih.wrap

theorem depthAfter?_openings (depth k : Nat) :
    depthAfter? depth (List.replicate k '(') = some (depth + k) := by
  induction k generalizing depth with
  | zero => rfl
  | succ k ih =>
    have deeper : depth + 1 + k = depth + (k + 1) := by omega
    simp only [List.replicate_succ, depthAfter?, if_pos, ih, deeper]

theorem closing?_openings (depth : Int) (k : Nat) (ys : List Char) :
    closing? (Int32.ofInt depth) (List.replicate k '(' ++ ys) =
      (closing? (Int32.ofInt (depth + k)) ys).map
        fun (inside, rest) => (List.replicate k '(' ++ inside, rest) := by
  induction k generalizing depth with
  | zero => simp
  | succ k ih =>
    have up : Int32.ofInt depth + 1 = .ofInt (depth + 1) := (Int32.ofInt_add depth 1).symm
    have deeper : depth + 1 + (k : Int) = depth + (k + 1 : Nat) := by omega
    simp only [List.replicate_succ, List.cons_append, closing?, if_pos, up, ih, deeper]
    simp [Function.comp_def]

theorem splitCall_nested {k : Nat} (few : k + 1 < 2 ^ 32) :
    splitCall (nested (k + 1)) Int32 = some (nested k, []) := by
  have opens : OpensBelow (2 ^ 32) (nested (k + 1)) :=
    opensBelow_of_count_lt (by rwa [count_nested])
  rw [splitCall_narrow opens, nested_succ]
  exact splitCall_of_balanced List.not_mem_nil (balanced_nested k) []

/-- A count in 32 bits takes 2^32 parentheses too many for none. -/
theorem splitCall_openings {k : Nat} (h : k = 2 ^ 32) :
    splitCall ('(' :: List.replicate k '(' ++ [')']) Int32 = some (List.replicate k '(', []) := by
  have last : closing? (Int32.ofInt (1 + k)) [')'] = some ([], []) := by
    subst h
    decide
  change closing? (Int32.ofInt 1) (List.replicate k '(' ++ [')']) = _
  rw [closing?_openings, last]
  simp

/-- In 32 bits, 2^31 pairs of parentheses are a call and not wrapped, and the last parenthesis of
2^32 + 2 closes a call whose arguments do not balance. -/
theorem not_wrappedInterior_iff_splitCall :
    (∀ c ∈ nested (2 ^ 31), isQuote c = false) ∧ (nested (2 ^ 31)).head? = some '(' ∧
    wrappedInterior .paren (nested (2 ^ 31)) Int32 = none ∧
    splitCall (nested (2 ^ 31)) Int32 = some (nested (2 ^ 31 - 1), []) ∧
    splitCall ('(' :: List.replicate (2 ^ 32) '(' ++ [')']) Int32 =
      some (List.replicate (2 ^ 32) '(', []) ∧
    ¬ Balanced (List.replicate (2 ^ 32) '(') := by
  have size : 2 ^ 31 = 2 ^ 31 - 1 + 1 := by decide
  refine ⟨?_, ?_, ?_, ?_, splitCall_openings rfl, ?_⟩
  · intro c mem
    rcases mem_nested mem with rfl | rfl <;> rfl
  · rw [size, nested_succ]
    rfl
  · rw [size]
    exact wrappedInterior_nested size.symm
  · rw [size]
    exact splitCall_nested (by decide)
  · rw [Balanced, depthAfter?_openings]
    decide

end Scan

end CellFormula
