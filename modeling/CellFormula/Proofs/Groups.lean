import CellFormula.Proofs.Narrow
import CellFormula.Proofs.Recognition

/-!
# Groups

Parentheses around a text change nothing but the levels left. It is enough that the parentheses of
the text itself match outside quotes: then every position of the text lies inside those around it,
which close with the last character and not before. Brackets may be left open. A group that is a
known name is read as that name. The depths need room for one more parenthesis. In 32 bits there is
none after 2^31 - 1 open ones: the next leads to a negative depth, and the group is taken for a
name.
-/

namespace CellFormula

open Text Scan Nesting

namespace Scan

/-- Outside quotes, no parenthesis of the text is closed before it is opened, and at the end none is
open and no quote. -/
structure Groupable (cs : List Char) (α : Type := Int) [Depth α] : Prop where
  depths : ∀ p ∈ (start α).scan cs, 0 ≤ p.2.parens
  parens : ((start α).run cs).parens = 0
  quoted : ((start α).run cs).quoted = false

instance (cs : List Char) (α : Type) [Depth α] : Decidable (Groupable cs α) :=
  decidable_of_iff ((∀ p ∈ (start α).scan cs, 0 ≤ p.2.parens) ∧
      ((start α).run cs).parens = 0 ∧ ((start α).run cs).quoted = false)
    ⟨fun ⟨depths, parens, quoted⟩ => ⟨depths, parens, quoted⟩,
      fun h => ⟨h.depths, h.parens, h.quoted⟩⟩

theorem Closed.groupable {cs : List Char} (h : Closed cs) : Groupable cs where
  depths := Delimiter.above_iff.mp h.above
  parens := congrArg Nesting.parens h.run
  quoted := congrArg Nesting.quoted h.run

/-- What matches as counted in integers matches in 32 bits too, as long as no depth wraps around. -/
theorem Groupable.int32 {cs : List Char} (h : Groupable cs) (few : cs.count '(' < 2 ^ 31) :
    Groupable cs Int32 where
  depths := by
    rw [scan_int32, List.forall_mem_map]
    intro p mem
    have high := (depth_of_mem_scan (d := .paren) mem).2
    rw [Delimiter.depth, Delimiter.depth, Delimiter.opening, start, Int.zero_add] at high
    exact zero_le_ofInt (h.depths p mem) (by omega)
  parens := by
    rw [run_int32, narrow, h.parens]
    rfl
  quoted := by rw [run_int32, narrow, h.quoted]

/-- Inside one more pair of parentheses all depths of the text are above zero. -/
def Roomy (cs : List Char) (α : Type := Int) [Depth α] : Prop :=
  Delimiter.paren.Within (start α).inside cs

theorem roomy_of_wrappedInterior {α : Type} [Depth α] {cs inside : List Char}
    (h : wrappedInterior .paren ('(' :: cs ++ [')']) α = some inside) : Roomy cs α := by
  obtain ⟨same, found⟩ := wrappedInterior_eq_some_iff.mp h
  obtain ⟨last, whole, within, -⟩ := Delimiter.interiorFrom_eq_some_iff.mp found
  obtain rfl : cs = inside := by simpa [Delimiter.opening, Delimiter.closing] using same
  exact within

theorem Groupable.roomy {cs : List Char} (h : Groupable cs) : Roomy cs :=
  Delimiter.within_iff_above.mpr (above_inside_iff.mpr (Delimiter.above_iff.mpr h.depths))

theorem not_add_one_le_zero {depth : Int32} (low : 0 ≤ depth) (room : depth ≠ Int32.maxValue) :
    ¬ depth + 1 ≤ 0 := by
  rw [Int32.le_iff_toInt_le, Int32.toInt_zero] at low
  rw [ne_eq, ← Int32.toInt_inj, Int32.toInt_maxValue] at room
  have high := depth.toInt_lt
  have next : depth + 1 = .ofInt (depth.toInt + 1) := by
    rw [Int32.ofInt_add, Int32.ofInt_toInt]
    rfl
  rw [next, ofInt_le_zero_iff] <;> omega

theorem Groupable.roomy_int32 {cs : List Char} (h : Groupable cs Int32)
    (room : ∀ p ∈ (start Int32).scan cs, p.2.parens ≠ Int32.maxValue) : Roomy cs Int32 := by
  rw [Roomy, Delimiter.Within, scan_inside, List.forall_mem_map]
  exact fun p mem => not_add_one_le_zero (h.depths p mem) (room p mem)

section

variable {α : Type} [Depth α] {cs : List Char} (h : Groupable cs α) (room : Roomy cs α)

include h

/-- The last parenthesis leads back to where the text leads without the two. -/
theorem Groupable.step_run_inside :
    ((start α).inside.run cs).step ')' = (start α).run cs := by
  rw [run_inside, step_close h.quoted]

include room

theorem Groupable.hasTopLevelOperator_group :
    hasTopLevelOperator ('(' :: cs ++ [')']) α = false := by
  have positions : (start α).scan ('(' :: cs ++ [')']) =
      ('(', (start α).inside) :: (start α).inside.scan cs ++ [(')', (start α).run cs)] := by
    change ('(', (start α).inside) :: (start α).inside.scan (cs ++ [')']) = _
    rw [scan_append, scan, h.step_run_inside]
    rfl
  rw [hasTopLevelOperator, positions, List.any_eq_false]
  intro p mem
  rcases List.mem_append.mp mem with mem | mem
  · rcases List.mem_cons.mp mem with rfl | mem
    · simp [show Operator.ofChar? '(' = none from rfl]
    · have deep : p.2.parens ≠ 0 := by
        intro zero
        have shut : ¬ p.2.parens ≤ 0 := room p mem
        rw [zero] at shut
        exact shut Depth.zero_le_zero
      simp [isTopLevel, deep]
  · obtain rfl := List.mem_singleton.mp mem
    simp [show Operator.ofChar? ')' = none from rfl]

theorem Groupable.wrappedInterior_group :
    wrappedInterior .paren ('(' :: cs ++ [')']) α = some cs := by
  have last : Delimiter.paren.depth (((start α).inside.run cs).step ')') ≤ 0 := by
    rw [h.step_run_inside, Delimiter.depth, h.parens]
    exact Depth.zero_le_zero
  exact wrappedInterior_eq_some_iff.mpr
    ⟨rfl, Delimiter.interiorFrom_eq_some_iff.mpr ⟨')', rfl, room, last⟩⟩

end

theorem hasTopLevelOperator_eq_false {α : Type} [Depth α] {cs : List Char}
    (h : ∀ c ∈ cs, isOperator c = false) : hasTopLevelOperator cs α = false := by
  rw [hasTopLevelOperator, List.any_eq_false]
  intro p mem
  simp [ofChar?_eq_none (h p.1 (fst_mem_of_mem_scan mem))]

/-- Pairs of parentheses, each inside the one before. -/
def nested (k : Nat) : List Char :=
  List.replicate k '(' ++ List.replicate k ')'

theorem nested_succ (k : Nat) : nested (k + 1) = '(' :: nested k ++ [')'] := by
  rw [nested, nested, List.replicate_succ, List.replicate_succ', List.cons_append,
    List.cons_append, List.append_assoc]

theorem closed_nested (k : Nat) : Closed (nested k) := by
  induction k with
  | zero => exact ⟨rfl, trivial⟩
  | succ k ih => exact nested_succ k ▸ ih.wrap

theorem mem_nested {k : Nat} {c : Char} (h : c ∈ nested k) : c = '(' ∨ c = ')' :=
  (List.mem_append.mp h).imp List.eq_of_mem_replicate List.eq_of_mem_replicate

theorem count_nested (k : Nat) : (nested k).count '(' = k := by
  simp [nested, List.count_replicate]

theorem run_openings {n : Nesting} (outside : n.quoted = false) (k : Nat) :
    n.run (List.replicate k '(') = { n with parens := n.parens + k } := by
  induction k generalizing n with
  | zero => simp
  | succ k ih =>
    have opened : n.step '(' = n.inside := by simp [step, inside, outside, isQuote]
    have deeper : n.parens + 1 + (k : Int) = n.parens + (k + 1 : Nat) := by omega
    rw [List.replicate_succ, run_cons, opened, ih (n := n.inside) outside]
    simp only [inside, deeper]

/-- Around 2^31 - 1 pairs of parentheses there is no room for one more. -/
theorem not_roomy_nested {k : Nat} (h : k + 1 = 2 ^ 31) : ¬ Roomy (nested k) Int32 := by
  have reached : (start Int32).inside.run (List.replicate k '(') =
      narrow { start.inside with parens := start.inside.parens + k } := by
    rw [← run_openings rfl k, ← narrow_run]
    rfl
  have wraps : start.inside.parens + k = 2 ^ 31 := by
    change (0 + 1 + k : Int) = 2 ^ 31
    omega
  have ne : List.replicate k '(' ≠ [] := by simp; omega
  obtain ⟨c, mem⟩ := run_mem_scan (n := (start Int32).inside) ne (List.replicate k ')')
  intro room
  refine room _ mem ?_
  rw [reached, depth_narrow, Delimiter.depth, wraps]
  decide

theorem wrappedInterior_nested {k : Nat} (h : k + 1 = 2 ^ 31) :
    wrappedInterior .paren (nested (k + 1)) Int32 = none := by
  rw [nested_succ, Option.eq_none_iff_forall_not_mem]
  intro inside found
  exact not_roomy_nested h (roomy_of_wrappedInterior found)

end Scan

namespace Reading

section

variable {α : Type} [Depth α] {known : Registry} {cs : List Char}
  (unknown : known.contains (String.ofList ('(' :: cs ++ [')'])) = false)

include unknown

theorem leaf?_group : leaf? known ('(' :: cs ++ [')']) α = none := by
  have number : number? ('(' :: cs ++ [')']) = none :=
    number?_eq_none (Numeral.ofText?_eq_none _ rfl (by decide) (by decide) (by decide))
  have spreadsheet : isSpreadsheetName ('(' :: cs ++ [')']) = false := by
    have noLetter : isColumnLetter '(' = false := by decide
    simp [isSpreadsheetName, isNumbered, noLetter]
  exact leaf?_eq_none_iff.mpr ⟨quotedInterior_eq_none_of_head rfl _,
    wrappedInterior_eq_none_of_head (by decide) _, number, unknown, spreadsheet, rfl⟩

/-- No rule but the last takes a text in parentheses that shows no operator and is no known name. -/
theorem rules_group (inner : Reader)
    (surface : hasTopLevelOperator ('(' :: cs ++ [')']) α = false) :
    rules known inner ('(' :: cs ++ [')']) α = grouping inner ('(' :: cs ++ [')']) α := by
  have noKeyword : keyword? ('(' :: cs ++ [')']) = none := keyword?_eq_none_of_head rfl _
  obtain ⟨noConditional, noLookup⟩ := keyword?_eq_none_iff.mp noKeyword
  rw [rules, noConditional, noLookup, leaf?_group unknown, surface]
  rfl

end

/-- A group is read as the text inside it with one level less, be it a tree or an error, unless the
group is a known name. -/
theorem expressionIn_group {α : Type} [Depth α] (options : ParseOptions) (n : Nat)
    {cs : List Char} (h : Groupable cs α) (room : Roomy cs α)
    (unknown : options.known.contains (String.ofList ('(' :: cs ++ [')'])) = false) :
    expressionIn α options (n + 1) ('(' :: cs ++ [')']) = expressionIn α options n cs := by
  have trimmed : Trimmed ('(' :: cs ++ [')']) := trimmed_ends rfl rfl _
  rw [expressionIn, trimmed.trim_eq, rules_group unknown _ (h.hasTopLevelOperator_group room),
    grouping, h.wrappedInterior_group room]

/-- With depths in 32 bits a group is read so if 2^31 - 1 parentheses are never open at once in the
text inside it. -/
theorem expression_group (options : ParseOptions) (n : Nat) {cs : List Char}
    (h : Groupable cs Int32)
    (room : ∀ p ∈ (start Int32).scan cs, p.2.parens ≠ Int32.maxValue)
    (unknown : options.known.contains (String.ofList ('(' :: cs ++ [')'])) = false) :
    expressionIn Int32 options (n + 1) ('(' :: cs ++ [')']) = expressionIn Int32 options n cs :=
  expressionIn_group options n h (h.roomy_int32 room) unknown

/-- A bracket left open with a parenthesis in quotes after it, and a chain with too few levels. -/
theorem expression_group_openBracket :
    Groupable "[A1+')'*".toList Int32 ∧
    (∀ p ∈ (start Int32).scan "[A1+')'*".toList, p.2.parens ≠ Int32.maxValue) ∧
    expressionIn Int32 {} 2 "([A1+')'*)".toList = .ok (.cell "[A1+')'*") ∧
    Groupable "A1+(B1)".toList Int32 ∧
    (∀ p ∈ (start Int32).scan "A1+(B1)".toList, p.2.parens ≠ Int32.maxValue) ∧
    expressionIn Int32 ⟨.empty, 5⟩ 2 "(A1+(B1))".toList = .error (.nestingTooDeep 5) := by
  have open_bracket : Groupable "[A1+')'*".toList Int32 := by decide
  have shallow : ∀ p ∈ (start Int32).scan "[A1+')'*".toList, p.2.parens ≠ Int32.maxValue := by
    decide
  have chain : Groupable "A1+(B1)".toList Int32 := by decide
  have flat : ∀ p ∈ (start Int32).scan "A1+(B1)".toList, p.2.parens ≠ Int32.maxValue := by decide
  have first := expression_group {} 1 open_bracket shallow (by decide)
  have second := expression_group ⟨.empty, 5⟩ 1 chain flat (by decide)
  exact ⟨open_bracket, shallow, first.trans (by decide), chain, flat, second.trans (by decide)⟩

/-- A group that is a known name is a cell, and two groups in a row are no group. -/
example : expression ⟨Registry.empty.add "(A1)", 5⟩ 2 "(A1)".toList = .ok (.cell "(A1)") ∧
    ¬ Groupable "A1)+(B1".toList := by
  decide

theorem expressionIn_nested (options : ParseOptions) (n : Nat) {k : Nat} (h : k + 1 = 2 ^ 31)
    (unknown : options.known.contains (String.ofList ('(' :: nested k ++ [')'])) = false) :
    expressionIn Int32 options (n + 1) ('(' :: nested k ++ [')']) =
      .ok (cellNamed ('(' :: nested k ++ [')'])) := by
  have trimmed : Trimmed ('(' :: nested k ++ [')']) := trimmed_ends rfl rfl _
  have surface : hasTopLevelOperator ('(' :: nested k ++ [')']) Int32 = false := by
    rw [← nested_succ]
    refine hasTopLevelOperator_eq_false fun c mem => ?_
    rcases mem_nested mem with rfl | rfl <;> rfl
  rw [expressionIn, trimmed.trim_eq, rules_group unknown _ surface, grouping, ← nested_succ,
    wrappedInterior_nested h, nested_succ]
  rfl

/-- In 2^31 - 1 pairs of parentheses the depth gets as great as it can. Around them one more pair
makes a name of what has too few levels without it. -/
theorem not_expression_group :
    Groupable (nested (2 ^ 31 - 1)) Int32 ∧
    Registry.empty.contains (String.ofList ('(' :: nested (2 ^ 31 - 1) ++ [')'])) = false ∧
    expressionIn Int32 ⟨.empty, 256⟩ 1 ('(' :: nested (2 ^ 31 - 1) ++ [')']) =
      .ok (cellNamed ('(' :: nested (2 ^ 31 - 1) ++ [')'])) ∧
    expressionIn Int32 ⟨.empty, 256⟩ 0 (nested (2 ^ 31 - 1)) = .error (.nestingTooDeep 256) := by
  have fits : (nested (2 ^ 31 - 1)).count '(' < 2 ^ 31 := by
    rw [count_nested]
    decide
  exact ⟨(closed_nested _).groupable.int32 fits, rfl,
    expressionIn_nested ⟨.empty, 256⟩ 0 (by decide) rfl, rfl⟩

end Reading

end CellFormula
