import CellFormula.Proofs.Calls

/-!
# Closed texts

A closed text leaves the nesting as it found it and never closes what it did not open. In
parentheses it is out of reach of every cut. Where quotes are not looked at, the parentheses of a
text have to balance on their own.
-/

namespace CellFormula

namespace Nesting

section

variable {α : Type} [Depth α]

/-- The same place in one more pair of parentheses. -/
def inside (n : Nesting α) : Nesting α :=
  { n with parens := n.parens + 1 }

theorem step_inside (n : Nesting α) (c : Char) : n.inside.step c = (n.step c).inside := by
  have swap : n.parens + 1 - 1 = n.parens - 1 + 1 := by
    rw [Depth.add_one_sub_one, Depth.sub_one_add_one]
  by_cases quote : isQuote c = true
  · simp [step, inside, quote]
  by_cases quoted : n.quoted = true
  · simp [step, inside, quote, quoted]
  by_cases opener : c = '('
  · subst opener
    simp [step, inside, quote, quoted]
  by_cases closer : c = ')'
  · subst closer
    simp [step, inside, quote, quoted, swap]
  by_cases left : c = '['
  · subst left
    simp [step, inside, quote, quoted]
  by_cases right : c = ']'
  · subst right
    simp [step, inside, quote, quoted]
  · simp [step, inside, quote, quoted, opener, closer, left, right]

theorem run_inside (n : Nesting α) (cs : List Char) : n.inside.run cs = (n.run cs).inside := by
  induction cs generalizing n with
  | nil => rfl
  | cons c cs ih => rw [run_cons, run_cons, step_inside, ih]

theorem scan_inside (n : Nesting α) (cs : List Char) :
    n.inside.scan cs = (n.scan cs).map fun p => (p.1, p.2.inside) := by
  induction cs generalizing n with
  | nil => rfl
  | cons c cs ih => rw [scan, scan, step_inside, ih, List.map_cons]

theorem step_close {n : Nesting α} (unquoted : n.quoted = false) : n.inside.step ')' = n := by
  obtain ⟨parens, brackets, quoted⟩ := n
  obtain rfl : quoted = false := unquoted
  simp [step, inside, isQuote, Depth.add_one_sub_one]

end

section

variable {n : Nesting} {cs : List Char} (fixed : ∀ c ∈ cs, n.step c = n)

include fixed

theorem run_of_fixed : n.run cs = n := by
  induction cs with
  | nil => rfl
  | cons c cs ih =>
    rw [run_cons, fixed c List.mem_cons_self]
    exact ih fun d hd => fixed d (List.mem_cons_of_mem c hd)

theorem surface_of_fixed (deep : n ≠ start) : n.surface cs = [] := by
  induction cs with
  | nil => rfl
  | cons c cs ih =>
    rw [surface_cons, fixed c List.mem_cons_self, if_neg (fun top => deep (isTopLevel_iff.mp top))]
    exact ih fun d hd => fixed d (List.mem_cons_of_mem c hd)

end

theorem step_of_quoted {n : Nesting} (quoted : n.quoted = true) {c : Char}
    (other : isQuote c = false) : n.step c = n := by
  simp [step, other, quoted]

end Nesting

namespace Scan

open Nesting

/-- Along the text the depth is never below `k`. -/
def Delimiter.Above (d : Delimiter) (k : Int) (n : Nesting) : List Char → Prop
  | [] => True
  | c :: cs => k ≤ d.depth (n.step c) ∧ d.Above k (n.step c) cs

theorem Delimiter.above_append {d : Delimiter} {k : Int} {n : Nesting} {xs ys : List Char} :
    d.Above k n (xs ++ ys) ↔ d.Above k n xs ∧ d.Above k (n.run xs) ys := by
  induction xs generalizing n with
  | nil => simp [Above]
  | cons c xs ih => rw [List.cons_append, Above, Above, ih, run_cons, and_assoc]

theorem Delimiter.Above.mono {d : Delimiter} {j k : Int} (le : j ≤ k) {n : Nesting}
    {cs : List Char} (h : d.Above k n cs) : d.Above j n cs := by
  induction cs generalizing n with
  | nil => trivial
  | cons c cs ih => exact ⟨Int.le_trans le h.1, ih h.2⟩

theorem Delimiter.above_of_fixed {d : Delimiter} {k : Int} {n : Nesting} {cs : List Char}
    (fixed : ∀ c ∈ cs, n.step c = n) (le : k ≤ d.depth n) : d.Above k n cs := by
  induction cs with
  | nil => trivial
  | cons c cs ih =>
    rw [Above, fixed c List.mem_cons_self]
    exact ⟨le, ih fun e he => fixed e (List.mem_cons_of_mem c he)⟩

theorem Delimiter.Above.le_run {d : Delimiter} {k : Int} {n : Nesting} {cs : List Char}
    (h : d.Above k n cs) (le : k ≤ d.depth n) : k ≤ d.depth (n.run cs) := by
  induction cs generalizing n with
  | nil => exact le
  | cons c cs ih => exact ih h.2 h.1

theorem above_inside_iff {k : Int} {n : Nesting} {cs : List Char} :
    Delimiter.paren.Above (k + 1) n.inside cs ↔ Delimiter.paren.Above k n cs := by
  induction cs generalizing n with
  | nil => exact Iff.rfl
  | cons c cs ih =>
    rw [Delimiter.Above, Delimiter.Above, step_inside, ih]
    exact and_congr_left' (Int.add_le_add_iff_right 1)

/-- Within parentheses nothing is at top level. -/
theorem surface_of_above {n : Nesting} {cs : List Char} (h : Delimiter.paren.Above 1 n cs) :
    n.surface cs = [] := by
  induction cs generalizing n with
  | nil => rfl
  | cons c cs ih =>
    obtain ⟨le, tail⟩ := h
    have deep : ¬ (n.step c).isTopLevel = true := by
      intro top
      rw [isTopLevel_iff] at top
      rw [top] at le
      exact absurd le (by decide)
    rw [surface_cons, if_neg deep, ih tail]

theorem Delimiter.above_iff {d : Delimiter} {k : Int} {n : Nesting} {cs : List Char} :
    d.Above k n cs ↔ ∀ p ∈ n.scan cs, k ≤ d.depth p.2 := by
  induction cs generalizing n with
  | nil => simp [Above, Nesting.scan]
  | cons c cs ih => rw [Above, Nesting.scan, List.forall_mem_cons, ih]

/-- Along the text the depth never comes down to zero. -/
def Delimiter.Within {α : Type} [Depth α] (d : Delimiter) (n : Nesting α) (cs : List Char) : Prop :=
  ∀ p ∈ n.scan cs, ¬ d.depth p.2 ≤ 0

theorem Delimiter.within_iff_above {d : Delimiter} {n : Nesting} {cs : List Char} :
    d.Within n cs ↔ d.Above 1 n cs := by
  simp only [Within, above_iff, Int.not_le, Int.lt_iff_add_one_le, Int.zero_add]

/-- The search for the closing delimiter passes over a text that stays inside. -/
theorem Delimiter.interiorFrom_append {α : Type} [Depth α] {d : Delimiter} {n : Nesting α}
    {xs : List Char} (h : d.Within n xs) (ys : List Char) :
    d.interiorFrom n (xs ++ ys) = (d.interiorFrom (n.run xs) ys).map (xs ++ ·) := by
  induction xs generalizing n with
  | nil => simp
  | cons c xs ih =>
    obtain ⟨deep, tail⟩ := List.forall_mem_cons.mp h
    simp only [List.cons_append, interiorFrom, if_neg deep, ih tail, run_cons, Option.map_map]
    rfl

/-- All that the search for the closing delimiter can find. -/
theorem Delimiter.interiorFrom_eq_some_iff {α : Type} [Depth α] {d : Delimiter} {n : Nesting α}
    {cs inside : List Char} : d.interiorFrom n cs = some inside ↔
      ∃ last, cs = inside ++ [last] ∧ d.Within n inside ∧
        d.depth ((n.run inside).step last) ≤ 0 := by
  constructor
  · intro h
    induction cs generalizing n inside with
    | nil => cases h
    | cons c cs ih =>
      simp only [interiorFrom] at h
      split at h
      · next closes =>
        split at h
        · next last =>
          cases h
          exact ⟨c, by rw [List.isEmpty_iff.mp last]; rfl, by simp [Within, Nesting.scan], closes⟩
        · cases h
      · next onward =>
        obtain ⟨before, found, rfl⟩ := Option.map_eq_some_iff.mp h
        obtain ⟨last, rfl, within, closes⟩ := ih found
        exact ⟨last, rfl, List.forall_mem_cons.mpr ⟨onward, within⟩, closes⟩
  · rintro ⟨last, rfl, within, closes⟩
    rw [interiorFrom_append within, interiorFrom, if_pos closes]
    simp

structure Closed (cs : List Char) : Prop where
  run : start.run cs = start
  above : Delimiter.paren.Above 0 start cs

theorem Closed.append {xs ys : List Char} (hx : Closed xs) (hy : Closed ys) :
    Closed (xs ++ ys) where
  run := by rw [run_append, hx.run, hy.run]
  above := by
    rw [Delimiter.above_append, hx.run]
    exact ⟨hx.above, hy.above⟩

theorem closed_of_isPlain {cs : List Char} (plain : ∀ c ∈ cs, isPlain c = true) : Closed cs :=
  ⟨run_of_isPlain plain start,
    Delimiter.above_of_fixed (fun c hc => step_of_isPlain (plain c hc) start) (Int.le_refl 0)⟩

theorem Closed.cons {c : Char} {cs : List Char} (plain : isPlain c = true) (h : Closed cs) :
    Closed (c :: cs) :=
  (closed_of_isPlain (List.forall_mem_singleton.mpr plain)).append h

section

variable {cs : List Char} (h : Closed cs)

include h

theorem Closed.above_inside : Delimiter.paren.Above 1 start.inside cs :=
  above_inside_iff.mpr h.above

theorem Closed.run_inside : start.inside.run cs = start.inside := by
  rw [Nesting.run_inside, h.run]

theorem Closed.wrap : Closed ('(' :: cs ++ [')']) where
  run := by
    change (start.inside.run (cs ++ [')'])) = start
    rw [run_append, h.run_inside]
    rfl
  above := by
    have opened : Delimiter.paren.Above 0 start.inside (cs ++ [')']) := by
      rw [Delimiter.above_append, h.run_inside]
      refine ⟨?_, Int.le_refl 0, trivial⟩
      exact h.above_inside.mono (by decide)
    exact ⟨by decide, opened⟩

/-- All that shows of a text in parentheses is the last of them. -/
theorem Closed.surface_wrap : start.surface ('(' :: cs ++ [')']) = [')'] := by
  change start.inside.surface (cs ++ [')']) = [')']
  rw [surface_append, surface_of_above h.above_inside, h.run_inside]
  rfl

theorem Closed.wrappedInterior_wrap : wrappedInterior .paren ('(' :: cs ++ [')']) = some cs := by
  have last : Delimiter.paren.depth ((start.inside.run cs).step ')') ≤ 0 := by
    rw [h.run_inside]
    decide
  exact wrappedInterior_eq_some_iff.mpr
    ⟨rfl, Delimiter.interiorFrom_eq_some_iff.mpr
      ⟨')', rfl, Delimiter.within_iff_above.mpr h.above_inside, last⟩⟩

end

section

variable {first last : Char} {n : Nesting} {cs : List Char} (opens : start.step first = n)
  (fixed : ∀ c ∈ cs, n.step c = n) (closes : n.step last = start)

include opens fixed closes

/-- A span that holds the nesting at one place from its first character to its last. -/
theorem closed_span (level : n.parens = 0) : Closed (first :: cs ++ [last]) where
  run := by
    rw [List.cons_append, run_cons, opens, run_append, run_of_fixed fixed]
    exact closes
  above := by
    rw [List.cons_append, Delimiter.Above, opens, Delimiter.above_append, run_of_fixed fixed]
    have le : 0 ≤ n.parens := Int.le_of_eq level.symm
    refine ⟨le, Delimiter.above_of_fixed fixed le, ?_, trivial⟩
    rw [closes]
    decide

theorem surface_span (deep : n ≠ start) : start.surface (first :: cs ++ [last]) = [last] := by
  rw [List.cons_append, surface_cons, opens, if_neg (fun top => deep (isTopLevel_iff.mp top)),
    surface_append, surface_of_fixed fixed deep, run_of_fixed fixed, List.nil_append, surface_cons,
    closes]
  rfl

end

/-- The place inside a bracketed name. -/
theorem step_bracketed {c : Char} (plain : isPlain c = true) :
    (start.step '[').step c = start.step '[' :=
  step_of_isPlain plain _

/-- A name in brackets is wrapped in them if nothing follows. -/
theorem wrappedInterior_bracket {cs : List Char} (plain : ∀ c ∈ cs, isPlain c = true)
    (rest : List Char) : wrappedInterior .bracket ('[' :: cs ++ ']' :: rest) =
      if rest.isEmpty then some cs else none := by
  have fixed : ∀ c ∈ cs, (start.step '[').step c = start.step '[' :=
    fun c hc => step_bracketed (plain c hc)
  have zero : Delimiter.bracket.depth ((start.step '[').step ']') ≤ 0 := by decide
  have search : Delimiter.bracket.interiorFrom (start.step '[') (cs ++ ']' :: rest) =
      if rest.isEmpty then some cs else none := by
    have within : Delimiter.bracket.Within (start.step '[') cs :=
      Delimiter.within_iff_above.mpr (Delimiter.above_of_fixed fixed (by decide))
    rw [Delimiter.interiorFrom_append within, run_of_fixed fixed, Delimiter.interiorFrom,
      if_pos zero]
    cases rest <;> simp
  simp only [List.cons_append, wrappedInterior]
  cases rest with
  | nil => rw [if_pos ⟨rfl, by simp [Delimiter.closing]⟩, search]
  | cons d ds =>
    split
    · exact search
    · rfl

/-- The parentheses open after a text, quotes not looked at; none if one is closed that is not
open. -/
def depthAfter? (depth : Nat) : List Char → Option Nat
  | [] => some depth
  | c :: cs =>
    if c = '(' then depthAfter? (depth + 1) cs
    else if c = ')' then
      match depth with
      | 0 => none
      | depth + 1 => depthAfter? depth cs
    else depthAfter? depth cs

/-- The parentheses of a text balance without ever closing before opening, quotes not looked at. -/
def Balanced (cs : List Char) : Prop :=
  depthAfter? 0 cs = some 0

instance (cs : List Char) : Decidable (Balanced cs) :=
  inferInstanceAs (Decidable (_ = _))

theorem depthAfter?_append {depth : Nat} (xs ys : List Char) :
    depthAfter? depth (xs ++ ys) = (depthAfter? depth xs).bind (depthAfter? · ys) := by
  induction xs generalizing depth with
  | nil => rfl
  | cons c xs ih =>
    simp only [List.cons_append, depthAfter?]
    split
    · exact ih
    · split
      · cases depth with
        | zero => rfl
        | succ depth => exact ih
      · exact ih

theorem depthAfter?_add {depth after : Nat} {cs : List Char} (h : depthAfter? depth cs = some after)
    (m : Nat) : depthAfter? (depth + m) cs = some (after + m) := by
  induction cs generalizing depth with
  | nil =>
    cases h
    rfl
  | cons c cs ih =>
    simp only [depthAfter?] at h ⊢
    split
    · next paren =>
      rw [if_pos paren] at h
      have := ih h
      rwa [Nat.add_right_comm] at this
    · next other =>
      rw [if_neg other] at h
      split
      · next paren =>
        rw [if_pos paren] at h
        cases depth with
        | zero => cases h
        | succ depth =>
          rw [Nat.succ_add]
          exact ih h
      · next other =>
        rw [if_neg other] at h
        exact ih h

theorem closing?_of_depthAfter? {depth after : Nat} {xs : List Char}
    (h : depthAfter? depth xs = some after) (ys : List Char) :
    closing? (depth + 1 : Int) (xs ++ ys) =
      (closing? (after + 1 : Int) ys).map fun (inside, rest) => (xs ++ inside, rest) := by
  induction xs generalizing depth with
  | nil =>
    cases h
    simp
  | cons c xs ih =>
    simp only [List.cons_append, depthAfter?, closing?] at h ⊢
    split
    · next paren =>
      rw [if_pos paren] at h
      have goes_on := ih h
      push_cast at goes_on
      simp [goes_on, Function.comp_def]
    · next other =>
      rw [if_neg other] at h
      split
      · next paren =>
        rw [if_pos paren] at h
        cases depth with
        | zero => cases h
        | succ depth =>
          have open_left : ¬ ((depth + 1 : Nat) + 1 - 1 : Int) = 0 := by omega
          have one_less : ((depth + 1 : Nat) + 1 - 1 : Int) = depth + 1 := by omega
          rw [if_neg open_left, one_less, ih h]
          simp [Function.comp_def]
      · next other =>
        rw [if_neg other] at h
        simp [ih h, Function.comp_def]

theorem Balanced.append {xs ys : List Char} (hx : Balanced xs) (hy : Balanced ys) :
    Balanced (xs ++ ys) := by
  rw [Balanced, depthAfter?_append, hx]
  exact hy

theorem Balanced.wrap {cs : List Char} (h : Balanced cs) : Balanced ('(' :: cs ++ [')']) := by
  have opened : depthAfter? 1 (cs ++ [')']) = some 0 := by
    rw [depthAfter?_append, depthAfter?_add h 1]
    rfl
  exact opened

theorem balanced_of_not_mem {cs : List Char} (h : ∀ c ∈ cs, c ≠ '(' ∧ c ≠ ')') : Balanced cs := by
  induction cs with
  | nil => rfl
  | cons c cs ih =>
    obtain ⟨opener, closer⟩ := h c List.mem_cons_self
    rw [Balanced, depthAfter?, if_neg opener, if_neg closer]
    exact ih fun d hd => h d (List.mem_cons_of_mem c hd)

theorem balanced_of_isPlain {cs : List Char} (plain : ∀ c ∈ cs, isPlain c = true) :
    Balanced cs := by
  apply balanced_of_not_mem
  intro c hc
  constructor <;>
    · rintro rfl
      cases plain _ hc

theorem balanced_of_isBlank {bs : List Char} (blank : ∀ c ∈ bs, Text.isBlank c = true) :
    Balanced bs :=
  balanced_of_isPlain fun c hc => isPlain_of_isBlank (blank c hc)

/-- The arguments of a call are found where they balance. -/
theorem splitCall_of_balanced {before content : List Char} (none : '(' ∉ before)
    (h : Balanced content) (rest : List Char) :
    splitCall (before ++ '(' :: content ++ ')' :: rest) = some (content, rest) := by
  induction before with
  | nil =>
    change closing? (1 : Int) (content ++ ')' :: rest) = some (content, rest)
    have found := closing?_of_depthAfter? h (')' :: rest)
    simpa [closing?] using found
  | cons c before ih =>
    rw [List.mem_cons, not_or] at none
    simp only [List.cons_append, splitCall, if_neg (Ne.symm none.1)]
    exact ih none.2

end Scan

end CellFormula
