import CellFormula.Scan.Nesting

/-!
# Texts wrapped in delimiters, and calls

A text is wrapped in a pair of delimiters when its first character opens the pair and only its last
one closes it. A call runs from the first opening parenthesis of a text to the parenthesis that
matches it; quotes are not looked at there, and the parentheses are counted in the same numbers in
which a scan keeps its depths.
-/

namespace CellFormula.Scan

inductive Delimiter where
  | paren
  | bracket
  deriving DecidableEq

namespace Delimiter

def opening : Delimiter → Char
  | .paren => '('
  | .bracket => '['

def closing : Delimiter → Char
  | .paren => ')'
  | .bracket => ']'

def depth {α : Type} : Delimiter → Nesting α → α
  | .paren, n => n.parens
  | .bracket, n => n.brackets

/-- What precedes the last character, if the depth first returns to zero there. -/
def interiorFrom {α : Type} [Depth α] (d : Delimiter) (n : Nesting α) :
    List Char → Option (List Char)
  | [] => none
  | c :: cs =>
    let n' := n.step c
    if d.depth n' ≤ 0 then if cs.isEmpty then some [] else none
    else (d.interiorFrom n' cs).map (c :: ·)

end Delimiter

theorem Delimiter.eq_append_of_interiorFrom {α : Type} [Depth α] {d : Delimiter} {n : Nesting α}
    {cs inside : List Char} (h : d.interiorFrom n cs = some inside) : ∃ c, cs = inside ++ [c] := by
  induction cs generalizing n inside with
  | nil => simp [interiorFrom] at h
  | cons c cs ih =>
    simp only [interiorFrom] at h
    split at h
    · split at h
      · next hcs =>
        obtain rfl : [] = inside := by simpa using h
        exact ⟨c, by simp [List.isEmpty_iff.1 hcs]⟩
      · simp at h
    · obtain ⟨rest, hr, rfl⟩ := Option.map_eq_some_iff.1 h
      obtain ⟨last, rfl⟩ := ih hr
      exact ⟨last, rfl⟩

/-- The text inside one pair of delimiters around the whole. -/
def wrappedInterior (d : Delimiter) (cs : List Char) (α : Type := Int) [Depth α] :
    Option (List Char) :=
  match cs with
  | [] => none
  | c :: cs =>
    if c = d.opening ∧ cs.getLast? = some d.closing then
      d.interiorFrom ((Nesting.start α).step c) cs
    else none

section

variable {α : Type} [Depth α]

theorem wrappedInterior_eq_some_iff {d : Delimiter} {cs inside : List Char} :
    wrappedInterior d cs α = some inside ↔ cs = d.opening :: inside ++ [d.closing] ∧
      d.interiorFrom ((Nesting.start α).step d.opening) (inside ++ [d.closing]) = some inside := by
  cases cs with
  | nil => simp [wrappedInterior]
  | cons c cs =>
    simp only [wrappedInterior]
    constructor
    · intro h
      split at h
      · next ends =>
        obtain ⟨rfl, closes⟩ := ends
        obtain ⟨last, rfl⟩ := Delimiter.eq_append_of_interiorFrom h
        obtain rfl : last = d.closing := by simpa using closes
        exact ⟨rfl, h⟩
      · cases h
    · rintro ⟨whole, h⟩
      obtain ⟨rfl, rfl⟩ := List.cons.inj whole
      rw [if_pos ⟨rfl, by simp⟩]
      exact h

/-- What stands before and after the parenthesis at which the depth first returns to zero. -/
def closing? (depth : α) : List Char → Option (List Char × List Char)
  | [] => none
  | c :: cs =>
    let onward := fun depth => (closing? depth cs).map fun (inside, rest) => (c :: inside, rest)
    if c = '(' then onward (depth + 1)
    else if c = ')' then if depth - 1 = 0 then some ([], cs) else onward (depth - 1)
    else onward depth

theorem eq_append_of_closing? {depth : α} {cs inside rest : List Char}
    (h : closing? depth cs = some (inside, rest)) : cs = inside ++ ')' :: rest := by
  induction cs generalizing depth inside with
  | nil => simp [closing?] at h
  | cons c cs ih =>
    have onward : ∀ depth : α,
        (closing? depth cs).map (fun (i, r) => (c :: i, r)) = some (inside, rest) →
          c :: cs = inside ++ ')' :: rest := by
      intro depth h
      obtain ⟨⟨i, r⟩, hi, he⟩ := Option.map_eq_some_iff.1 h
      obtain ⟨rfl, rfl⟩ : c :: i = inside ∧ r = rest := by simpa using he
      simp [ih hi]
    simp only [closing?] at h
    split at h
    · exact onward _ h
    · split at h
      · next hc =>
        split at h
        · obtain ⟨rfl, rfl⟩ : [] = inside ∧ cs = rest := by simpa using h
          simp [hc]
        · exact onward _ h
      · exact onward _ h

end

/-- The argument text of the first call in a text, and what follows the call. -/
def splitCall (cs : List Char) (α : Type := Int) [Depth α] : Option (List Char × List Char) :=
  match cs with
  | [] => none
  | c :: cs => if c = '(' then closing? (1 : α) cs else splitCall cs α

theorem eq_append_of_splitCall {α : Type} [Depth α] {cs inside rest : List Char}
    (h : splitCall cs α = some (inside, rest)) :
    ∃ before, '(' ∉ before ∧ cs = before ++ '(' :: inside ++ ')' :: rest := by
  induction cs with
  | nil => simp [splitCall] at h
  | cons c cs ih =>
    simp only [splitCall] at h
    split at h
    · next hc => exact ⟨[], by simp, by simp [hc, eq_append_of_closing? h]⟩
    · next hc =>
      obtain ⟨before, hb, rfl⟩ := ih h
      exact ⟨c :: before, by simp [hb, Ne.symm hc], by simp⟩

end CellFormula.Scan
