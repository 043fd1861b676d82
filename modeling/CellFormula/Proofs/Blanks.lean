import CellFormula.Text.Blank
import Mathlib.Data.List.TakeWhile

/-!
# Trimmed texts

A trimmed text is a contiguous piece of the text, and a text is its own trim exactly when neither
end is blank. Pieces are compared by their length in bytes, which a proper piece always lowers.
-/

namespace CellFormula.Text

theorem length_le_byteLength (cs : List Char) : cs.length ≤ byteLength cs := by
  induction cs with
  | nil => exact Nat.le_refl 0
  | cons c cs ih =>
    have := c.utf8Size_pos
    rw [List.length_cons, byteLength_cons]
    omega

theorem byteLength_le_of_sublist {xs ys : List Char} (h : xs.Sublist ys) :
    byteLength xs ≤ byteLength ys := by
  induction h with
  | slnil => exact Nat.le_refl _
  | cons c _ ih => rw [byteLength_cons]; omega
  | cons_cons c _ ih => rw [byteLength_cons, byteLength_cons]; omega

theorem eq_of_sublist_of_byteLength_le {xs ys : List Char} (h : xs.Sublist ys)
    (le : byteLength ys ≤ byteLength xs) : xs = ys := by
  induction h with
  | slnil => rfl
  | cons c h _ =>
    have := byteLength_le_of_sublist h
    have := c.utf8Size_pos
    rw [byteLength_cons] at le
    omega
  | cons_cons c _ ih =>
    rw [byteLength_cons, byteLength_cons] at le
    rw [ih (by omega)]

theorem byteLength_lt_of_infix {xs ys : List Char} (h : xs <:+: ys) (ne : xs ≠ ys) :
    byteLength xs < byteLength ys := by
  apply Nat.lt_of_not_le
  intro le
  exact ne (eq_of_sublist_of_byteLength_le h.sublist le)

theorem trimStart_isSuffix (cs : List Char) : trimStart cs <:+ cs :=
  List.dropWhile_suffix _

theorem trimEnd_isPrefix (cs : List Char) : trimEnd cs <+: cs := by
  have suffix : cs.reverse.dropWhile isBlank <:+ cs.reverse := List.dropWhile_suffix isBlank
  simpa [trimEnd] using List.reverse_prefix.mpr suffix

theorem trim_isInfix (cs : List Char) : trim cs <:+: cs :=
  (trimEnd_isPrefix _).isInfix.trans (trimStart_isSuffix cs).isInfix

theorem byteLength_trim_le (cs : List Char) : byteLength (trim cs) ≤ byteLength cs :=
  byteLength_le_of_sublist (trim_isInfix cs).sublist

theorem trim_ne_nil {cs : List Char} (h : ∃ c ∈ cs, isBlank c = false) : trim cs ≠ [] := by
  obtain ⟨c, hc, dark⟩ := h
  intro empty
  have all : ∀ d ∈ trimStart cs, isBlank d = true := by
    simpa [trim, trimEnd, List.dropWhile_eq_nil_iff] using empty
  have start : c ∈ trimStart cs := by
    rw [← List.takeWhile_append_dropWhile (p := isBlank) (l := cs), List.mem_append] at hc
    rcases hc with hc | hc
    · have blank := List.mem_takeWhile_imp hc
      rw [dark] at blank
      cases blank
    · exact hc
  have blank := all c start
  rw [dark] at blank
  cases blank

/-- Neither end of a text is blank. -/
def Trimmed (cs : List Char) : Prop :=
  (∀ c, cs.head? = some c → isBlank c = false) ∧ ∀ c, cs.getLast? = some c → isBlank c = false

theorem trimStart_eq_self {cs : List Char} (h : ∀ c, cs.head? = some c → isBlank c = false) :
    trimStart cs = cs := by
  cases cs with
  | nil => rfl
  | cons c cs => simp [trimStart, h c rfl]

theorem trimEnd_eq_self {cs : List Char} (h : ∀ c, cs.getLast? = some c → isBlank c = false) :
    trimEnd cs = cs := by
  have : trimStart cs.reverse = cs.reverse :=
    trimStart_eq_self (fun c hc => h c (by simpa using hc))
  rw [trimEnd, ← trimStart, this, List.reverse_reverse]

theorem head?_trimStart {cs : List Char} {c : Char} (h : (trimStart cs).head? = some c) :
    isBlank c = false := by
  have := List.head?_dropWhile_not isBlank cs
  rw [trimStart] at h
  rw [h] at this
  simpa using this

theorem getLast?_trimEnd {cs : List Char} {c : Char} (h : (trimEnd cs).getLast? = some c) :
    isBlank c = false :=
  @head?_trimStart cs.reverse c (by simpa [trimEnd, trimStart] using h)

theorem head?_trimEnd {cs : List Char} {c : Char} (h : (trimEnd cs).head? = some c) :
    cs.head? = some c := by
  obtain ⟨rest, hrest⟩ := trimEnd_isPrefix cs
  rw [← hrest, List.head?_append, h]
  rfl

theorem trimmed_trim (cs : List Char) : Trimmed (trim cs) :=
  ⟨fun _ h => head?_trimStart (head?_trimEnd h), fun _ h => getLast?_trimEnd h⟩

theorem Trimmed.trim_eq {cs : List Char} (h : Trimmed cs) : trim cs = cs := by
  rw [trim, trimStart_eq_self h.1, trimEnd_eq_self h.2]

theorem trim_trim (cs : List Char) : trim (trim cs) = trim cs :=
  (trimmed_trim cs).trim_eq

theorem trimmed_iff {cs : List Char} : Trimmed cs ↔ trim cs = cs :=
  ⟨Trimmed.trim_eq, fun h => h ▸ trimmed_trim cs⟩

theorem trimEnd_append {xs : List Char} (h : ∀ c, xs.getLast? = some c → isBlank c = false)
    (ys : List Char) : trimEnd (xs ++ ys) = xs ++ trimEnd ys := by
  have whole : xs.reverse.dropWhile isBlank = xs.reverse := by
    simpa [trimEnd] using congrArg List.reverse (trimEnd_eq_self h)
  rw [trimEnd, trimEnd, List.reverse_append, List.dropWhile_append]
  split
  · next none => simp [whole, List.isEmpty_iff.mp none]
  · simp

/-- Only the end of what follows a text without blank ends is trimmed. -/
theorem Trimmed.trim_append {xs : List Char} (h : Trimmed xs) (ne : xs ≠ []) (ys : List Char) :
    trim (xs ++ ys) = xs ++ trimEnd ys := by
  cases xs with
  | nil => exact absurd rfl ne
  | cons c xs =>
    have start : trimStart (c :: xs ++ ys) = c :: xs ++ ys :=
      trimStart_eq_self fun d hd => h.1 d hd
    rw [trim, start, trimEnd_append h.2]

theorem Trimmed.append {xs ys : List Char} (hx : Trimmed xs) (neX : xs ≠ []) (hy : Trimmed ys)
    (neY : ys ≠ []) : Trimmed (xs ++ ys) := by
  constructor
  · intro c hc
    rw [List.head?_append, List.head?_eq_some_head neX, Option.some_or] at hc
    exact hx.1 c (by rw [List.head?_eq_some_head neX, hc])
  · intro c hc
    rw [List.getLast?_append, List.getLast?_eq_some_getLast neY, Option.some_or] at hc
    exact hy.2 c (by rw [List.getLast?_eq_some_getLast neY, hc])

theorem trimmed_ends {first last : Char} (hf : isBlank first = false) (hl : isBlank last = false)
    (cs : List Char) : Trimmed (first :: cs ++ [last]) := by
  constructor
  · intro c hc
    cases hc
    exact hf
  · intro c hc
    rw [List.getLast?_append] at hc
    cases hc
    exact hl

theorem trimStart_append {ys : List Char} (h : ∀ c, ys.head? = some c → isBlank c = false)
    (xs : List Char) : trimStart (xs ++ ys) = trimStart xs ++ ys := by
  have kept : ys.dropWhile isBlank = ys := trimStart_eq_self h
  rw [trimStart, trimStart, List.dropWhile_append]
  split
  · next none => rw [kept, List.isEmpty_iff.mp none, List.nil_append]
  · rfl

theorem trim_trimStart (cs : List Char) : trim (trimStart cs) = trim cs := by
  have again : trimStart (trimStart cs) = trimStart cs := trimStart_eq_self fun _ => head?_trimStart
  rw [trim, again, trim]

theorem exists_blanks (cs : List Char) :
    ∃ bs, cs = trimEnd cs ++ bs ∧ ∀ c ∈ bs, isBlank c = true := by
  refine ⟨(cs.reverse.takeWhile isBlank).reverse, ?_, fun c hc => ?_⟩
  · rw [trimEnd, ← List.reverse_append, List.takeWhile_append_dropWhile, List.reverse_reverse]
  · exact List.mem_takeWhile_imp (List.mem_reverse.mp hc)

theorem trim_append_blanks {bs : List Char} (blank : ∀ c ∈ bs, isBlank c = true) (cs : List Char) :
    trim (cs ++ bs) = trim cs := by
  rw [trim, trim, trimStart, trimStart, List.dropWhile_append]
  split
  · next none =>
    have all : bs.dropWhile isBlank = [] := List.dropWhile_eq_nil_iff.mpr blank
    rw [all, List.isEmpty_iff.mp none]
  · rw [trimEnd, trimEnd, List.reverse_append, List.dropWhile_append_of_pos]
    exact fun c hc => blank c (List.mem_reverse.mp hc)

theorem trim_trimEnd (cs : List Char) : trim (trimEnd cs) = trim cs := by
  obtain ⟨bs, text, blank⟩ := exists_blanks cs
  have whole := trim_append_blanks blank (trimEnd cs)
  rw [← text] at whole
  exact whole.symm

theorem trim_blanks_append {bs : List Char} (blank : ∀ c ∈ bs, isBlank c = true) (cs : List Char) :
    trim (bs ++ cs) = trim cs := by
  rw [trim, trim, trimStart, List.dropWhile_append_of_pos blank, ← trimStart]

theorem trimEnd_blanks {bs : List Char} (blank : ∀ c ∈ bs, isBlank c = true) :
    trimEnd bs = [] := by
  have all : bs.reverse.dropWhile isBlank = [] :=
    List.dropWhile_eq_nil_iff.mpr fun c hc => blank c (List.mem_reverse.mp hc)
  rw [trimEnd, all, List.reverse_nil]

theorem trim_blanks {bs : List Char} (blank : ∀ c ∈ bs, isBlank c = true) : trim bs = [] :=
  trim_append_blanks blank []

theorem trimEnd_cons_congr {xs ys : List Char} (h : trimEnd xs = trimEnd ys) (c : Char) :
    trimEnd (c :: xs) = trimEnd (c :: ys) := by
  have same : xs.reverse.dropWhile isBlank = ys.reverse.dropWhile isBlank :=
    List.reverse_inj.mp h
  simp only [trimEnd, List.reverse_cons, List.dropWhile_append, same]

/-- Only blanks are trimmed off. -/
theorem exists_blanks_around (cs : List Char) : ∃ before after, cs = before ++ trim cs ++ after ∧
    (∀ c ∈ before, isBlank c = true) ∧ ∀ c ∈ after, isBlank c = true := by
  obtain ⟨after, text, blank⟩ := exists_blanks (trimStart cs)
  refine ⟨cs.takeWhile isBlank, after, ?_, fun c hc => List.mem_takeWhile_imp hc, blank⟩
  rw [List.append_assoc, trim, ← text, trimStart, List.takeWhile_append_dropWhile]

end CellFormula.Text
