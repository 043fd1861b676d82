import CellFormula.Scan.Nesting
import CellFormula.Text.Blank

/-!
# Splitting a text at top level

Three ways to cut a text: at every top-level occurrence of one character, at the first top-level
occurrence of a symbol, and at the arithmetic operators that join operands. An operator met before
anything but blanks is the sign of its operand and joins nothing. Cutting loses no character; only
the pieces as returned are trimmed.
-/

namespace CellFormula.Scan

open Text

section

variable {α : Type} [Depth α]

/-- The pieces between top-level separators, as they stand; there is always at least one. -/
def rawPieces (separator : Char) (n : Nesting α) : List Char → List (List Char)
  | [] => [[]]
  | c :: cs =>
    let n' := n.step c
    if c = separator ∧ n'.isTopLevel then [] :: rawPieces separator n' cs
    else match rawPieces separator n' cs with
      | [] => [[c]]
      | piece :: pieces => (c :: piece) :: pieces

theorem rawPieces_ne_nil (separator : Char) (n : Nesting α) (cs : List Char) :
    rawPieces separator n cs ≠ [] := by
  cases cs with
  | nil => simp [rawPieces]
  | cons c cs =>
    simp only [rawPieces]
    split
    · simp
    · split <;> simp

/-- The raw pieces with separators between them are the text again. -/
theorem joined_rawPieces (separator : Char) (n : Nesting α) (cs : List Char) :
    joined [separator] (rawPieces separator n cs) = cs := by
  induction cs generalizing n with
  | nil => rfl
  | cons c cs ih =>
    have hne := rawPieces_ne_nil separator (n.step c) cs
    have ih := ih (n.step c)
    simp only [rawPieces]
    split
    · next h =>
      cases hp : rawPieces separator (n.step c) cs with
      | nil => exact absurd hp hne
      | cons p ps => rw [hp] at ih; simp [joined, ih, h.1]
    · split
      · next hp => exact absurd hp hne
      · next p ps hp => rw [hp] at ih; rw [joined_cons_cons, ih]

/-- Leaves out the last text if it is empty. -/
def dropEmptyLast : List (List Char) → List (List Char)
  | [] => []
  | [[]] => []
  | t :: ts => t :: dropEmptyLast ts

/-- The trimmed pieces between top-level separators; a last piece that is blank does not count. -/
def splitTopLevel (separator : Char) (cs : List Char) (α : Type := Int) [Depth α] :
    List (List Char) :=
  dropEmptyLast ((rawPieces separator (.start α) cs).map trim)

/-- What stands before and after the first occurrence of `needle` that starts at top level. -/
def findFrom (needle : List Char) (n : Nesting α) : List Char → Option (List Char × List Char)
  | [] => none
  | c :: cs =>
    let n' := n.step c
    match if n'.isTopLevel then after? needle (c :: cs) else none with
    | some rest => some ([], rest)
    | none => (findFrom needle n' cs).map fun (before, rest) => (c :: before, rest)

def findTopLevel (needle cs : List Char) (α : Type := Int) [Depth α] :
    Option (List Char × List Char) :=
  findFrom needle (.start α) cs

theorem eq_append_of_findFrom {needle cs before rest : List Char} {n : Nesting α}
    (h : findFrom needle n cs = some (before, rest)) : cs = before ++ needle ++ rest := by
  induction cs generalizing n before with
  | nil => simp [findFrom] at h
  | cons c cs ih =>
    simp only [findFrom] at h
    split at h
    · next r hr =>
      obtain ⟨rfl, rfl⟩ : [] = before ∧ r = rest := by simpa using h
      split at hr
      · simpa using after?_eq_some_iff.1 hr
      · simp at hr
    · obtain ⟨⟨b, r⟩, hb, he⟩ := Option.map_eq_some_iff.1 h
      obtain ⟨rfl, rfl⟩ : c :: b = before ∧ r = rest := by simpa using he
      simp [ih hb]

/-- The text before the first joining operator, then each joining operator with the text after it.
`blank` says whether the current piece has been blank so far. -/
def rawSegments (n : Nesting α) (blank : Bool) :
    List Char → List Char × List (Operator × List Char)
  | [] => ([], [])
  | c :: cs =>
    let n' := n.step c
    match if n'.isTopLevel && !blank then Operator.ofChar? c else none with
    | some op =>
      let (piece, more) := rawSegments n' true cs
      ([], (op, piece) :: more)
    | none =>
      let (piece, more) := rawSegments n' (blank && isBlank c) cs
      (c :: piece, more)

/-- The first piece, then each operator and its piece, are the text again. -/
theorem append_rawSegments (n : Nesting α) (blank : Bool) (cs : List Char) :
    (rawSegments n blank cs).1 ++
      (rawSegments n blank cs).2.flatMap (fun s => s.1.symbol :: s.2) = cs := by
  induction cs generalizing n blank with
  | nil => rfl
  | cons c cs ih =>
    simp only [rawSegments]
    split
    · next op h =>
      have hc : c = op.symbol := by
        split at h
        · exact Operator.ofChar?_eq_some_iff.1 h
        · simp at h
      simp [ih, hc]
    · simp [ih]

end

/-- The operands of a text and the operators that join them. A dangling last operator has no operand
after it. -/
structure Segments where
  operands : List (List Char)
  operators : List Operator

def Segments.ofText (cs : List Char) (α : Type := Int) [Depth α] : Segments :=
  let (piece, more) := rawSegments (.start α) true cs
  ⟨dropEmptyLast ((piece :: more.map (·.2)).map trim), more.map (·.1)⟩

end CellFormula.Scan
