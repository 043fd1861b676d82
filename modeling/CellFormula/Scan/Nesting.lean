import CellFormula.Symbol

/-!
# Nesting of positions in a text

A position is at top level outside parentheses, brackets and quoted spans. Both quote characters
switch the same flag, so a quoted span may open with one and close with the other, and delimiters
inside it do not count. Depths go below zero after an unmatched closer; no such position is at top
level. The nesting at a character includes that character.

The numbers in which depths are kept are a parameter. Integers have room for every depth. Kept in 32
bits, a depth wraps around from 2^31 - 1 to -2^31. A depth is never greater than the number of
characters read, so that both scans are one for texts of fewer than 2^31 characters, and such texts
are read alike (`Reading.expressionIn_int32`).
-/

namespace CellFormula

/-- Numbers in which the depths of a scan are kept. -/
class Depth (α : Type) extends Zero α, One α, Add α, Sub α, LE α where
  [decidableEq : DecidableEq α]
  [decidableLE : DecidableLE α]
  zero_le_zero : (0 : α) ≤ 0
  add_one_sub_one : ∀ a : α, a + 1 - 1 = a
  sub_one_add_one : ∀ a : α, a - 1 + 1 = a

attribute [reducible, instance] Depth.decidableEq Depth.decidableLE

instance : Depth Int where
  zero := 0
  one := 1
  zero_le_zero := Int.le_refl 0
  add_one_sub_one a := Int.add_sub_cancel a 1
  sub_one_add_one a := Int.sub_add_cancel a 1

instance : Depth Int32 where
  zero := 0
  one := 1
  zero_le_zero := Int32.le_refl 0
  add_one_sub_one a := Int32.add_sub_cancel a 1
  sub_one_add_one a := Int32.sub_add_cancel a 1

structure Nesting (α : Type := Int) where
  parens : α
  brackets : α
  quoted : Bool
  deriving DecidableEq

namespace Nesting

def start (α : Type := Int) [Depth α] : Nesting α :=
  ⟨0, 0, false⟩

section

variable {α : Type} [Depth α]

def isTopLevel (n : Nesting α) : Bool :=
  !n.quoted && n.parens == 0 && n.brackets == 0

def isQuote (c : Char) : Bool :=
  c == '"' || c == '\''

/-- The nesting after one more character. -/
def step (n : Nesting α) (c : Char) : Nesting α :=
  if isQuote c then { n with quoted := !n.quoted }
  else if n.quoted then n
  else if c = '(' then { n with parens := n.parens + 1 }
  else if c = ')' then { n with parens := n.parens - 1 }
  else if c = '[' then { n with brackets := n.brackets + 1 }
  else if c = ']' then { n with brackets := n.brackets - 1 }
  else n

/-- The nesting after a whole text. -/
def run (n : Nesting α) (cs : List Char) : Nesting α :=
  cs.foldl step n

/-- Each character of a text with the nesting at it. -/
def scan (n : Nesting α) : List Char → List (Char × Nesting α)
  | [] => []
  | c :: cs => (c, n.step c) :: scan (n.step c) cs

@[simp] theorem run_nil (n : Nesting α) : n.run [] = n := rfl

@[simp] theorem run_cons (n : Nesting α) (c : Char) (cs : List Char) :
    n.run (c :: cs) = (n.step c).run cs := rfl

theorem run_append (n : Nesting α) (xs ys : List Char) : n.run (xs ++ ys) = (n.run xs).run ys := by
  simp [run]

theorem scan_append (n : Nesting α) (xs ys : List Char) :
    n.scan (xs ++ ys) = n.scan xs ++ (n.run xs).scan ys := by
  induction xs generalizing n with
  | nil => rfl
  | cons c xs ih => simp [scan, ih]

end

end Nesting

/-- Whether an arithmetic operator stands at top level. -/
def Scan.hasTopLevelOperator (cs : List Char) (α : Type := Int) [Depth α] : Bool :=
  ((Nesting.start α).scan cs).any fun (c, n) => n.isTopLevel && (Operator.ofChar? c).isSome

end CellFormula
