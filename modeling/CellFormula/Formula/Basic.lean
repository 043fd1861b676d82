import CellFormula.Number.Binary64
import CellFormula.Symbol

/-!
# Formula trees

A chain applies its operators from left to right without precedence. Older documents hold chains in
which one operator joins all operands; that shape is kept apart from a list of operators. The
constructors check nothing: a chain in a tree may have any numbers of operands and operators, and
only those built as a `Chain` are known to fit.
-/

namespace CellFormula

/-- The operators of a chain: one between each pair of neighbours, or one for all pairs. -/
inductive Operators where
  | perPair (list : List Operator)
  | shared (operator : Operator)
  deriving DecidableEq

namespace Operators

/-- The operators between `count` operands. -/
def toList (count : Nat) : Operators → List Operator
  | .perPair list => list
  | .shared operator => List.replicate (count - 1) operator

/-- Whether the operators fit `count` operands, of which there are at least two. -/
def Fits (count : Nat) : Operators → Prop
  | .perPair list => 2 ≤ count ∧ list.length + 1 = count
  | .shared _ => 2 ≤ count

instance (count : Nat) (operators : Operators) : Decidable (operators.Fits count) := by
  cases operators <;> unfold Fits <;> infer_instance

theorem two_le {count : Nat} {operators : Operators} (h : operators.Fits count) : 2 ≤ count := by
  cases operators with
  | perPair list => exact h.1
  | shared operator => exact h

theorem length_toList {count : Nat} {operators : Operators} (h : operators.Fits count) :
    (operators.toList count).length + 1 = count := by
  cases operators with
  | perPair list => exact h.2
  | shared operator =>
    have : 2 ≤ count := h
    simp only [toList, List.length_replicate]
    omega

end Operators

inductive Formula where
  | cell (name : String)
  | number (value : Binary64)
  | text (value : String)
  | chain (operands : List Formula) (operators : Operators)
  | conditional (comparator : Comparator) (left right whenTrue whenFalse : Formula)
  | call (name : String) (arguments : List Formula)
  deriving Inhabited

namespace Formula

/-- The one function that formulas can call. -/
def lookupName : String := "lookup"

def lookup (arguments : List Formula) : Formula :=
  .call lookupName arguments

def isLookup : Formula → Bool
  | .call name _ => name == lookupName
  | _ => false

def isConditional : Formula → Bool
  | .conditional .. => true
  | _ => false

/-- The name of the node's kind in documents. -/
def kind : Formula → String
  | .cell _ => "cellValue"
  | .number _ => "number"
  | .text _ => "textbox"
  | .chain .. => "operator"
  | .conditional .. => "if"
  | .call .. => "function"

mutual

/-- Whether two trees have one shape and agree at every node, numbers compared by `eq`. -/
def sameBy (eq : Binary64 → Binary64 → Bool) : Formula → Formula → Bool
  | .cell a, .cell b => a == b
  | .number x, .number y => eq x y
  | .text a, .text b => a == b
  | .chain xs p, .chain ys q => sameListBy eq xs ys && p == q
  | .conditional c l r t f, .conditional c' l' r' t' f' =>
    c == c' && l.sameBy eq l' && r.sameBy eq r' && t.sameBy eq t' && f.sameBy eq f'
  | .call a xs, .call b ys => a == b && sameListBy eq xs ys
  | _, _ => false

def sameListBy (eq : Binary64 → Binary64 → Bool) : List Formula → List Formula → Bool
  | [], [] => true
  | x :: xs, y :: ys => x.sameBy eq y && sameListBy eq xs ys
  | _, _ => false

end

mutual

theorem sameBy_beq_iff : ∀ a b : Formula, a.sameBy (· == ·) b = true ↔ a = b
  | .cell _, b => by cases b <;> simp [sameBy]
  | .number _, b => by cases b <;> simp [sameBy]
  | .text _, b => by cases b <;> simp [sameBy]
  | .chain xs _, b => by cases b <;> simp [sameBy, sameListBy_beq_iff xs]
  | .conditional _ l r t f, b => by
    cases b <;>
      simp [sameBy, sameBy_beq_iff l, sameBy_beq_iff r, sameBy_beq_iff t, sameBy_beq_iff f,
        and_assoc]
  | .call _ xs, b => by cases b <;> simp [sameBy, sameListBy_beq_iff xs]

theorem sameListBy_beq_iff : ∀ xs ys : List Formula, sameListBy (· == ·) xs ys = true ↔ xs = ys
  | [], ys => by cases ys <;> simp [sameListBy]
  | x :: xs, ys => by cases ys <;> simp [sameListBy, sameBy_beq_iff x, sameListBy_beq_iff xs]

end

instance : DecidableEq Formula := fun a b => decidable_of_iff _ (sameBy_beq_iff a b)

/-- Equality of trees, numbers compared as IEEE 754 does. -/
def same (a b : Formula) : Bool :=
  a.sameBy Binary64.same b

end Formula

end CellFormula
