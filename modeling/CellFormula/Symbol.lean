/-!
# Arithmetic operators and comparators

Each has one symbol, save that equality may also be written with two equals signs.
-/

namespace CellFormula

inductive Operator where
  | add
  | subtract
  | multiply
  | divide
  deriving DecidableEq

namespace Operator

def symbol : Operator → Char
  | .add => '+'
  | .subtract => '-'
  | .multiply => '*'
  | .divide => '/'

def ofChar? : Char → Option Operator
  | '+' => some .add
  | '-' => some .subtract
  | '*' => some .multiply
  | '/' => some .divide
  | _ => none

theorem ofChar?_eq_some_iff {c : Char} {op : Operator} : ofChar? c = some op ↔ c = op.symbol := by
  constructor
  · intro h
    unfold ofChar? at h
    split at h <;> simp_all <;> subst h <;> rfl
  · rintro rfl
    cases op <;> rfl

/-- The operator whose symbol is the whole text. -/
def ofSymbol? (s : String) : Option Operator :=
  match s.toList with
  | [c] => ofChar? c
  | _ => none

end Operator

inductive Comparator where
  | equal
  | notEqual
  | lessThan
  | greaterThan
  | lessEqual
  | greaterEqual
  deriving DecidableEq

namespace Comparator

def symbol : Comparator → String
  | .equal => "="
  | .notEqual => "<>"
  | .lessThan => "<"
  | .greaterThan => ">"
  | .lessEqual => "<="
  | .greaterEqual => ">="

def ofSymbol? (s : String) : Option Comparator :=
  if s = "=" ∨ s = "==" then some .equal
  else if s = "<>" then some .notEqual
  else if s = "<" then some .lessThan
  else if s = ">" then some .greaterThan
  else if s = "<=" then some .lessEqual
  else if s = ">=" then some .greaterEqual
  else none

theorem ofSymbol?_symbol (c : Comparator) : ofSymbol? c.symbol = some c := by
  cases c <;> rfl

/-- Every spelling, in the order in which a condition is searched for them: a symbol comes after
those it is the beginning of. -/
def spellings : List (List Char × Comparator) :=
  [("<>".toList, .notEqual), (">=".toList, .greaterEqual), ("<=".toList, .lessEqual),
   ("==".toList, .equal), (">".toList, .greaterThan), ("<".toList, .lessThan),
   ("=".toList, .equal)]

end Comparator

end CellFormula
