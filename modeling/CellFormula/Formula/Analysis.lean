import CellFormula.Formula.Basic

/-!
# Facts about a tree

The walks visit different parts of a tree. `complexity` does not enter the arguments of a call,
`hasConditional` and `hasLookup` do not enter the two sides of a condition, and `references` visits
everything.
-/

namespace CellFormula.Formula

mutual

/-- The number of nodes, those below a call not counted. -/
def complexity : Formula → Nat
  | .chain operands _ => 1 + complexityList operands
  | .conditional _ left right whenTrue whenFalse =>
    1 + (left.complexity + right.complexity + whenTrue.complexity + whenFalse.complexity)
  | _ => 1

def complexityList : List Formula → Nat
  | [] => 0
  | x :: xs => x.complexity + complexityList xs

end

-- The zero of a sum is the numeral.
attribute [local instance (high)] Zero.ofOfNat0 in
theorem complexityList_eq (xs : List Formula) : complexityList xs = (xs.map complexity).sum := by
  induction xs with
  | nil => rfl
  | cons x xs ih => rw [complexityList, ih, List.map_cons, List.sum_cons]

/-- A name is added once, and the empty name never. -/
def addReference (seen : List String) (name : String) : List String :=
  if name.isEmpty || seen.contains name then seen else seen ++ [name]

mutual

/-- Adds the names of the cells in the tree that are new to `seen`, as they are met depth first. -/
def collect (seen : List String) : Formula → List String
  | .cell name => addReference seen name
  | .number _ => seen
  | .text _ => seen
  | .chain operands _ => collectList seen operands
  | .conditional _ left right whenTrue whenFalse =>
    collect (collect (collect (collect seen left) right) whenTrue) whenFalse
  | .call _ arguments => collectList seen arguments

def collectList (seen : List String) : List Formula → List String
  | [] => seen
  | x :: xs => collectList (collect seen x) xs

end

/-- Each name a tree refers to, once, in the order of first occurrence. -/
def references (f : Formula) : List String :=
  collect [] f

mutual

/-- Whether a node outside the sides of conditions has the property. -/
def occurs (p : Formula → Bool) : Formula → Bool
  | .chain operands operators => p (.chain operands operators) || occursList p operands
  | .conditional c left right whenTrue whenFalse =>
    p (.conditional c left right whenTrue whenFalse) || whenTrue.occurs p || whenFalse.occurs p
  | .call name arguments => p (.call name arguments) || occursList p arguments
  | f => p f

def occursList (p : Formula → Bool) : List Formula → Bool
  | [] => false
  | x :: xs => x.occurs p || occursList p xs

end

theorem occursList_eq (p : Formula → Bool) (xs : List Formula) :
    occursList p xs = xs.any fun x => x.occurs p := by
  induction xs with
  | nil => rfl
  | cons x xs ih => rw [occursList, ih, List.any_cons]

def hasConditional (f : Formula) : Bool :=
  f.occurs isConditional

def hasLookup (f : Formula) : Bool :=
  f.occurs isLookup

end CellFormula.Formula
