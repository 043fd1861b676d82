import CellFormula.Formula.Basic

/-!
# The normal form of a tree

What the text of a tree can say of it. A chain that begins with a call loses everything after that
call, a shared operator is repeated between all pairs, and zero has one sign. Only the first of
these makes a tree smaller, so that a tree is its own normal form unless some chain begins with a
call.
-/

namespace CellFormula

/-- The greatest measure of the members of a list is at most `n` if and only if each of them is. -/
theorem greatest_le_iff {α : Type} {measure : α → Nat} {greatest : List α → Nat}
    (nil : greatest [] = 0)
    (cons : ∀ x xs, greatest (x :: xs) = max (measure x) (greatest xs)) {xs : List α} {n : Nat} :
    greatest xs ≤ n ↔ ∀ x ∈ xs, measure x ≤ n := by
  induction xs with
  | nil => simp [nil]
  | cons x xs ih => rw [cons, Nat.max_le, ih, List.forall_mem_cons]

namespace Formula

/-- Induction over the nodes, with one case for each kind. -/
@[elab_as_elim]
theorem induction {motive : Formula → Prop} (cell : ∀ name, motive (.cell name))
    (number : ∀ value, motive (.number value)) (text : ∀ value, motive (.text value))
    (chain : ∀ operands operators, (∀ x ∈ operands, motive x) →
      motive (.chain operands operators))
    (conditional : ∀ comparator left right whenTrue whenFalse, motive left → motive right →
      motive whenTrue → motive whenFalse →
        motive (.conditional comparator left right whenTrue whenFalse))
    (call : ∀ name arguments, (∀ x ∈ arguments, motive x) → motive (.call name arguments))
    (f : Formula) : motive f :=
  @Formula.rec motive (fun xs => ∀ x ∈ xs, motive x) cell number text chain conditional call
    (fun _ h => by cases h)
    (fun _ _ head tail => List.forall_mem_cons.mpr ⟨head, tail⟩) f

mutual

/-- Every node of the tree, the root included, has the property. -/
def Every (p : Formula → Prop) : Formula → Prop
  | .cell name => p (.cell name)
  | .number value => p (.number value)
  | .text value => p (.text value)
  | .chain operands operators => p (.chain operands operators) ∧ EveryOf p operands
  | .conditional comparator left right whenTrue whenFalse =>
    p (.conditional comparator left right whenTrue whenFalse) ∧
      left.Every p ∧ right.Every p ∧ whenTrue.Every p ∧ whenFalse.Every p
  | .call name arguments => p (.call name arguments) ∧ EveryOf p arguments

def EveryOf (p : Formula → Prop) : List Formula → Prop
  | [] => True
  | x :: xs => x.Every p ∧ EveryOf p xs

end

theorem everyOf_iff {p : Formula → Prop} {xs : List Formula} :
    EveryOf p xs ↔ ∀ x ∈ xs, x.Every p := by
  induction xs with
  | nil => simp [EveryOf]
  | cons x xs ih => rw [EveryOf, ih, List.forall_mem_cons]

theorem Every.root {p : Formula → Prop} {f : Formula} (h : f.Every p) : p f := by
  cases f with
  | cell | number | text => exact h
  | chain | conditional | call => exact h.1

/-- The nodes right below a node, from left to right. -/
def children : Formula → List Formula
  | .chain operands _ => operands
  | .conditional _ left right whenTrue whenFalse => [left, right, whenTrue, whenFalse]
  | .call _ arguments => arguments
  | _ => []

/-- Induction over the nodes, whatever their kind. -/
@[elab_as_elim]
theorem children_induction {motive : Formula → Prop}
    (node : ∀ f : Formula, (∀ x ∈ f.children, motive x) → motive f) (f : Formula) : motive f := by
  induction f using induction with
  | cell | number | text => exact node _ (List.forall_mem_nil _)
  | chain _ _ ih | call _ _ ih => exact node _ ih
  | conditional _ _ _ _ _ ihl ihr iht ihf =>
    exact node _ (by simp [children, ihl, ihr, iht, ihf])

theorem every_iff {p : Formula → Prop} {f : Formula} :
    f.Every p ↔ p f ∧ ∀ x ∈ f.children, x.Every p := by
  cases f <;> simp [Every, everyOf_iff, children]

/-- A property of nodes that follows from another one of the node and of those right below it. -/
theorem Every.imp_of_children {p q : Formula → Prop}
    (h : ∀ f, p f → (∀ x ∈ f.children, p x) → q f) {f : Formula} (all : f.Every p) : f.Every q := by
  induction f using children_induction with
  | node f ih =>
    rw [every_iff] at all ⊢
    obtain ⟨root, below⟩ := all
    exact ⟨h f root fun x hx => (below x hx).root, fun x hx => ih x hx (below x hx)⟩

theorem Every.imp {p q : Formula → Prop} (h : ∀ f, p f → q f) {f : Formula} (all : f.Every p) :
    f.Every q :=
  all.imp_of_children fun f root _ => h f root

theorem every_and_iff {p q : Formula → Prop} {f : Formula} :
    f.Every (fun x => p x ∧ q x) ↔ f.Every p ∧ f.Every q := by
  refine ⟨fun h => ⟨h.imp fun _ => And.left, h.imp fun _ => And.right⟩, ?_⟩
  rintro ⟨hp, hq⟩
  induction f using children_induction with
  | node f ih =>
    rw [every_iff] at hp hq ⊢
    exact ⟨⟨hp.1, hq.1⟩, fun x hx => ih x hx (hp.2 x hx) (hq.2 x hx)⟩

def isCall : Formula → Bool
  | .conditional .. => true
  | .call .. => true
  | _ => false

def isLeaf : Formula → Bool
  | .cell _ => true
  | .number _ => true
  | .text _ => true
  | _ => false

mutual

/-- The tree that is read from the text of a tree. -/
def norm : Formula → Formula
  | .cell name => .cell name
  | .number value => .number (if value.isZero then .zero false else value)
  | .text value => .text value
  | .chain [] operators => .chain [] (.perPair (operators.toList 0))
  | .chain (x :: xs) operators =>
    if x.isCall then x.norm
    else .chain (x.norm :: normList xs) (.perPair (operators.toList (xs.length + 1)))
  | .conditional comparator left right whenTrue whenFalse =>
    .conditional comparator left.norm right.norm whenTrue.norm whenFalse.norm
  | .call name arguments => .call name (normList arguments)

def normList : List Formula → List Formula
  | [] => []
  | x :: xs => x.norm :: normList xs

end

mutual

/-- Levels enough to read the text of a tree: a chain takes one for its parentheses and one for its
operators. -/
def need : Formula → Nat
  | .chain operands _ => 2 + needList operands
  | .conditional _ left right whenTrue whenFalse =>
    1 + max (max left.need right.need) (max whenTrue.need whenFalse.need)
  | .call _ arguments => 1 + needList arguments
  | _ => 1

def needList : List Formula → Nat
  | [] => 0
  | x :: xs => max x.need (needList xs)

end

theorem normList_eq_map (xs : List Formula) : normList xs = xs.map norm := by
  induction xs with
  | nil => rfl
  | cons x xs ih => rw [normList, ih, List.map_cons]

theorem needList_le_iff {fs : List Formula} {n : Nat} :
    needList fs ≤ n ↔ ∀ f ∈ fs, f.need ≤ n :=
  greatest_le_iff rfl fun _ _ => rfl

/-- A chain, if this is one, does not begin with a call. -/
def NotLed : Formula → Prop
  | .chain (x :: _) _ => x.isCall = false
  | _ => True

/-- A chain, if this is one, has an operator for each pair, and a number is one. -/
def Listed : Formula → Prop
  | .chain _ (.shared _) => False
  | .number value => value.isNaN = false
  | _ => True

mutual

/-- The number of nodes. -/
def size : Formula → Nat
  | .chain operands _ => 1 + sizeList operands
  | .conditional _ left right whenTrue whenFalse =>
    1 + (left.size + right.size + whenTrue.size + whenFalse.size)
  | .call _ arguments => 1 + sizeList arguments
  | _ => 1

def sizeList : List Formula → Nat
  | [] => 0
  | x :: xs => x.size + sizeList xs

end

mutual

theorem size_eq_of_sameBy (eq : Binary64 → Binary64 → Bool) :
    ∀ a b : Formula, a.sameBy eq b = true → a.size = b.size
  | .cell _, b => by cases b <;> simp [sameBy, size]
  | .number _, b => by cases b <;> simp [sameBy, size]
  | .text _, b => by cases b <;> simp [sameBy, size]
  | .chain xs _, b => by
    cases b <;> simp only [sameBy, size, Bool.and_eq_true, Bool.false_eq_true, false_implies]
    rintro ⟨h, -⟩
    rw [sizeList_eq_of_sameListBy eq xs _ h]
  | .conditional _ l r t f, b => by
    cases b <;> simp only [sameBy, size, Bool.and_eq_true, Bool.false_eq_true, false_implies]
    rintro ⟨⟨⟨⟨-, hl⟩, hr⟩, ht⟩, hf⟩
    rw [size_eq_of_sameBy eq l _ hl, size_eq_of_sameBy eq r _ hr, size_eq_of_sameBy eq t _ ht,
      size_eq_of_sameBy eq f _ hf]
  | .call _ xs, b => by
    cases b <;> simp only [sameBy, size, Bool.and_eq_true, Bool.false_eq_true, false_implies]
    rintro ⟨-, h⟩
    rw [sizeList_eq_of_sameListBy eq xs _ h]

theorem sizeList_eq_of_sameListBy (eq : Binary64 → Binary64 → Bool) :
    ∀ xs ys : List Formula, sameListBy eq xs ys = true → sizeList xs = sizeList ys
  | [], ys => by cases ys <;> simp [sameListBy, sizeList]
  | x :: xs, ys => by
    cases ys <;> simp only [sameListBy, sizeList, Bool.and_eq_true, Bool.false_eq_true,
      false_implies]
    rintro ⟨h, hs⟩
    rw [size_eq_of_sameBy eq x _ h, sizeList_eq_of_sameListBy eq xs _ hs]

end

theorem sizeList_norm {xs : List Formula}
    (h : ∀ x ∈ xs, x.norm.size ≤ x.size ∧ (x.norm.size = x.size → x.Every NotLed)) :
    sizeList (normList xs) ≤ sizeList xs ∧
      (sizeList (normList xs) = sizeList xs → ∀ x ∈ xs, x.Every NotLed) := by
  induction xs with
  | nil => exact ⟨Nat.le_refl _, fun _ _ h => by cases h⟩
  | cons x xs ih =>
    obtain ⟨le, led⟩ := h x List.mem_cons_self
    obtain ⟨leRest, ledRest⟩ := ih fun y hy => h y (List.mem_cons_of_mem x hy)
    rw [normList, sizeList, sizeList]
    refine ⟨by omega, fun same => ?_⟩
    rw [List.forall_mem_cons]
    exact ⟨led (by omega), ledRest (by omega)⟩

/-- Only a chain that begins with a call loses nodes. -/
theorem size_norm (f : Formula) :
    f.norm.size ≤ f.size ∧ (f.norm.size = f.size → f.Every NotLed) := by
  induction f using induction with
  | cell | number | text => exact ⟨Nat.le_refl _, fun _ => trivial⟩
  | chain operands operators ih =>
    cases operands with
    | nil => exact ⟨Nat.le_refl _, fun _ => ⟨trivial, trivial⟩⟩
    | cons x xs =>
      obtain ⟨le, led⟩ := sizeList_norm ih
      rw [norm]
      split
      · have := (ih x List.mem_cons_self).1
        rw [size, sizeList]
        exact ⟨by omega, fun same => by omega⟩
      · next other =>
        rw [normList] at le led
        rw [size, size]
        refine ⟨by omega, fun same => ?_⟩
        rw [Every, everyOf_iff]
        exact ⟨by simpa [NotLed] using other, led (by omega)⟩
  | conditional comparator l r t f ihl ihr iht ihf =>
    rw [norm, size, size]
    refine ⟨by omega, fun same => ⟨trivial, ihl.2 ?_, ihr.2 ?_, iht.2 ?_, ihf.2 ?_⟩⟩ <;> omega
  | call name arguments ih =>
    obtain ⟨le, led⟩ := sizeList_norm ih
    rw [norm, size, size]
    refine ⟨by omega, fun same => ?_⟩
    rw [Every, everyOf_iff]
    exact ⟨trivial, led (by omega)⟩

theorem sameListBy_normList {xs : List Formula} (h : ∀ x ∈ xs, x.norm.same x = true) :
    sameListBy Binary64.same (normList xs) xs = true := by
  induction xs with
  | nil => rfl
  | cons x xs ih =>
    rw [normList, sameListBy, Bool.and_eq_true]
    exact ⟨h x List.mem_cons_self, ih fun y hy => h y (List.mem_cons_of_mem x hy)⟩

theorem same_norm {f : Formula} (notLed : f.Every NotLed) (listed : f.Every Listed) :
    f.norm.same f = true := by
  induction f using induction with
  | cell | text => simp [norm, same, sameBy]
  | number x =>
    have number : x.isNaN = false := listed
    change (if x.isZero then Binary64.zero false else x).same x = true
    by_cases zero : x.isZero = true
    · have other : (Binary64.zero false).isNaN = false := rfl
      have none : (Binary64.zero false).isZero = true := rfl
      simp [zero, Binary64.same, number, other, none]
    · rw [if_neg zero]
      exact (Binary64.same_self_iff x).mpr number
  | chain operands operators ih =>
    rw [Every, everyOf_iff] at notLed listed
    obtain ⟨here, notLed⟩ := notLed
    obtain ⟨pairs, listed⟩ := listed
    have list := sameListBy_normList fun x hx => ih x hx (notLed x hx) (listed x hx)
    cases operators with
    | shared operator => cases pairs
    | perPair links =>
      cases operands with
      | nil => simp [norm, same, sameBy, sameListBy, Operators.toList]
      | cons x xs =>
        have first : x.isCall = false := here
        rw [norm, if_neg (by simp [first]), same, sameBy, Bool.and_eq_true]
        exact ⟨list, by simp [Operators.toList]⟩
  | conditional comparator l r t f ihl ihr iht ihf =>
    obtain ⟨-, nl, nr, nt, nf⟩ := notLed
    obtain ⟨-, ll, lr, lt, lf⟩ := listed
    simp only [same] at ihl ihr iht ihf
    simp [norm, same, sameBy, ihl nl ll, ihr nr lr, iht nt lt, ihf nf lf]
  | call name arguments ih =>
    rw [Every, everyOf_iff] at notLed listed
    have list := sameListBy_normList fun x hx => ih x hx (notLed.2 x hx) (listed.2 x hx)
    rw [norm, same, sameBy, Bool.and_eq_true]
    exact ⟨by simp, list⟩

/-- A tree agrees with its normal form exactly when no chain in it begins with a call. -/
theorem same_norm_iff {f : Formula} (listed : f.Every Listed) :
    f.norm.same f = true ↔ f.Every NotLed := by
  constructor
  · intro h
    exact (size_norm f).2 (size_eq_of_sameBy _ _ _ h)
  · intro notLed
    exact same_norm notLed listed

end Formula

end CellFormula
