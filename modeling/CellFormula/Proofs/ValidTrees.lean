import CellFormula.Formula.Validity
import CellFormula.Proofs.NormalForm

/-!
# Validity node by node

A tree is valid when it has no unnamed cell and no number that is not finite, and well-formed when
every chain holds the operators its operands need. Both are properties of each node by itself.
-/

namespace CellFormula.Formula

theorem wellFormedList_iff {xs : List Formula} :
    WellFormedList xs ↔ ∀ x ∈ xs, x.WellFormed := by
  induction xs with
  | nil => simp [WellFormedList]
  | cons x xs ih => rw [WellFormedList, ih, List.forall_mem_cons]

/-- A chain, if this is one, holds the operators that its operands need. -/
def Fitting : Formula → Prop
  | .chain operands operators => operators.Fits operands.length
  | _ => True

theorem wellFormed_iff {f : Formula} : f.WellFormed ↔ f.Every Fitting := by
  induction f using induction with
  | cell | number | text => exact Iff.rfl
  | chain operands operators ih =>
    simp only [WellFormed, Every, Fitting, wellFormedList_iff, everyOf_iff]
    exact and_congr_right fun _ => forall₂_congr ih
  | conditional comparator l r t f ihl ihr iht ihf =>
    simp only [WellFormed, Every, Fitting, ihl, ihr, iht, ihf, true_and]
  | call name arguments ih =>
    simp only [WellFormed, Every, Fitting, wellFormedList_iff, everyOf_iff, true_and]
    exact forall₂_congr ih

/-- No cell in the tree has an empty name. -/
def Named (f : Formula) : Prop :=
  f.Every (· ≠ .cell "")

def FiniteNumber : Formula → Prop
  | .number value => value.isFinite = true
  | _ => True

/-- Every number in the tree is finite. -/
def Finite (f : Formula) : Prop :=
  f.Every FiniteNumber

theorem bind_eq_ok_unit_iff {ε : Type} {x y : Except ε Unit} :
    (x >>= fun _ => y) = .ok () ↔ x = .ok () ∧ y = .ok () := by
  cases x with
  | error e => exact ⟨nofun, nofun⟩
  | ok u => exact ⟨fun h => ⟨rfl, h⟩, fun h => h.2⟩

theorem validateList_eq_ok_iff {xs : List Formula} :
    validateList xs = .ok () ↔ ∀ x ∈ xs, x.validate = .ok () := by
  induction xs with
  | nil => simp [validateList]
  | cons x xs ih => rw [validateList, bind_eq_ok_unit_iff, ih, List.forall_mem_cons]

theorem validate_of_children {xs : List Formula}
    (ih : ∀ x ∈ xs, (x.validate = .ok () ↔ x.Named ∧ x.Finite)) :
    validateList xs = .ok () ↔ EveryOf (· ≠ .cell "") xs ∧ EveryOf FiniteNumber xs := by
  rw [validateList_eq_ok_iff, everyOf_iff, everyOf_iff]
  constructor
  · intro h
    exact ⟨fun x hx => ((ih x hx).mp (h x hx)).1, fun x hx => ((ih x hx).mp (h x hx)).2⟩
  · rintro ⟨named, finite⟩ x hx
    exact (ih x hx).mpr ⟨named x hx, finite x hx⟩

theorem validate_eq_ok_iff (f : Formula) : f.validate = .ok () ↔ f.Named ∧ f.Finite := by
  induction f using induction with
  | cell name =>
    simp only [validate, Named, Finite, Every, FiniteNumber, and_true]
    by_cases empty : name = ""
    · simp [empty]
    · simp [empty]
  | number value =>
    simp only [validate, Named, Finite, Every, FiniteNumber]
    by_cases finite : value.isFinite = true
    · simp [finite]
    · simp [finite]
  | text value => simp [validate, Named, Finite, Every, FiniteNumber]
  | chain operands operators ih =>
    simp only [validate, Named, Finite, Every, FiniteNumber, validate_of_children ih, true_and,
      ne_eq, reduceCtorEq, not_false_eq_true]
  | conditional comparator l r t f ihl ihr iht ihf =>
    simp only [validate, bind_eq_ok_unit_iff, ihl, ihr, iht, ihf, Named, Finite, Every,
      FiniteNumber, true_and, ne_eq, reduceCtorEq, not_false_eq_true]
    constructor
    · rintro ⟨⟨nl, fl⟩, ⟨nr, fr⟩, ⟨nt, ft⟩, nf, ff⟩
      exact ⟨⟨nl, nr, nt, nf⟩, fl, fr, ft, ff⟩
    · rintro ⟨⟨nl, nr, nt, nf⟩, fl, fr, ft, ff⟩
      exact ⟨⟨nl, fl⟩, ⟨nr, fr⟩, ⟨nt, ft⟩, nf, ff⟩
  | call name arguments ih =>
    simp only [validate, Named, Finite, Every, FiniteNumber, validate_of_children ih, true_and,
      ne_eq, reduceCtorEq, not_false_eq_true]

end CellFormula.Formula
