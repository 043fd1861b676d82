import CellFormula.Proofs.References

/-!
# How far a subtree is seen

The walks stop at different places, so that a subtree counts for one fact and not for another. Which
facts follow a replaced subtree depends on its path alone: an argument on the path hides it from the
complexity, a side of a condition hides it from the presence checks, and nothing hides it from the
references.
-/

namespace CellFormula.Formula

theorem complexity_fill {frame : Frame} (counted : frame.child.isArgument = false) (x y : Formula) :
    (frame.fill y).complexity + x.complexity = (frame.fill x).complexity + y.complexity := by
  cases frame with
  | operand before after operators =>
    simp only [Frame.fill, complexity, complexityList_eq, List.map_append, List.map_cons,
      List.sum_append, List.sum_cons]
    omega
  | argument => cases counted
  | _ =>
    simp only [Frame.fill, complexity]
    omega

theorem complexity_fill_argument {frame : Frame} (hidden : frame.child.isArgument = true)
    (x y : Formula) : (frame.fill y).complexity = (frame.fill x).complexity := by
  cases frame with
  | argument => rfl
  | _ => cases hidden

theorem occurs_fill {p : Formula → Bool} {frame : Frame} (visible : frame.child.isSide = false)
    {x : Formula} (inside : x.occurs p = true) : (frame.fill x).occurs p = true := by
  cases frame with
  | left | right => cases visible
  | operand | argument => simp [Frame.fill, occurs, occursList_eq, inside]
  | whenTrue | whenFalse => simp [Frame.fill, occurs, inside]

section

variable {p : Formula → Bool} (root : ∀ (frame : Frame) x y, p (frame.fill x) = p (frame.fill y))

include root

theorem occurs_fill_side {frame : Frame} (hidden : frame.child.isSide = true) (x y : Formula) :
    (frame.fill y).occurs p = (frame.fill x).occurs p := by
  have here := root frame y x
  cases frame with
  | left | right =>
    simp only [Frame.fill] at here
    simp only [Frame.fill, occurs, here]
  | _ => cases hidden

theorem occurs_fill_congr (frame : Frame) {x y : Formula} (same : y.occurs p = x.occurs p) :
    (frame.fill y).occurs p = (frame.fill x).occurs p := by
  have here := root frame y x
  cases frame <;>
    · simp only [Frame.fill] at here
      simp only [Frame.fill, occurs, occursList_eq, List.any_append, List.any_cons, here, same]

end

theorem isConditional_fill (frame : Frame) (x y : Formula) :
    (frame.fill x).isConditional = (frame.fill y).isConditional := by
  cases frame <;> rfl

theorem isLookup_fill (frame : Frame) (x y : Formula) :
    (frame.fill x).isLookup = (frame.fill y).isLookup := by
  cases frame <;> rfl

section

variable {f s : Formula} {path : List Child} (there : f.subtree? path = some s)

include there

theorem complexity_replace (counted : path.any Child.isArgument = false) (new : Formula) :
    (f.replace path new).complexity + s.complexity = f.complexity + new.complexity := by
  induction path generalizing f with
  | nil =>
    cases there
    exact Nat.add_comm _ _
  | cons child path ih =>
    obtain ⟨frame, x, rfl, rfl, below, replaced⟩ := exists_frame_of_subtree? there
    obtain ⟨here, onward⟩ := Bool.or_eq_false_iff.mp counted
    have inside := ih below onward
    have around := complexity_fill here x (x.replace path new)
    rw [replaced]
    omega

theorem complexity_replace_argument (hidden : path.any Child.isArgument = true) (new : Formula) :
    (f.replace path new).complexity = f.complexity := by
  induction path generalizing f with
  | nil => cases hidden
  | cons child path ih =>
    obtain ⟨frame, x, rfl, rfl, below, replaced⟩ := exists_frame_of_subtree? there
    rw [replaced]
    by_cases here : frame.child.isArgument = true
    · exact complexity_fill_argument here x _
    · have visible : frame.child.isArgument = false := Bool.eq_false_iff.mpr here
      have onward : path.any Child.isArgument = true := by
        simpa [List.any_cons, visible] using hidden
      have inside := ih below onward
      have around := complexity_fill visible x (x.replace path new)
      omega

theorem occurs_replace {p : Formula → Bool} (visible : path.any Child.isSide = false)
    {new : Formula} (inside : new.occurs p = true) : (f.replace path new).occurs p = true := by
  induction path generalizing f with
  | nil => exact inside
  | cons child path ih =>
    obtain ⟨frame, x, rfl, rfl, below, replaced⟩ := exists_frame_of_subtree? there
    obtain ⟨here, onward⟩ := Bool.or_eq_false_iff.mp visible
    rw [replaced]
    exact occurs_fill here (ih below onward)

theorem occurs_replace_side {p : Formula → Bool}
    (root : ∀ (frame : Frame) x y, p (frame.fill x) = p (frame.fill y))
    (hidden : path.any Child.isSide = true) (new : Formula) :
    (f.replace path new).occurs p = f.occurs p := by
  induction path generalizing f with
  | nil => cases hidden
  | cons child path ih =>
    obtain ⟨frame, x, rfl, rfl, below, replaced⟩ := exists_frame_of_subtree? there
    rw [replaced]
    rcases Bool.or_eq_true_iff.mp hidden with here | onward
    · exact occurs_fill_side root here x _
    · exact occurs_fill_congr root frame (ih below onward)

theorem references_replace (new : Formula) : new.references ⊆ (f.replace path new).references := by
  intro name mem
  obtain ⟨proper, cell⟩ := mem_references.mp mem
  obtain ⟨before, after, -, stretch⟩ := cellNames_replace there
  exact mem_references.mpr ⟨proper, by simp [stretch, cell]⟩

end

/-- What a tree with a replaced subtree has in common with the tree before. The new subtree stands
at the end of the path, and whatever stands apart from the path stands where it was. The complexity
differs by that of the two subtrees, unless an argument on the path hides them; the presence checks
see what is in the new subtree, unless a side of a condition on the path hides both; and its
references are always among those of the whole. -/
theorem replace_local {f s : Formula} {path : List Child} (there : f.subtree? path = some s)
    (new : Formula) :
    ((f.replace path new).subtree? path = some new ∧
      ∀ other, ¬ other <+: path → ¬ path <+: other →
        (f.replace path new).subtree? other = f.subtree? other) ∧
    (path.any Child.isArgument = false →
      (f.replace path new).complexity + s.complexity = f.complexity + new.complexity) ∧
    (path.any Child.isArgument = true → (f.replace path new).complexity = f.complexity) ∧
    (path.any Child.isSide = true →
      (f.replace path new).hasConditional = f.hasConditional ∧
        (f.replace path new).hasLookup = f.hasLookup) ∧
    (path.any Child.isSide = false →
      (new.hasConditional = true → (f.replace path new).hasConditional = true) ∧
        (new.hasLookup = true → (f.replace path new).hasLookup = true)) ∧
    new.references ⊆ (f.replace path new).references := by
  refine ⟨⟨subtree?_replace there new, fun other => subtree?_replace_of_apart f new⟩,
    fun counted => complexity_replace there counted new,
    fun hidden => complexity_replace_argument there hidden new, ?_, ?_,
    references_replace there new⟩
  · intro hidden
    exact ⟨occurs_replace_side there isConditional_fill hidden new,
      occurs_replace_side there isLookup_fill hidden new⟩
  · intro visible
    exact ⟨occurs_replace there visible, occurs_replace there visible⟩

/-- A lookup on one side of the condition, and a chain in an argument of another. -/
def screenedTree : Formula :=
  .conditional .greaterThan (.lookup [.cell "A1"]) (.number (.zero false))
    (.lookup [.chain [.cell "B1", .cell "C1"] (.shared .add)]) (.text "none")

theorem replace_local_screenedTree :
    screenedTree.subtree? [.whenTrue, .argument 0, .operand 1] = some (.cell "C1") ∧
    (screenedTree.replace [.whenTrue, .argument 0, .operand 1] screenedTree).complexity =
      screenedTree.complexity ∧
    (screenedTree.replace [.whenTrue, .argument 0, .operand 1] screenedTree).hasConditional = true ∧
    screenedTree.references ⊆
      (screenedTree.replace [.whenTrue, .argument 0, .operand 1] screenedTree).references ∧
    screenedTree.subtree? [.left] = some (.lookup [.cell "A1"]) ∧
    (screenedTree.replace [.left] screenedTree).complexity + 1 = screenedTree.complexity + 5 ∧
    (screenedTree.replace [.left] (.cell "A1")).hasLookup = screenedTree.hasLookup := by
  have argument : screenedTree.subtree? [.whenTrue, .argument 0, .operand 1] =
      some (.cell "C1") := rfl
  have side : screenedTree.subtree? [.left] = some (.lookup [.cell "A1"]) := rfl
  obtain ⟨-, -, hidden, -, visible, references⟩ := replace_local argument screenedTree
  obtain ⟨-, counted, -⟩ := replace_local side screenedTree
  obtain ⟨-, -, -, screened, -⟩ := replace_local side (.cell "A1")
  exact ⟨argument, hidden rfl, (visible rfl).1 rfl, references, side, counted rfl,
    (screened rfl).2⟩

end CellFormula.Formula
