import CellFormula.Formula.Basic

/-!
# Subtrees

A path leads from the root of a tree down to one of its nodes, child by child. The subtree at its
end can be replaced by any tree; whatever does not lie on the path or below it stays as it is.
-/

namespace CellFormula

/-- A child of a node: an operand of a chain, a side of a condition, a branch or an argument. -/
inductive Child where
  | operand (index : Nat)
  | left
  | right
  | whenTrue
  | whenFalse
  | argument (index : Nat)
  deriving DecidableEq

namespace Child

def isArgument : Child → Bool
  | .argument _ => true
  | _ => false

/-- Whether the child is one of the two sides of a condition. -/
def isSide : Child → Bool
  | .left => true
  | .right => true
  | _ => false

end Child

namespace Formula

def child? : Formula → Child → Option Formula
  | .chain operands _, .operand index => operands[index]?
  | .conditional _ l _ _ _, .left => some l
  | .conditional _ _ r _ _, .right => some r
  | .conditional _ _ _ t _, .whenTrue => some t
  | .conditional _ _ _ _ f, .whenFalse => some f
  | .call _ arguments, .argument index => arguments[index]?
  | _, _ => none

/-- The node with another child in the place of one it has. -/
def setChild (f : Formula) (child : Child) (new : Formula) : Formula :=
  match f, child with
  | .chain operands operators, .operand index => .chain (operands.set index new) operators
  | .conditional c _ r t f, .left => .conditional c new r t f
  | .conditional c l _ t f, .right => .conditional c l new t f
  | .conditional c l r _ f, .whenTrue => .conditional c l r new f
  | .conditional c l r t _, .whenFalse => .conditional c l r t new
  | .call name arguments, .argument index => .call name (arguments.set index new)
  | f, _ => f

/-- The subtree at the end of a path, unless the path leads out of the tree. -/
def subtree? (f : Formula) : List Child → Option Formula
  | [] => some f
  | child :: path => (f.child? child).bind fun x => x.subtree? path

/-- The tree with another subtree at the end of a path that it has. -/
def replace (f : Formula) (path : List Child) (new : Formula) : Formula :=
  match path with
  | [] => new
  | child :: path =>
    match f.child? child with
    | some x => f.setChild child (x.replace path new)
    | none => f

theorem subtree?_cons_eq_some_iff {f s : Formula} {child : Child} {path : List Child} :
    f.subtree? (child :: path) = some s ↔
      ∃ x, f.child? child = some x ∧ x.subtree? path = some s := by
  rw [subtree?, Option.bind_eq_some_iff]

theorem replace_cons {f x : Formula} {child : Child} (h : f.child? child = some x)
    (path : List Child) (new : Formula) :
    f.replace (child :: path) new = f.setChild child (x.replace path new) := by
  rw [replace, h]

/-- A node without one of its children. -/
inductive Frame where
  | operand (before after : List Formula) (operators : Operators)
  | left (comparator : Comparator) (right whenTrue whenFalse : Formula)
  | right (comparator : Comparator) (left whenTrue whenFalse : Formula)
  | whenTrue (comparator : Comparator) (left right whenFalse : Formula)
  | whenFalse (comparator : Comparator) (left right whenTrue : Formula)
  | argument (name : String) (before after : List Formula)

namespace Frame

/-- The child that is left out. -/
def child : Frame → Child
  | .operand before _ _ => .operand before.length
  | .left .. => .left
  | .right .. => .right
  | .whenTrue .. => .whenTrue
  | .whenFalse .. => .whenFalse
  | .argument _ before _ => .argument before.length

def fill (x : Formula) : Frame → Formula
  | .operand before after operators => .chain (before ++ x :: after) operators
  | .left c r t f => .conditional c x r t f
  | .right c l t f => .conditional c l x t f
  | .whenTrue c l r f => .conditional c l r x f
  | .whenFalse c l r t => .conditional c l r t x
  | .argument name before after => .call name (before ++ x :: after)

theorem child?_fill (frame : Frame) (x : Formula) :
    (frame.fill x).child? frame.child = some x := by
  cases frame <;> simp [fill, child, child?]

theorem setChild_fill (frame : Frame) (x y : Formula) :
    (frame.fill x).setChild frame.child y = frame.fill y := by
  cases frame <;> simp [fill, child, setChild]

end Frame

/-- A node with a child is that child in its frame. -/
theorem exists_frame {f x : Formula} {child : Child} (h : f.child? child = some x) :
    ∃ frame : Frame, frame.child = child ∧ f = frame.fill x := by
  have split : ∀ {xs : List Formula} {index : Nat}, xs[index]? = some x →
      ∃ before after, before.length = index ∧ xs = before ++ x :: after := by
    intro xs index found
    obtain ⟨inside, same⟩ := List.getElem?_eq_some_iff.mp found
    obtain ⟨before, after, parts, length, -⟩ := @List.exists_of_set _ _ x _ inside
    exact ⟨before, after, length, same ▸ parts⟩
  cases f with
  | chain operands operators =>
    cases child with
    | operand index =>
      obtain ⟨before, after, rfl, rfl⟩ := split h
      exact ⟨.operand before after operators, rfl, rfl⟩
    | _ => cases h
  | conditional comparator left right whenTrue whenFalse =>
    cases child with
    | left =>
      cases h
      exact ⟨.left comparator right whenTrue whenFalse, rfl, rfl⟩
    | right =>
      cases h
      exact ⟨.right comparator left whenTrue whenFalse, rfl, rfl⟩
    | whenTrue =>
      cases h
      exact ⟨.whenTrue comparator left right whenFalse, rfl, rfl⟩
    | whenFalse =>
      cases h
      exact ⟨.whenFalse comparator left right whenTrue, rfl, rfl⟩
    | operand | argument => cases h
  | call name arguments =>
    cases child with
    | argument index =>
      obtain ⟨before, after, rfl, rfl⟩ := split h
      exact ⟨.argument name before after, rfl, rfl⟩
    | _ => cases h
  | cell | number | text => cases child <;> cases h

theorem child?_setChild {f x : Formula} {child : Child} (h : f.child? child = some x)
    (new : Formula) : (f.setChild child new).child? child = some new := by
  obtain ⟨frame, rfl, rfl⟩ := exists_frame h
  rw [frame.setChild_fill, frame.child?_fill]

theorem child?_setChild_of_ne {child other : Child} (ne : child ≠ other) (f new : Formula) :
    (f.setChild child new).child? other = f.child? other := by
  cases f with
  | chain operands operators =>
    cases child with
    | operand index =>
      cases other with
      | operand otherIndex => exact List.getElem?_set_ne fun same => ne (by rw [same])
      | _ => rfl
    | _ => rfl
  | conditional =>
    cases child with
    | operand | argument => rfl
    | _ => cases other <;> first | rfl | exact absurd rfl ne
  | call name arguments =>
    cases child with
    | argument index =>
      cases other with
      | argument otherIndex => exact List.getElem?_set_ne fun same => ne (by rw [same])
      | _ => rfl
    | _ => rfl
  | cell | number | text => cases child <;> rfl

/-- A path below the root begins with a frame around the rest. -/
theorem exists_frame_of_subtree? {f s : Formula} {child : Child} {path : List Child}
    (h : f.subtree? (child :: path) = some s) :
    ∃ (frame : Frame) (x : Formula), frame.child = child ∧ f = frame.fill x ∧
      x.subtree? path = some s ∧
      ∀ new, f.replace (child :: path) new = frame.fill (x.replace path new) := by
  obtain ⟨x, here, below⟩ := subtree?_cons_eq_some_iff.mp h
  obtain ⟨frame, rfl, rfl⟩ := exists_frame here
  refine ⟨frame, x, rfl, rfl, below, fun new => ?_⟩
  rw [replace_cons here, frame.setChild_fill]

theorem subtree?_replace {f s : Formula} {path : List Child} (h : f.subtree? path = some s)
    (new : Formula) : (f.replace path new).subtree? path = some new := by
  induction path generalizing f with
  | nil => rfl
  | cons child path ih =>
    obtain ⟨x, here, below⟩ := subtree?_cons_eq_some_iff.mp h
    rw [replace_cons here, subtree?, child?_setChild here]
    exact ih below

/-- What lies neither on the path nor below its end stays in place. -/
theorem subtree?_replace_of_apart {path other : List Child} (f new : Formula)
    (above : ¬ other <+: path) (below : ¬ path <+: other) :
    (f.replace path new).subtree? other = f.subtree? other := by
  induction path generalizing f other with
  | nil => exact absurd List.nil_prefix below
  | cons child path ih =>
    obtain _ | ⟨step, other⟩ := other
    · exact absurd List.nil_prefix above
    cases here : f.child? child with
    | none => rw [replace, here]
    | some x =>
      rw [replace_cons here, subtree?, subtree?]
      by_cases same : child = step
      · subst same
        rw [child?_setChild here, here]
        exact ih x (fun h => above (List.cons_prefix_cons.mpr ⟨rfl, h⟩))
          (fun h => below (List.cons_prefix_cons.mpr ⟨rfl, h⟩))
      · rw [child?_setChild_of_ne same]

end Formula

end CellFormula
