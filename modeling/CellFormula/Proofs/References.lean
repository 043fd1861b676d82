import Mathlib.Data.Finset.Insert
import CellFormula.Formula.Analysis
import CellFormula.Proofs.NormalForm
import CellFormula.Proofs.Subtrees

/-!
# The references of a tree

A walk down the tree collects references, with the names it has already met at hand. Its result
depends on nothing but the list of all names in the order of the walk: from this list it drops the
empty name and keeps the first occurrence of every other one.
-/

namespace CellFormula.Formula

mutual

/-- The names of all cells, depth first and from left to right. -/
def cellNames : Formula → List String
  | .cell name => [name]
  | .number _ => []
  | .text _ => []
  | .chain operands _ => cellNamesOf operands
  | .conditional _ left right whenTrue whenFalse =>
    left.cellNames ++ right.cellNames ++ whenTrue.cellNames ++ whenFalse.cellNames
  | .call _ arguments => cellNamesOf arguments

def cellNamesOf : List Formula → List String
  | [] => []
  | x :: xs => x.cellNames ++ cellNamesOf xs

end

/-- The names of the cells that have one. -/
def properNames (f : Formula) : List String :=
  f.cellNames.filter (· ≠ "")

theorem cellNamesOf_eq (xs : List Formula) : cellNamesOf xs = xs.flatMap cellNames := by
  induction xs with
  | nil => rfl
  | cons x xs ih => rw [cellNamesOf, ih, List.flatMap_cons]

theorem mem_properNames {f : Formula} {name : String} :
    name ∈ f.properNames ↔ name ≠ "" ∧ name ∈ f.cellNames := by
  simp [properNames, and_comm]

/-- The names below a child are one stretch of the names of the node. -/
theorem cellNames_fill (frame : Frame) :
    ∃ before after, ∀ x, (frame.fill x).cellNames = before ++ x.cellNames ++ after := by
  cases frame with
  | operand before after operators =>
    exact ⟨cellNamesOf before, cellNamesOf after, fun x => by
      simp [Frame.fill, cellNames, cellNamesOf_eq]⟩
  | left comparator r t f =>
    exact ⟨[], r.cellNames ++ t.cellNames ++ f.cellNames, fun x => by simp [Frame.fill, cellNames]⟩
  | right comparator l t f =>
    exact ⟨l.cellNames, t.cellNames ++ f.cellNames, fun x => by simp [Frame.fill, cellNames]⟩
  | whenTrue comparator l r f =>
    exact ⟨l.cellNames ++ r.cellNames, f.cellNames, fun x => rfl⟩
  | whenFalse comparator l r t =>
    exact ⟨l.cellNames ++ r.cellNames ++ t.cellNames, [], fun x => by simp [Frame.fill, cellNames]⟩
  | argument name before after =>
    exact ⟨cellNamesOf before, cellNamesOf after, fun x => by
      simp [Frame.fill, cellNames, cellNamesOf_eq]⟩

/-- The names of a subtree are one stretch of all names, and replacing the subtree replaces it. -/
theorem cellNames_replace {f s : Formula} {path : List Child} (h : f.subtree? path = some s) :
    ∃ before after, f.cellNames = before ++ s.cellNames ++ after ∧
      ∀ new, (f.replace path new).cellNames = before ++ new.cellNames ++ after := by
  induction path generalizing f with
  | nil =>
    cases h
    exact ⟨[], [], by simp, fun new => by simp [replace]⟩
  | cons child path ih =>
    obtain ⟨frame, x, rfl, rfl, below, replaced⟩ := exists_frame_of_subtree? h
    obtain ⟨before, after, inside, exchanged⟩ := ih below
    obtain ⟨before', after', stretch⟩ := cellNames_fill frame
    refine ⟨before' ++ before, after ++ after', ?_, fun new => ?_⟩
    · simp [stretch, inside]
    · simp [replaced, stretch, exchanged]

theorem mem_cellNames_of_subtree? {f : Formula} {path : List Child} {name : String}
    (h : f.subtree? path = some (.cell name)) : name ∈ f.cellNames := by
  obtain ⟨before, after, stretch, -⟩ := cellNames_replace h
  simp [stretch, cellNames]

theorem exists_child_of_mem_cellNamesOf {xs : List Formula} {name : String}
    (h : name ∈ cellNamesOf xs) :
    ∃ (index : Nat) (x : Formula), xs[index]? = some x ∧ x ∈ xs ∧ name ∈ x.cellNames := by
  rw [cellNamesOf_eq, List.mem_flatMap] at h
  obtain ⟨x, hx, mem⟩ := h
  obtain ⟨index, found⟩ := List.mem_iff_getElem?.mp hx
  exact ⟨index, x, found, hx, mem⟩

theorem exists_subtree?_of_mem_cellNames {f : Formula} {name : String}
    (h : name ∈ f.cellNames) : ∃ path, f.subtree? path = some (.cell name) := by
  have below : ∀ {f x : Formula} (child : Child), f.child? child = some x →
      (∃ path, x.subtree? path = some (.cell name)) →
        ∃ path, f.subtree? path = some (.cell name) := by
    rintro f x child here ⟨path, found⟩
    exact ⟨child :: path, subtree?_cons_eq_some_iff.mpr ⟨x, here, found⟩⟩
  induction f using induction with
  | cell other =>
    obtain rfl : name = other := List.mem_singleton.mp h
    exact ⟨[], rfl⟩
  | number | text => cases h
  | chain operands operators ih =>
    obtain ⟨index, x, found, hx, mem⟩ := exists_child_of_mem_cellNamesOf h
    exact below (.operand index) found (ih x hx mem)
  | conditional comparator l r t e ihl ihr iht ihe =>
    simp only [cellNames, List.mem_append] at h
    rcases h with ((h | h) | h) | h
    · exact below .left rfl (ihl h)
    · exact below .right rfl (ihr h)
    · exact below .whenTrue rfl (iht h)
    · exact below .whenFalse rfl (ihe h)
  | call function arguments ih =>
    obtain ⟨index, x, found, hx, mem⟩ := exists_child_of_mem_cellNamesOf h
    exact below (.argument index) found (ih x hx mem)

theorem mem_cellNames_iff {f : Formula} {name : String} :
    name ∈ f.cellNames ↔ ∃ path, f.subtree? path = some (.cell name) :=
  ⟨exists_subtree?_of_mem_cellNames, fun ⟨_, found⟩ => mem_cellNames_of_subtree? found⟩

/-- A walk that does something at the cells, and nothing in between, does it to their names in
order. -/
theorem collectList_eq_foldl {xs : List Formula}
    (ih : ∀ x ∈ xs, ∀ seen, collect seen x = x.cellNames.foldl addReference seen)
    (seen : List String) : collectList seen xs = (cellNamesOf xs).foldl addReference seen := by
  induction xs generalizing seen with
  | nil => rfl
  | cons x xs rest =>
    obtain ⟨first, others⟩ := List.forall_mem_cons.mp ih
    rw [collectList, cellNamesOf, List.foldl_append, first, rest others]

theorem collect_eq_foldl (f : Formula) (seen : List String) :
    collect seen f = f.cellNames.foldl addReference seen := by
  induction f using induction generalizing seen with
  | cell | number | text => rfl
  | chain operands operators ih => exact collectList_eq_foldl ih seen
  | conditional comparator l r t e ihl ihr iht ihe =>
    simp only [collect, cellNames, List.foldl_append, ihl, ihr, iht, ihe]
  | call name arguments ih => exact collectList_eq_foldl ih seen

theorem addReference_of_known {seen : List String} {name : String}
    (known : name = "" ∨ name ∈ seen) : addReference seen name = seen := by
  rcases known with rfl | known
  · rfl
  · simp [addReference, known]

theorem addReference_of_new {seen : List String} {name : String} (proper : name ≠ "")
    (new : name ∉ seen) : addReference seen name = seen ++ [name] := by
  simp [addReference, proper, new]

/-- Whatever has been met before, the walk adds the first occurrence of every other proper name. -/
theorem foldl_addReference (names seen : List String) : names.foldl addReference seen =
    seen ++ ((names.filter (· ≠ "")).filter (· ∉ seen)).eraseDups := by
  induction names generalizing seen with
  | nil => simp
  | cons name names ih =>
    rw [List.foldl_cons]
    by_cases known : name = "" ∨ name ∈ seen
    · rw [addReference_of_known known, ih]
      rcases known with rfl | known
      · simp
      · by_cases proper : name = "" <;> simp [proper, known]
    · obtain ⟨proper, new⟩ := not_or.mp known
      rw [addReference_of_new proper new, ih]
      -- The names that differ from all met so far are those that differ from the new one, too.
      have later : ∀ others : List String, others.filter (· ∉ seen ++ [name]) =
          (others.filter (· ∉ seen)).filter (fun other => !other == name) := by
        intro others
        rw [List.filter_filter]
        apply List.filter_congr
        intro other _
        rw [Bool.eq_iff_iff]
        simp [and_comm]
      rw [List.filter_cons_of_pos (by simpa using proper),
        List.filter_cons_of_pos (by simpa using new), List.eraseDups_cons, later,
        List.append_assoc]
      rfl

theorem collect_eq (f : Formula) (seen : List String) :
    collect seen f = seen ++ (f.properNames.filter (· ∉ seen)).eraseDups := by
  rw [collect_eq_foldl, foldl_addReference, properNames]

theorem references_eq (f : Formula) : f.references = f.properNames.eraseDups := by
  rw [references, collect_eq]
  simp

theorem mem_references {f : Formula} {name : String} :
    name ∈ f.references ↔ name ≠ "" ∧ name ∈ f.cellNames := by
  rw [references_eq, List.mem_eraseDups, mem_properNames]

/-- The names met on a walk, as a set to look them up in and as the list to be returned. -/
structure Gathered where
  seen : Finset String
  names : List String

namespace Gathered

def visit (g : Gathered) (name : String) : Gathered :=
  if name ≠ "" ∧ name ∉ g.seen then ⟨insert name g.seen, g.names ++ [name]⟩ else g

mutual

def walk (g : Gathered) : Formula → Gathered
  | .cell name => g.visit name
  | .number _ => g
  | .text _ => g
  | .chain operands _ => g.walkList operands
  | .conditional _ left right whenTrue whenFalse =>
    (((g.walk left).walk right).walk whenTrue).walk whenFalse
  | .call _ arguments => g.walkList arguments

def walkList (g : Gathered) : List Formula → Gathered
  | [] => g
  | x :: xs => (g.walk x).walkList xs

end

/-- The set holds the names of the list. -/
def of (names : List String) : Gathered :=
  ⟨names.toFinset, names⟩

theorem visit_of (names : List String) (name : String) :
    (of names).visit name = of (addReference names name) := by
  by_cases known : name = "" ∨ name ∈ names
  · rw [addReference_of_known known, visit, if_neg]
    simpa [of] using fun proper => known.resolve_left proper
  · obtain ⟨proper, new⟩ := not_or.mp known
    have grown : insert name names.toFinset = (names ++ [name]).toFinset := by
      ext other
      simp only [Finset.mem_insert, List.mem_toFinset, List.mem_append, List.mem_singleton,
        or_comm]
    rw [addReference_of_new proper new, visit, if_pos]
    · simp only [of, grown]
    · simpa [of] using ⟨proper, new⟩

theorem walkList_of {xs : List Formula}
    (ih : ∀ x ∈ xs, ∀ names, (of names).walk x = of (collect names x)) (names : List String) :
    (of names).walkList xs = of (collectList names xs) := by
  induction xs generalizing names with
  | nil => rfl
  | cons x xs rest =>
    obtain ⟨first, others⟩ := List.forall_mem_cons.mp ih
    rw [walkList, collectList, first, rest others]

/-- The set and the list never disagree, so that one of them is enough. -/
theorem walk_of (f : Formula) (names : List String) :
    (of names).walk f = of (collect names f) := by
  induction f using induction generalizing names with
  | cell name => exact visit_of names name
  | number | text => rfl
  | chain operands operators ih => exact walkList_of ih names
  | conditional comparator l r t e ihl ihr iht ihe =>
    simp only [walk, collect, ihl, ihr, iht, ihe]
  | call name arguments ih => exact walkList_of ih names

end Gathered

theorem eraseDups_concat (xs : List String) (x : String) :
    (xs ++ [x]).eraseDups = if x ∈ xs then xs.eraseDups else xs.eraseDups ++ [x] := by
  rw [List.eraseDups_append]
  split
  · next old => simp [List.removeAll, old]
  · next new => simp [List.removeAll, new, List.eraseDups_cons]

/-- What is kept of a list stands in the order of first occurrence. -/
theorem pairwise_eraseDups (xs : List String) :
    xs.eraseDups.Pairwise fun a b => xs.idxOf a < xs.idxOf b := by
  induction xs using List.reverseRecOn with
  | nil => exact .nil
  | append_singleton xs x ih =>
    have kept : xs.eraseDups.Pairwise fun a b => (xs ++ [x]).idxOf a < (xs ++ [x]).idxOf b := by
      refine ih.imp_of_mem fun ha hb less => ?_
      rwa [List.idxOf_append_of_mem (List.mem_eraseDups.mp ha),
        List.idxOf_append_of_mem (List.mem_eraseDups.mp hb)]
    rw [eraseDups_concat]
    split
    · exact kept
    · next new =>
      refine List.pairwise_append.mpr ⟨kept, List.pairwise_singleton _ x, ?_⟩
      intro a ha b hb
      obtain rfl := List.mem_singleton.mp hb
      have old : a ∈ xs := List.mem_eraseDups.mp ha
      calc (xs ++ [b]).idxOf a = xs.idxOf a := List.idxOf_append_of_mem old
        _ < xs.length := List.idxOf_lt_length_of_mem old
        _ ≤ (xs ++ [b]).idxOf b := by simp [List.idxOf_append_of_notMem new]

/-- The references are the proper names of the tree, each one once, in the order in which they first
occur: of the list of all names, depth first and from left to right, the empty ones are left out and
the first of equal ones is kept. Looking names up in a set beside the list gives the same. -/
theorem references_exact (f : Formula) :
    f.references.Nodup ∧
    (∀ name, name ∈ f.references ↔
      name ≠ "" ∧ ∃ path, f.subtree? path = some (.cell name)) ∧
    f.references.Pairwise
      (fun a b => f.properNames.idxOf a < f.properNames.idxOf b) ∧
    f.references = f.properNames.eraseDups ∧
    Gathered.walk ⟨∅, []⟩ f = ⟨f.references.toFinset, f.references⟩ := by
  have order := references_eq f ▸ pairwise_eraseDups f.properNames
  refine ⟨?_, ?_, order, references_eq f, Gathered.walk_of f []⟩
  · exact order.imp fun less same => absurd (same ▸ less) (Nat.lt_irrefl _)
  · intro name
    rw [mem_references, mem_cellNames_iff]

end CellFormula.Formula
