import CellFormula.Proofs.LoadedTrees
import CellFormula.Proofs.Records

/-!
# Updates of records

The tree of a record is replaced in place, the metadata first and the tree after it, once the new
tree has been found valid. After any updates, failed ones among them, a record that was built has a
valid tree and the metadata of that tree. A record that was read has them from the first update that
succeeds; until then it stays as it was read.
-/

namespace CellFormula.Record

/-- Replaces the tree of a record in place. -/
def replaceTree (tree : Formula) : ExceptT Fault (StateM Record) Unit := do
  ExceptT.mk (pure tree.validate)
  modify fun r => { r with metadata := .of .single tree }
  modify fun r => { r with tree := tree }

/-- Replaces the tree by one tree after the other, whether or not an update fails. -/
def replaceTrees (trees : List Formula) : StateM Record (List (Except Fault Unit)) :=
  trees.mapM fun tree => (replaceTree tree).run

/-- The record that updates leave behind. -/
def after (trees : List Formula) (r : Record) : Record :=
  ((replaceTrees trees).run r).2

/-- The record with another tree and its metadata. -/
def withTree (r : Record) (tree : Formula) : Record :=
  { r with tree := tree, metadata := .of .single tree }

theorem updateTree_eq (r : Record) (tree : Formula) :
    r.updateTree tree = tree.validate.map fun _ => r.withTree tree := by
  cases h : tree.validate <;> simp [updateTree, h, withTree, bind, Except.bind, Except.map]

/-- An update fails with the fault of the tree, and then it has changed nothing. -/
theorem run_replaceTree (tree : Formula) (r : Record) : (replaceTree tree).run.run r =
    (tree.validate, if tree.validate = .ok () then r.withTree tree else r) := by
  cases h : tree.validate with
  | error fault =>
    simp only [replaceTree, h]
    rfl
  | ok _ =>
    simp only [replaceTree, h]
    rfl

/-- In place or not, an update gives the same record or the same fault. -/
theorem run_replaceTree_eq_updateTree (tree : Formula) (r : Record) :
    (replaceTree tree).run.run r = match r.updateTree tree with
      | .ok r' => (.ok (), r')
      | .error fault => (.error fault, r) := by
  rw [run_replaceTree, updateTree_eq]
  cases tree.validate <;> rfl

theorem run_replaceTrees_cons (tree : Formula) (trees : List Formula) (r : Record) :
    (replaceTrees (tree :: trees)).run r =
      (tree.validate :: ((replaceTrees trees).run ((replaceTree tree).run.run r).2).1,
        after trees ((replaceTree tree).run.run r).2) := by
  have answer : ((replaceTree tree).run.run r).1 = tree.validate := by rw [run_replaceTree]
  rw [← answer]
  simp only [replaceTrees, List.mapM_cons]
  rfl

theorem answers_replaceTrees (trees : List Formula) (r : Record) :
    ((replaceTrees trees).run r).1 = trees.map Formula.validate := by
  induction trees generalizing r with
  | nil => rfl
  | cons tree trees ih => rw [run_replaceTrees_cons, List.map_cons, ih]

theorem after_cons_of_valid {tree : Formula} (valid : tree.validate = .ok ())
    (trees : List Formula) (r : Record) :
    after (tree :: trees) r = after trees (r.withTree tree) := by
  rw [after, run_replaceTrees_cons, run_replaceTree, if_pos valid]

theorem after_cons_of_not_valid {tree : Formula} (invalid : tree.validate ≠ .ok ())
    (trees : List Formula) (r : Record) : after (tree :: trees) r = after trees r := by
  rw [after, run_replaceTrees_cons, run_replaceTree, if_neg invalid]

/-- What holds with every valid tree in place of the old one holds after any updates. -/
theorem invariant_after {p : Record → Prop}
    (step : ∀ r tree, tree.validate = .ok () → p r → p (r.withTree tree)) (trees : List Formula)
    {r : Record} (before : p r) : p (after trees r) := by
  induction trees generalizing r with
  | nil => exact before
  | cons tree trees ih =>
    by_cases valid : tree.validate = .ok ()
    · rw [after_cons_of_valid valid]
      exact ih (step r tree valid before)
    · rw [after_cons_of_not_valid valid]
      exact ih before

/-- The tree is valid, and the metadata are those of the tree. -/
structure Consistent (r : Record) : Prop where
  valid : r.tree.validate = .ok ()
  metadata : r.metadata = .of .single r.tree

theorem consistent_withTree (r : Record) {tree : Formula} (valid : tree.validate = .ok ()) :
    (r.withTree tree).Consistent :=
  ⟨valid, rfl⟩

theorem Consistent.after {r : Record} (h : r.Consistent) (trees : List Formula) :
    (after trees r).Consistent :=
  invariant_after (fun r _ valid _ => consistent_withTree r valid) trees h

theorem valid_after {r : Record} (h : r.tree.validate = .ok ()) (trees : List Formula) :
    (after trees r).tree.validate = .ok () :=
  invariant_after (p := fun r => r.tree.validate = .ok ()) (fun _ _ valid _ => valid) trees h

theorem labels_after (trees : List Formula) (r : Record) :
    (after trees r).name = r.name ∧ (after trees r).description = r.description :=
  invariant_after (p := fun s => s.name = r.name ∧ s.description = r.description)
    (fun _ _ _ kept => kept) trees ⟨rfl, rfl⟩

theorem after_eq_self {trees : List Formula} (h : ∀ tree ∈ trees, tree.validate ≠ .ok ())
    (r : Record) : after trees r = r := by
  induction trees with
  | nil => rfl
  | cons tree trees ih =>
    obtain ⟨first, rest⟩ := List.forall_mem_cons.mp h
    rw [after_cons_of_not_valid first, ih rest]

/-- One update that succeeds is enough, whatever the metadata were. -/
theorem consistent_after_of_exists {trees : List Formula}
    (h : ∃ tree ∈ trees, tree.validate = .ok ()) (r : Record) : (after trees r).Consistent := by
  induction trees with
  | nil => simp at h
  | cons tree trees ih =>
    by_cases valid : tree.validate = .ok ()
    · rw [after_cons_of_valid valid]
      exact (consistent_withTree r valid).after trees
    · rw [after_cons_of_not_valid valid]
      obtain ⟨other, mem, valid'⟩ := h
      rcases List.mem_cons.mp mem with rfl | mem
      · exact absurd valid' valid
      · exact ih ⟨other, mem, valid'⟩

/-- The record was built from a tree or from a formula. -/
def Built (name description : String) (r : Record) : Prop :=
  (∃ tree, ofTree name description tree = .ok r) ∨
    ∃ text options, ofFormula name description text options = .ok r

theorem built_from_tree {name description : String} {r : Record} (h : Built name description r) :
    r.name = name ∧ r.description = description ∧ r.Consistent := by
  obtain ⟨tree, made⟩ : ∃ tree, ofTree name description tree = .ok r := by
    rcases h with made | ⟨text, options, made⟩
    · exact made
    · exact ⟨_, made⟩
  obtain ⟨_, valid, eq⟩ := Reading.bind_eq_ok_iff.mp made
  cases eq
  exact ⟨rfl, rfl, valid, rfl⟩

theorem updateTree_ok_iff (r : Record) (tree : Formula) :
    (∃ r', r.updateTree tree = .ok r') ↔ tree.validate = .ok () := by
  rw [updateTree_eq]
  cases tree.validate with
  | error fault =>
    constructor
    · rintro ⟨r', made⟩
      cases made
    · intro valid
      cases valid
  | ok _ => exact ⟨fun _ => rfl, fun _ => ⟨_, rfl⟩⟩

theorem valid_of_read {text : String} {r : Record} (read : ofDocument text = .ok r) :
    r.tree.validate = .ok () := by
  obtain ⟨j, value, described⟩ := ofDocument_eq_ok_iff.mp read
  exact (valid_ofJson (Json.inRange_readAll value) described).1

/-- After any updates a record that was built is consistent and has the labels it was built with; a
record that was read has a valid tree and its labels, is unchanged if no update succeeded and
consistent if one did. Whatever the record, each update in place does what `updateTree` does and
fails exactly if the new tree is not valid, and one that fails leaves the record as it was. -/
theorem consistent_after_updates (trees : List Formula) :
    (∀ name description text known limit, known.Reachable →
      ∃ r, ofFormula name description text ⟨known, limit⟩ = .ok r) ∧
    (∀ name description r, Built name description r → (after trees r).Consistent ∧
      (after trees r).name = name ∧ (after trees r).description = description) ∧
    (∀ text r, ofDocument text = .ok r → (after trees r).tree.validate = .ok () ∧
      ((after trees r).name = r.name ∧ (after trees r).description = r.description) ∧
      ((∀ tree ∈ trees, tree.validate ≠ .ok ()) → after trees r = r) ∧
      ((∃ tree ∈ trees, tree.validate = .ok ()) → (after trees r).Consistent)) ∧
    ∀ r, ((replaceTrees trees).run r).1 = trees.map Formula.validate ∧
      ∀ next, ((∃ r', (after trees r).updateTree next = .ok r') ↔ next.validate = .ok ()) ∧
        (replaceTree next).run.run (after trees r) = match (after trees r).updateTree next with
          | .ok r' => (.ok (), r')
          | .error fault => (.error fault, after trees r) := by
  refine ⟨?_, ?_, ?_, ?_⟩
  · intro name description text known limit reachable
    exact exists_ofFormula name description text reachable limit
  · intro name description r built
    obtain ⟨rfl, rfl, consistent⟩ := built_from_tree built
    exact ⟨consistent.after trees, labels_after trees r⟩
  · intro text r read
    exact ⟨valid_after (valid_of_read read) trees, labels_after trees r,
      fun failed => after_eq_self failed r, fun succeeded => consistent_after_of_exists succeeded r⟩
  · intro r
    refine ⟨answers_replaceTrees trees r, fun next => ?_⟩
    exact ⟨updateTree_ok_iff _ next, run_replaceTree_eq_updateTree next _⟩

/-- An unnamed cell in a condition, and a number that is none in a lookup. -/
def faultyTrees : List Formula :=
  [.conditional .equal (.cell "") (.number .nan) (.cell "A1") (.cell "B1"),
    .lookup [.cell "A1", .number .nan]]

/-- The metadata belong to another tree. -/
def staleRecord : Record :=
  ⟨"net", "", .cell "A1", .of .single (.lookup [.cell "B1"])⟩

theorem consistent_after_updates_faultyTrees :
    (∃ r, ofFormula "net" "pay" "A1-B1" {} = .ok r ∧ (after faultyTrees r).Consistent ∧
      (after faultyTrees r).name = "net") ∧
    ofDocument staleRecord.toDocument = .ok staleRecord ∧ ¬ staleRecord.Consistent ∧
      ((replaceTrees faultyTrees).run staleRecord).1 =
        [.error .unnamedCell, .error (.notFinite .nan)] ∧
      after faultyTrees staleRecord = staleRecord ∧
      (after (faultyTrees ++ [.cell "C1"]) staleRecord).Consistent := by
  obtain ⟨exists_record, built, -⟩ := consistent_after_updates faultyTrees
  obtain ⟨r, made⟩ := exists_record "net" "pay" "A1-B1" .defaults 256 .defaults
  obtain ⟨consistent, name, -⟩ := built "net" "pay" r (.inr ⟨_, _, made⟩)
  have read : ofDocument staleRecord.toDocument = .ok staleRecord :=
    ofDocument_of_loadable trivial rfl ⟨by decide, trivial, by decide⟩
  have stale : ¬ staleRecord.Consistent := by
    intro h
    exact absurd h.metadata (by decide)
  obtain ⟨-, -, loaded, answers⟩ := consistent_after_updates faultyTrees
  have failed : ∀ tree ∈ faultyTrees, tree.validate ≠ .ok () := by decide
  obtain ⟨-, -, loaded', -⟩ := consistent_after_updates (faultyTrees ++ [.cell "C1"])
  have succeeded : ∃ tree ∈ faultyTrees ++ [.cell "C1"], tree.validate = .ok () := by decide
  exact ⟨⟨r, made, consistent, name⟩, read, stale, (answers staleRecord).1,
    (loaded _ _ read).2.2.1 failed, (loaded' _ _ read).2.2.2 succeeded⟩

end CellFormula.Record
