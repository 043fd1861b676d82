import CellFormula.Proofs.Image
import CellFormula.Proofs.References
import Mathlib.Data.List.DropRight

/-!
# Updates of registries

Names are added to a registry one by one or many at once, and all that were added can be forgotten
again. Whatever the order, the seeds stay, and after them stand the names offered since the last
time the added ones were forgotten: without the blanks at their ends, each where it first occurs,
and neither blank nor a seed.
-/

namespace CellFormula.Registry

open Text

/-- What changes a registry. -/
inductive Update where
  | add (name : String)
  | addAll (names : List String)
  | clearAdded
  deriving DecidableEq

def update (r : Registry) : Update → Registry
  | .add name => r.add name
  | .addAll names => r.addAll names
  | .clearAdded => r.clearAdded

def updateAll (r : Registry) (updates : List Update) : Registry :=
  updates.foldl update r

/-- The names that an update offers to the registry. -/
def Update.offers : Update → List String
  | .add name => [name]
  | .addAll names => names
  | .clearAdded => []

/-- The names offered since the added ones were last forgotten. -/
def offered (updates : List Update) : List String :=
  (updates.rtakeWhile (· ≠ .clearAdded)).flatMap Update.offers

/-- The name without the blanks at its ends. -/
def trimmed (name : String) : String :=
  String.ofList (trim name.toList)

/-- Of the names offered those that are kept beside the seeds, in the order of first occurrence. -/
def kept (seeds names : List String) : List String :=
  ((names.map trimmed).filter fun name => name ≠ "" ∧ name ∉ seeds).eraseDups

theorem mem_kept {seeds names : List String} {name : String} : name ∈ kept seeds names ↔
    name ≠ "" ∧ name ∉ seeds ∧ ∃ offer ∈ names, trimmed offer = name := by
  simp only [kept, List.mem_eraseDups, List.mem_filter, List.mem_map, decide_eq_true_eq]
  rw [and_comm, and_assoc]

theorem kept_concat (seeds names : List String) (name : String) : kept seeds (names ++ [name]) =
    if trimmed name = "" ∨ trimmed name ∈ seeds ++ kept seeds names then kept seeds names
    else kept seeds names ++ [trimmed name] := by
  rw [kept, List.map_append, List.filter_append, List.map_singleton]
  by_cases fresh : trimmed name ≠ "" ∧ trimmed name ∉ seeds
  · rw [List.filter_singleton, decide_eq_true fresh, cond_true, Formula.eraseDups_concat, kept]
    simp only [fresh.1, false_or, List.mem_append, fresh.2, List.mem_eraseDups]
  · rw [List.filter_singleton, decide_eq_false fresh, cond_false, List.append_nil, if_pos, kept]
    by_contra other
    simp only [List.mem_append, not_or] at other
    exact fresh ⟨other.1, other.2.1⟩

theorem isNew_iff {r : Registry} {name : String} :
    r.isNew name = true ↔ ¬ (trimmed name = "" ∨ trimmed name ∈ r.names) := by
  simp [isNew, contains, trimmed]

theorem add_eq (r : Registry) (name : String) : r.add name =
    if trimmed name = "" ∨ trimmed name ∈ r.names then r
    else ⟨r.seeded, r.added ++ [trimmed name]⟩ := by
  rw [add, ← ite_not]
  exact if_congr (not_iff_comm.mp isNew_iff.symm) rfl rfl

theorem size_mk_concat (r : Registry) (name : String) :
    (Registry.mk r.seeded (r.added ++ [name])).size = r.size + 1 := by
  simp [size, names, Nat.add_assoc]

/-- A name counts as new exactly if it makes the registry grow, by one. -/
theorem isNew_iff_size (r : Registry) (name : String) :
    r.isNew name = true ↔ (r.add name).size = r.size + 1 := by
  rw [isNew_iff, add_eq]
  split
  · next old => simp [old]
  · next new => simp [new, size_mk_concat]

theorem isNew_eq_false_iff (r : Registry) (name : String) :
    r.isNew name = false ↔ r.add name = r := by
  rw [← Bool.not_eq_true, isNew_iff, not_not, add_eq]
  split
  · next old => simp [old]
  · next new =>
    simp only [new, false_iff]
    intro same
    have grown := size_mk_concat r (trimmed name)
    rw [same] at grown
    omega

theorem contains_add_trimmed (r : Registry) {name : String} (proper : trimmed name ≠ "") :
    (r.add name).contains (trimmed name) = true := by
  rw [add_eq, contains, List.contains_iff_mem]
  split
  · next old => exact old.resolve_left proper
  · simp [names]

theorem suggest_empty (r : Registry) : r.suggest "" = r.names := by
  have all : ∀ cs, occursIn [] cs = true := by
    intro cs
    cases cs <;> rfl
  exact List.filter_eq_self.mpr fun name _ => all _

theorem classify_eq_added_iff {r : Registry} {name : String} :
    r.classify name = .added ↔ name ∈ r.added := by
  unfold classify
  dsimp only
  split
  · next added => simpa using added
  · next other =>
    have absent : name ∉ r.added := by simpa using other
    simp only [absent, iff_false]
    split
    · simp
    · split
      · simp
      · split <;> simp

theorem add_kept (seeds names : List String) (name : String) :
    (Registry.mk seeds (kept seeds names)).add name = ⟨seeds, kept seeds (names ++ [name])⟩ := by
  rw [add_eq, kept_concat]
  change (if trimmed name = "" ∨ trimmed name ∈ seeds ++ kept seeds names then _ else _) = _
  split <;> rfl

theorem addAll_kept (seeds names more : List String) :
    (Registry.mk seeds (kept seeds names)).addAll more = ⟨seeds, kept seeds (names ++ more)⟩ := by
  induction more generalizing names with
  | nil => rw [List.append_nil]; rfl
  | cons name more ih =>
    rw [addAll, List.foldl_cons, add_kept, ← addAll, ih, List.append_assoc, List.singleton_append]

theorem offered_concat (updates : List Update) (u : Update) : offered (updates ++ [u]) =
    if u = .clearAdded then [] else offered updates ++ u.offers := by
  rw [offered, List.rtakeWhile_concat]
  by_cases clear : u = .clearAdded
  · simp [clear]
  · simp [clear, offered]

/-- One more update keeps to the names on offer. -/
theorem update_kept (seeds : List String) (updates : List Update) (u : Update) :
    (Registry.mk seeds (kept seeds (offered updates))).update u =
      ⟨seeds, kept seeds (offered (updates ++ [u]))⟩ := by
  rw [offered_concat]
  cases u with
  | add name => exact add_kept seeds (offered updates) name
  | addAll names => exact addAll_kept seeds (offered updates) names
  | clearAdded => rfl

theorem updateAll_concat (r : Registry) (updates : List Update) (u : Update) :
    r.updateAll (updates ++ [u]) = (r.updateAll updates).update u := by
  rw [updateAll, List.foldl_append]
  rfl

theorem updateAll_eq (seeds : List String) (updates : List Update) :
    (Registry.mk seeds []).updateAll updates = ⟨seeds, kept seeds (offered updates)⟩ := by
  induction updates using List.reverseRecOn with
  | nil => rfl
  | append_singleton updates u ih => rw [updateAll_concat, ih, update_kept]

theorem Reachable.update {r : Registry} (h : r.Reachable) (u : Update) :
    (r.update u).Reachable := by
  cases u with
  | add name => exact .add h name
  | addAll names => exact .addAll h names
  | clearAdded => exact .clearAdded h

theorem Reachable.updateAll {r : Registry} (h : r.Reachable) (updates : List Update) :
    (r.updateAll updates).Reachable := by
  induction updates using List.reverseRecOn with
  | nil => exact h
  | append_singleton updates u ih =>
    rw [updateAll_concat]
    exact ih.update u

/-- Updates lead to the same registries as the operations one by one. -/
theorem reachable_iff {r : Registry} : r.Reachable ↔
    ∃ seed updates, (seed = .empty ∨ seed = .defaults) ∧ updateAll seed updates = r := by
  constructor
  · intro h
    have more : ∀ {r : Registry} (u : Update),
        (∃ seed updates, (seed = .empty ∨ seed = .defaults) ∧ updateAll seed updates = r) →
          ∃ seed updates, (seed = .empty ∨ seed = .defaults) ∧
            updateAll seed updates = r.update u := by
      rintro r u ⟨seed, updates, fresh, rfl⟩
      exact ⟨seed, updates ++ [u], fresh, updateAll_concat seed updates u⟩
    induction h with
    | empty => exact ⟨.empty, [], .inl rfl, rfl⟩
    | defaults => exact ⟨.defaults, [], .inr rfl, rfl⟩
    | add _ name ih =>
      have result := more (.add name) ih
      exact result
    | addAll _ names ih =>
      have result := more (.addAll names) ih
      exact result
    | clearAdded _ ih =>
      have result := more .clearAdded ih
      exact result
  · rintro ⟨seed, updates, rfl | rfl, rfl⟩
    · exact Reachable.empty.updateAll updates
    · exact Reachable.defaults.updateAll updates

/-- The names are proper ones, without blanks at their ends, and no two are the same. -/
structure Regular (names : List String) : Prop where
  named : ∀ name ∈ names, name ≠ "" ∧ Trimmed name.toList
  distinct : names.Nodup

theorem nodup_eraseDups (names : List String) : names.eraseDups.Nodup :=
  (Formula.pairwise_eraseDups names).imp fun less same => absurd (same ▸ less) (Nat.lt_irrefl _)

theorem Regular.append_kept {seeds : List String} (h : Regular seeds) (names : List String) :
    Regular (seeds ++ kept seeds names) where
  named name hname := by
    rcases List.mem_append.mp hname with old | new
    · exact h.named name old
    · obtain ⟨proper, -, offer, -, rfl⟩ := mem_kept.mp new
      rw [trimmed, String.toList_ofList]
      exact ⟨proper, trimmed_trim _⟩
  distinct := by
    refine List.nodup_append.mpr ⟨h.distinct, nodup_eraseDups _, ?_⟩
    rintro name seed _ new rfl
    exact (mem_kept.mp new).2.1 seed

instance (cs : List Char) : Decidable (Trimmed cs) :=
  decidable_of_iff (trim cs = cs) trimmed_iff.symm

theorem regular_defaultNames : Regular defaultNames :=
  ⟨by decide, by decide⟩

/-- After any updates of a registry with nothing added, its names are proper ones without blanks at
their ends, and no two are the same: first the seeds, then of the names offered since the added ones
were last forgotten those that are new. A name then counts as new exactly if adding it makes the
registry grow, and by one; else nothing changes. A name that is not blank is known once it was
added, every name is suggested where nothing is asked for, and the names labelled as added are those
that were, never a seed. -/
theorem registry_after_updates {seed : Registry} (fresh : seed = .empty ∨ seed = .defaults)
    (updates : List Update) :
    let r := seed.updateAll updates
    Regular r.names ∧
    r.seeded = seed.seeded ∧
    r.names = seed.seeded ++ kept seed.seeded (offered updates) ∧
    (∀ name, (r.isNew name = true ↔ (r.add name).size = r.size + 1) ∧
      (r.isNew name = false ↔ r.add name = r) ∧
      (trimmed name ≠ "" → (r.add name).contains (trimmed name) = true)) ∧
    r.suggest "" = r.names ∧
    (∀ name, r.classify name = .added ↔ name ∈ r.added) ∧
    ∀ name ∈ seed.seeded, r.classify name ≠ .added := by
  obtain ⟨regular, bare⟩ : Regular seed.seeded ∧ seed = ⟨seed.seeded, []⟩ := by
    rcases fresh with rfl | rfl
    · exact ⟨⟨by simp [empty], by simp [empty]⟩, rfl⟩
    · exact ⟨regular_defaultNames, rfl⟩
  have result := updateAll_eq seed.seeded updates
  rw [← bare] at result
  intro r
  have whole : r.names = seed.seeded ++ kept seed.seeded (offered updates) := congrArg names result
  have added : r.added = kept seed.seeded (offered updates) := congrArg Registry.added result
  refine ⟨?_, (congrArg Registry.seeded result :), whole, ?_, suggest_empty r,
    fun name => classify_eq_added_iff, ?_⟩
  · rw [whole]
    exact regular.append_kept (offered updates)
  · intro name
    exact ⟨isNew_iff_size r name, isNew_eq_false_iff r name, contains_add_trimmed r⟩
  · intro name isSeed
    rw [Ne, classify_eq_added_iff, added, mem_kept]
    exact fun new => new.2.1 isSeed

/-- Names with other blanks than spaces, some of them known or offered twice, before and after the
added ones are forgotten. -/
def payUpdates : List Update :=
  [.add "\u3000OT2.5 ", .addAll ["net pay", "A1"], .clearAdded,
    .addAll [" net pay\u0085", "\u2003", "[1000]\t", "B2", "net pay"], .add "B2 "]

theorem registry_after_updates_payUpdates :
    (Registry.defaults = .empty ∨ Registry.defaults = .defaults) ∧
    (Registry.defaults.updateAll payUpdates).names = defaultNames ++ ["net pay", "B2"] ∧
    (Registry.defaults.updateAll payUpdates).isNew "OT2.5" = true ∧
    (Registry.defaults.updateAll payUpdates).classify "B2" = .added ∧
    (Registry.defaults.updateAll payUpdates).classify "[1000]" ≠ .added := by
  have fresh : Registry.defaults = .empty ∨ Registry.defaults = .defaults := .inr rfl
  obtain ⟨-, -, whole, each, -, added, seeds⟩ := registry_after_updates fresh payUpdates
  have names : kept Registry.defaults.seeded (offered payUpdates) = ["net pay", "B2"] := by decide
  refine ⟨fresh, ?_, ?_, ?_, ?_⟩
  · rw [whole, names]
    rfl
  · rw [(each "OT2.5").1]
    decide
  · exact (added "B2").mpr (by decide)
  · exact seeds "[1000]" (by decide)

end CellFormula.Registry
