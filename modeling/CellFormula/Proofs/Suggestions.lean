import CellFormula.Proofs.LowerCase
import CellFormula.Proofs.RegistryUpdates

/-!
# Suggestions

A registry suggests the names whose lower-case form contains that of the query. So a longer query
narrows the suggestions if and only if its lower-case form contains that of the shorter one, and a
query suggests every name that contains it if and only if it is settled: a capital sigma at its edge
may have another form in the name.
-/

namespace CellFormula.Registry

open Text

theorem occursIn_iff {needle cs : List Char} : occursIn needle cs = true ↔ needle <:+: cs := by
  induction cs with
  | nil => simp [occursIn, List.isEmpty_iff]
  | cons c cs ih =>
    have first : (after? needle (c :: cs)).isSome = true ↔ needle <+: c :: cs := by
      rw [Option.isSome_iff_exists]
      exact exists_congr fun rest => after?_eq_some_iff.trans eq_comm
    rw [occursIn, Bool.or_eq_true, first, ih, List.infix_cons_iff]

theorem mem_suggest {r : Registry} {query name : String} : name ∈ r.suggest query ↔
    name ∈ r.names ∧ lower query.toList <:+: lower name.toList := by
  rw [suggest, List.mem_filter, occursIn_iff]

/-- A query whose lower-case form contains that of another one suggests less, in the same order. -/
theorem suggest_sublist {q q' : String} (h : lower q.toList <:+: lower q'.toList) (r : Registry) :
    (r.suggest q').Sublist (r.suggest q) := by
  apply List.monotone_filter_right
  intro name found
  rw [occursIn_iff] at found ⊢
  exact h.trans found

/-- Every text between two characters that are not blank can be made known. -/
theorem mem_names_add_between {c d : Char} (hc : isBlank c = false) (hd : isBlank d = false)
    (cs : List Char) :
    String.ofList (c :: cs ++ [d]) ∈ (empty.add (String.ofList (c :: cs ++ [d]))).names := by
  have same : trimmed (String.ofList (c :: cs ++ [d])) = String.ofList (c :: cs ++ [d]) := by
    rw [trimmed, String.toList_ofList, (trimmed_ends hc hd cs).trim_eq]
  have proper : trimmed (String.ofList (c :: cs ++ [d])) ≠ "" := by
    rw [same, Ne, String.ofList_eq_empty_iff]
    simp
  have known := contains_add_trimmed empty proper
  rwa [same, contains, List.contains_iff_mem] at known

/-- What occurs between two equal characters occurs there without them, or begins or ends with
one. -/
theorem infix_of_infix_between {c : Char} {xs cs : List Char} (h : xs <:+: c :: cs ++ [c]) :
    xs <:+: cs ∨ xs.head? = some c ∨ xs.getLast? = some c := by
  obtain ⟨before, after, whole⟩ := h
  rcases before with _ | ⟨b, before⟩
  · cases xs with
    | nil => exact .inl List.nil_infix
    | cons x xs =>
      obtain ⟨rfl, -⟩ := List.cons.inj whole
      exact .inr (.inl rfl)
  · rcases List.eq_nil_or_concat' after with rfl | ⟨after, a, rfl⟩
    · rcases List.eq_nil_or_concat' xs with rfl | ⟨xs, x, rfl⟩
      · exact .inl List.nil_infix
      · rw [List.append_nil, ← List.append_assoc] at whole
        obtain ⟨-, last⟩ := List.append_inj' whole rfl
        obtain rfl := List.singleton_inj.mp last
        exact .inr (.inr (by simp))
    · rw [← List.append_assoc] at whole
      obtain ⟨start, -⟩ := List.append_inj' whole rfl
      exact .inl ⟨before, after, (List.cons.inj start).2⟩

section

variable {q q' : String} (h : ∀ r : Registry, r.Reachable → (r.suggest q').Sublist (r.suggest q))

include h

/-- A name that holds the longer query between two characters without case is suggested for it. -/
theorem infix_between_of_narrows {c : Char} (dark : isBlank c = false) (caseless : IsCaseless c) :
    lower q.toList <:+: c :: lower q'.toList ++ [c] := by
  have known := mem_names_add_between dark dark q'.toList
  have form : lower (String.ofList (c :: q'.toList ++ [c])).toList =
      c :: lower q'.toList ++ [c] := by
    rw [String.toList_ofList, lower_between_caseless caseless]
  have inside : lower q'.toList <:+: lower (String.ofList (c :: q'.toList ++ [c])).toList :=
    form ▸ ⟨[c], [c], rfl⟩
  have kept := (h _ (.add .empty _)).subset (mem_suggest.mpr ⟨known, inside⟩)
  rw [← form]
  exact (mem_suggest.mp kept).2

/-- Suggestions narrow in every registry only if the lower-case form of the longer query contains
that of the shorter one. Names that hold the longer query between digits show it, three of them
since the shorter one may itself begin and end with digits. -/
theorem infix_lower_of_narrows : lower q.toList <:+: lower q'.toList := by
  have around := @infix_between_of_narrows q q' h
  have zero := infix_of_infix_between (around (c := '0') (by decide) (by decide +kernel))
  have one := infix_of_infix_between (around (c := '1') (by decide) (by decide +kernel))
  have two := infix_of_infix_between (around (c := '2') (by decide) (by decide +kernel))
  grind

end

/-- A query that is not settled misses a name that contains it. -/
theorem settled_of_suggests {q : String}
    (h : ∀ r : Registry, r.Reachable → ∀ name ∈ r.names, q.toList <:+: name.toList →
      name ∈ r.suggest q) : Settled q.toList := by
  intro before after split opened
  obtain ⟨c, d, hc, hd, lost⟩ := exists_not_infix_lower opened
  rw [← split] at lost
  have known := mem_names_add_between hc hd q.toList
  have inside : q.toList <:+: (String.ofList (c :: q.toList ++ [d])).toList := by
    rw [String.toList_ofList]
    exact ⟨[c], [d], rfl⟩
  have found := (mem_suggest.mp (h _ (.add .empty _) _ known inside)).2
  rw [String.toList_ofList] at found
  exact lost found

/-- From one query to another the suggestions of all registries narrow if and only if the lower-case
form of the second contains that of the first. They narrow to every longer query, and every name
that contains the query is suggested, if and only if the query decides the form of each of its
capital sigmas. -/
theorem suggest_narrows_iff (q : String) :
    (∀ q' : String, (∀ r : Registry, r.Reachable → (r.suggest q').Sublist (r.suggest q)) ↔
      lower q.toList <:+: lower q'.toList) ∧
    ((∀ q' : String, q.toList <:+: q'.toList →
      ∀ r : Registry, r.Reachable → (r.suggest q').Sublist (r.suggest q)) ↔ Settled q.toList) ∧
    ((∀ r : Registry, r.Reachable → ∀ name ∈ r.names, q.toList <:+: name.toList →
      name ∈ r.suggest q) ↔ Settled q.toList) := by
  refine ⟨?_, ?_, ?_⟩
  · intro q'
    exact ⟨infix_lower_of_narrows, fun h r _ => suggest_sublist h r⟩
  · constructor
    · intro h
      rw [← infix_lower_iff_settled]
      intro cs inside
      have narrows := infix_lower_of_narrows (h (String.ofList cs) (by simpa using inside))
      simpa using narrows
    · exact fun h q' inside r _ => suggest_sublist (infix_lower_of_settled h inside) r
  · constructor
    · exact settled_of_suggests
    · exact fun h r _ name known inside => mem_suggest.mpr ⟨known, infix_lower_of_settled h inside⟩

/-- A capital sigma at the end of the query is final there, but not in the name that goes on. -/
theorem suggest_loses_sigma :
    (Registry.empty.add "ΑΣΑ").Reachable ∧ "ΑΣ".toList <:+: "ΑΣΑ".toList ∧
    "ΑΣΑ" ∈ (Registry.empty.add "ΑΣΑ").names ∧
    "ΑΣΑ" ∉ (Registry.empty.add "ΑΣΑ").suggest "ΑΣ" ∧
    ¬ ((Registry.empty.add "ΑΣΑ").suggest "ΑΣΑ").Sublist
      ((Registry.empty.add "ΑΣΑ").suggest "ΑΣ") := by
  refine ⟨.add .empty _, ⟨[], ['Α'], rfl⟩, by decide, ?_, ?_⟩
  · decide +kernel
  · decide +kernel

end CellFormula.Registry
