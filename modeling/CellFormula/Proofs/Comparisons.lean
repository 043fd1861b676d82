import CellFormula.Proofs.Losses

/-!
# The comparison that is found

A condition is cut at the first comparator in it, so what was written around another one may be cut
there. Only equality leaves a doubt: its sign is light, and the two spellings of it overlap.
-/

namespace CellFormula

namespace Scan

open Text Nesting

/-- What stands before the first equals sign does not end with one. -/
theorem findFrom_before {n : Nesting} {cs before rest : List Char}
    (h : findFrom ['='] n cs = some (before, rest)) (xs : List Char) : before ≠ xs ++ ['='] := by
  induction cs generalizing n before xs with
  | nil => cases h
  | cons c cs ih =>
    simp only [findFrom] at h
    split at h
    · cases h
      simp
    · next miss =>
      obtain ⟨⟨b, r⟩, found, same⟩ := Option.map_eq_some_iff.mp h
      cases same
      cases xs with
      | cons x xs =>
        rw [List.cons_append]
        intro same
        exact ih found xs (List.cons.inj same).2
      | nil =>
        rintro same
        obtain ⟨rfl, rfl⟩ := List.cons.inj same
        -- The sign found stands right after this one, at the same level.
        cases cs with
        | nil => cases found
        | cons d ds =>
          simp only [findFrom] at found
          split at found
          · next hit =>
            split at hit
            · next top =>
              obtain rfl : d = '=' := by
                by_contra ne
                simp [after?, Ne.symm ne] at hit
              rw [step_of_isPlain rfl] at top
              simp [top, after?] at miss
            · cases hit
          · obtain ⟨⟨_, _⟩, -, same⟩ := Option.map_eq_some_iff.mp found
            cases same

/-- Where no double equals sign is found, none begins at the single one found. -/
theorem findFrom_after {n : Nesting} {cs before rest : List Char}
    (none : findFrom ['=', '='] n cs = none) (h : findFrom ['='] n cs = some (before, rest))
    (xs : List Char) : rest ≠ '=' :: xs := by
  induction cs generalizing n before with
  | nil => cases h
  | cons c cs ih =>
    simp only [findFrom] at none h
    split at h
    · next r hit =>
      cases h
      split at hit
      · next top =>
        rintro rfl
        rw [after?_eq_some_iff] at hit
        rw [hit] at none
        simp [top, after?] at none
      · cases hit
    · split at none
      · cases none
      · obtain ⟨⟨b, r⟩, found, same⟩ := Option.map_eq_some_iff.mp h
        cases same
        exact ih (Option.map_eq_none_iff.mp none) found

/-- An equals sign at top level is found. -/
theorem findFrom_ne_none {n : Nesting} {before : List Char} (level : n.run before = start)
    (rest : List Char) : findFrom ['='] n (before ++ '=' :: rest) ≠ none := by
  induction before generalizing n with
  | nil =>
    have top : (n.step '=').isTopLevel = true := by
      rw [step_of_isPlain rfl]
      exact isTopLevel_iff.mpr level
    simp [findFrom, top, after?]
  | cons c before ih =>
    rw [List.cons_append, findFrom]
    dsimp only
    split
    · simp
    · rw [Ne, Option.map_eq_none_iff]
      exact ih level

end Scan

namespace Reading

open Text Scan Nesting Formula

/-- An equality is searched for in its longer spelling first. -/
theorem comparison?_equal {test left right : List Char}
    (h : comparison? test = some (.equal, left, right)) :
    findTopLevel ['=', '='] test = some (left, right) ∨
      findTopLevel ['=', '='] test = none ∧ findTopLevel ['='] test = some (left, right) := by
  let find := fun s : List Char × Comparator =>
    (findTopLevel s.1 test).map fun sides => (s.2, sides.1, sides.2)
  have skip : ∀ {symbol comparator more}, comparator ≠ .equal →
      ((symbol, comparator) :: more).findSome? find = some (.equal, left, right) →
        more.findSome? find = some (.equal, left, right) := by
    intro symbol comparator more other found
    rw [List.findSome?_cons] at found
    cases first : findTopLevel symbol test with
    | none => simpa [find, first] using found
    | some sides => simp [find, first, other] at found
  have double : List.findSome? find [(['=', '='], .equal), (['>'], .greaterThan),
      (['<'], .lessThan), (['='], .equal)] = some (.equal, left, right) :=
    skip (by decide) (skip (by decide) (skip (by decide) h))
  rw [List.findSome?_cons] at double
  cases first : findTopLevel ['=', '='] test with
  | some sides =>
    left
    simpa [find, first] using double
  | none =>
    right
    simp only [find, first, Option.map_none] at double
    have single := skip (by decide) (skip (by decide) double)
    rw [List.findSome?_cons] at single
    cases last : findTopLevel ['='] test with
    | some sides => exact ⟨rfl, by simpa [find, last] using single⟩
    | none => simp [find, last] at single

theorem comparison?_absent {test : List Char} (h : comparison? test = none) :
    findTopLevel ['='] test = none := by
  have each := List.findSome?_eq_none_iff.mp h ("=".toList, .equal) (by simp [Comparator.spellings])
  exact Option.map_eq_none_iff.mp each

/-- The symbol of an equality that was found, and what may not stand next to it. -/
theorem comparison?_equal_cases {test left right : List Char}
    (h : comparison? test = some (.equal, left, right)) :
    test = left ++ '=' :: '=' :: right ∨
      test = left ++ '=' :: right ∧ (∀ xs, left ≠ xs ++ ['=']) ∧ ∀ xs, right ≠ '=' :: xs := by
  rcases comparison?_equal h with found | ⟨none, found⟩
  · left
    simpa using eq_append_of_findFrom found
  · right
    exact ⟨by simpa using eq_append_of_findFrom found, findFrom_before found,
      findFrom_after none found⟩

section

variable {spelling : EqualitySpelling} {test left right left' right' : List Char}

/-- The equality that was written is found, unless a cut falls inside one of the sides. -/
theorem equality_aligned (h : comparison? test = some (.equal, left, right))
    (written : test = left' ++ spelling.write .equal ++ right')
    (short : ∀ xs, left' ≠ left ++ '=' :: xs) (late : ∀ xs, right' ≠ xs ++ '=' :: right) :
    left = left' ∧ right = right' := by
  have symbol : spelling.write .equal = ['='] ∨ spelling.write .equal = ['=', '='] := by
    cases spelling
    · exact .inl rfl
    · exact .inr rfl
  have late' : ∀ xs, right' ≠ xs ++ '=' :: '=' :: right := by
    intro xs same
    exact late (xs ++ ['=']) (by simpa using same)
  rcases comparison?_equal_cases h with found | ⟨found, before, after⟩
  · rcases symbol with single | double
    · rw [single, found] at written
      have written : left ++ '=' :: '=' :: right = left' ++ '=' :: right' := by simpa using written
      rcases append_cons_cases written with ⟨-, -, rest⟩ | ⟨ms, cut⟩ | ⟨ms, -, cut⟩
      · exact absurd rest.symm (late [])
      · exact absurd cut (short ms)
      · exact absurd cut (late' ms)
    · rw [double, found] at written
      have written : left ++ '=' :: '=' :: right = left' ++ '=' :: '=' :: right' := by
        simpa using written
      rcases append_cons_cases written with ⟨first, -, rest⟩ | ⟨ms, cut⟩ | ⟨ms, -, cut⟩
      · exact ⟨first, (List.cons.inj rest).2⟩
      · exact absurd cut (short ms)
      · cases ms with
        | nil => exact absurd (List.cons.inj cut).2 (late [])
        | cons c ms => exact absurd (List.cons.inj cut).2 (late' ms)
  · rcases symbol with single | double
    · rw [single, found] at written
      have written : left ++ '=' :: right = left' ++ '=' :: right' := by simpa using written
      rcases append_cons_cases written with ⟨first, -, rest⟩ | ⟨ms, cut⟩ | ⟨ms, -, cut⟩
      · exact ⟨first, rest⟩
      · exact absurd cut (short ms)
      · exact absurd cut (late ms)
    · rw [double, found] at written
      have written : left ++ '=' :: right = left' ++ '=' :: '=' :: right' := by
        simpa using written
      rcases append_cons_cases written with ⟨-, -, rest⟩ | ⟨ms, cut⟩ | ⟨ms, first, cut⟩
      · exact absurd rest (after right')
      · exact absurd cut (short ms)
      · cases ms with
        | nil => exact absurd first (before left')
        | cons c ms => exact absurd (List.cons.inj cut).2 (late ms)

/-- A comparison that was written is found, unless a cut falls inside one of the sides. -/
theorem comparison_aligned {comparator : Comparator}
    (h : comparison? test = some (comparator, left, right))
    (written : test = left' ++ spelling.write comparator ++ right')
    (weight_left : weight left = weight left') (short : ∀ xs, left' ≠ left ++ '=' :: xs)
    (late : ∀ xs, right' ≠ xs ++ '=' :: right) : left = left' ∧ right = right' := by
  by_cases equal : comparator = .equal
  · subst equal
    exact equality_aligned h written short late
  · obtain ⟨symbol, mem, found⟩ := comparison?_cases h
    have shape : symbol = spelling.write comparator ∧
        ∃ c cs, symbol = c :: cs ∧ isLight c = false := by
      simp only [Comparator.spellings, List.mem_cons, Prod.mk.injEq, List.not_mem_nil, or_false]
        at mem
      rcases mem with ⟨rfl, rfl⟩ | ⟨rfl, rfl⟩ | ⟨rfl, rfl⟩ | ⟨rfl, rfl⟩ | ⟨rfl, rfl⟩ |
        ⟨rfl, rfl⟩ | ⟨rfl, rfl⟩
      · exact ⟨rfl, '<', ['>'], rfl, rfl⟩
      · exact ⟨rfl, '>', ['='], rfl, rfl⟩
      · exact ⟨rfl, '<', ['='], rfl, rfl⟩
      · exact absurd rfl equal
      · exact ⟨rfl, '>', [], rfl, rfl⟩
      · exact ⟨rfl, '<', [], rfl, rfl⟩
      · exact absurd rfl equal
    obtain ⟨rfl, c, cs, shape, heavy⟩ := shape
    rw [eq_append_of_findFrom found, shape] at written
    have written : left ++ c :: (cs ++ right) = left' ++ c :: (cs ++ right') := by
      simpa using written
    obtain ⟨first, -, rest⟩ := append_heavy_inj heavy heavy weight_left written
    exact ⟨first, List.append_cancel_left rest⟩

/-- An equality with zero that was written is not overlooked in a text that ends at top level. -/
theorem comparison?_ne_none (level : start.run test = start)
    (written : test = left ++ spelling.write .equal ++ ['0']) : comparison? test ≠ none := by
  intro none
  have absent := comparison?_absent none
  have plain : ∀ c ∈ spelling.write .equal ++ ['0'], isPlain c = true := by
    rw [← List.all_eq_true]
    cases spelling <;> rfl
  rw [written, List.append_assoc] at absent level
  rw [run_append, run_of_isPlain plain] at level
  cases spelling with
  | single => exact findFrom_ne_none level ['0'] absent
  | double => exact findFrom_ne_none level ['=', '0'] absent

end

end Reading

end CellFormula
