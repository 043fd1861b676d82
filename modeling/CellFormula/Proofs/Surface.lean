import CellFormula.Scan.Split

/-!
# The surface of a text

The surface of a text is what of it stands at top level. Cuts look at nothing else: a stretch of
text whose surface lacks the separator, the first character of the symbol or the operators goes
whole into one piece.
-/

namespace CellFormula

namespace Nesting

theorem isTopLevel_iff {n : Nesting} : n.isTopLevel = true ↔ n = start := by
  obtain ⟨p, b, q⟩ := n
  cases q <;> simp [isTopLevel, start]

/-- A character that is neither a quote nor a delimiter leaves the nesting as it is. -/
def isPlain (c : Char) : Bool :=
  !isQuote c && c != '(' && c != ')' && c != '[' && c != ']'

theorem step_of_isPlain {c : Char} (h : isPlain c = true) (n : Nesting) : n.step c = n := by
  simp only [isPlain, Bool.and_eq_true, Bool.not_eq_true', bne_iff_ne, ne_eq] at h
  obtain ⟨⟨⟨⟨hq, ho⟩, hc⟩, hl⟩, hr⟩ := h
  simp [step, hq, ho, hc, hl, hr]

theorem run_of_isPlain {cs : List Char} (h : ∀ c ∈ cs, isPlain c = true) (n : Nesting) :
    n.run cs = n := by
  induction cs with
  | nil => rfl
  | cons c cs ih =>
    rw [run_cons, step_of_isPlain (h c List.mem_cons_self)]
    exact ih fun d hd => h d (List.mem_cons_of_mem c hd)

/-- The characters at top level in a text that follows the nesting `n`. -/
def surface (n : Nesting) : List Char → List Char
  | [] => []
  | c :: cs =>
    if (n.step c).isTopLevel then c :: (n.step c).surface cs else (n.step c).surface cs

theorem surface_cons (n : Nesting) (c : Char) (cs : List Char) :
    n.surface (c :: cs) =
      if (n.step c).isTopLevel then c :: (n.step c).surface cs else (n.step c).surface cs :=
  rfl

theorem surface_append (n : Nesting) (xs ys : List Char) :
    n.surface (xs ++ ys) = n.surface xs ++ (n.run xs).surface ys := by
  induction xs generalizing n with
  | nil => rfl
  | cons c xs ih =>
    rw [List.cons_append, surface_cons, surface_cons, run_cons, ih]
    split <;> rfl

theorem surface_subset (n : Nesting) (cs : List Char) : n.surface cs ⊆ cs := by
  induction cs generalizing n with
  | nil => exact List.Subset.refl _
  | cons c cs ih =>
    rw [surface_cons]
    split
    · exact List.cons_subset_cons c (ih _)
    · exact List.subset_cons_of_subset c (ih _)

theorem mem_surface_cons {n : Nesting} {c d : Char} {cs : List Char}
    (h : d ∈ (n.step c).surface cs) : d ∈ n.surface (c :: cs) := by
  rw [surface_cons]
  split
  · exact List.mem_cons_of_mem c h
  · exact h

theorem surface_cons_of_isTopLevel {n : Nesting} {c : Char} {cs : List Char}
    (h : (n.step c).isTopLevel = true) : n.surface (c :: cs) = c :: start.surface cs := by
  rw [surface_cons, if_pos h, isTopLevel_iff.mp h]

end Nesting

namespace Scan

open Text Nesting

def isOperator (c : Char) : Bool :=
  (Operator.ofChar? c).isSome

theorem ofChar?_eq_none {c : Char} (h : isOperator c = false) : Operator.ofChar? c = none := by
  simpa [isOperator] using h

theorem hasTopLevelOperator_eq (cs : List Char) :
    hasTopLevelOperator cs = (start.surface cs).any isOperator := by
  rw [hasTopLevelOperator]
  generalize start = n
  induction cs generalizing n with
  | nil => rfl
  | cons c cs ih =>
    rw [scan, List.any_cons, ih, surface_cons]
    by_cases top : (n.step c).isTopLevel = true
    · simp [top, isOperator]
    · simp [top]

theorem rawPieces_append {separator : Char} {n : Nesting} {xs ys p : List Char}
    {ps : List (List Char)} (h : separator ∉ n.surface xs)
    (hp : rawPieces separator (n.run xs) ys = p :: ps) :
    rawPieces separator n (xs ++ ys) = (xs ++ p) :: ps := by
  induction xs generalizing n with
  | nil => exact hp
  | cons c xs ih =>
    have tail := ih (fun mem => h (mem_surface_cons mem)) hp
    have here : ¬ (c = separator ∧ (n.step c).isTopLevel = true) := by
      rintro ⟨rfl, top⟩
      apply h
      rw [surface_cons, if_pos top]
      exact List.mem_cons_self
    simp only [List.cons_append, rawPieces, if_neg here, tail]

theorem rawPieces_eq_singleton {separator : Char} {n : Nesting} {xs : List Char}
    (h : separator ∉ n.surface xs) : rawPieces separator n xs = [xs] := by
  simpa using rawPieces_append h (show rawPieces separator (n.run xs) [] = [[]] from rfl)

theorem findFrom_append {a : Char} {needle : List Char} {n : Nesting} {xs : List Char}
    (h : a ∉ n.surface xs) (ys : List Char) :
    findFrom (a :: needle) n (xs ++ ys) =
      (findFrom (a :: needle) (n.run xs) ys).map fun (before, rest) => (xs ++ before, rest) := by
  induction xs generalizing n with
  | nil => simp
  | cons c xs ih =>
    have miss : (if (n.step c).isTopLevel then after? (a :: needle) (c :: (xs ++ ys)) else none)
        = none := by
      split
      · next top =>
        have : a ≠ c := by
          rintro rfl
          apply h
          rw [surface_cons, if_pos top]
          exact List.mem_cons_self
        simp [after?, this]
      · rfl
    simp only [List.cons_append, findFrom, miss, ih (fun mem => h (mem_surface_cons mem)),
      run_cons, Option.map_map]
    rfl

theorem rawSegments_append {n : Nesting} {xs : List Char}
    (h : ∀ c ∈ n.surface xs, isOperator c = false) (blank : Bool) (ys : List Char) :
    rawSegments n blank (xs ++ ys) =
      (xs ++ (rawSegments (n.run xs) (blank && xs.all isBlank) ys).1,
        (rawSegments (n.run xs) (blank && xs.all isBlank) ys).2) := by
  induction xs generalizing n blank with
  | nil => simp
  | cons c xs ih =>
    have miss : (if (n.step c).isTopLevel && !blank then Operator.ofChar? c else none) = none := by
      split
      · next top =>
        apply ofChar?_eq_none
        apply h
        rw [surface_cons, if_pos (Bool.and_eq_true_iff.mp top).1]
        exact List.mem_cons_self
      · rfl
    simp only [List.cons_append, rawSegments, miss,
      ih (fun d mem => h d (mem_surface_cons mem)), run_cons, List.all_cons, Bool.and_assoc]

end Scan

end CellFormula
