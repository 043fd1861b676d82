import CellFormula.Proofs.NormalForm
import CellFormula.Proofs.Outline

/-!
# Levels of nesting

A reader that is given more and more levels runs out of them up to some threshold and gives one
fixed answer from there on. The threshold exists because every text inside is shorter than the text
around it, and the limit itself is mentioned only by the error it causes.
-/

namespace CellFormula

namespace Formula

mutual

/-- The number of nodes on a longest path from the root. -/
def height : Formula → Nat
  | .chain operands _ => 1 + heightList operands
  | .conditional _ left right whenTrue whenFalse =>
    1 + max (max left.height right.height) (max whenTrue.height whenFalse.height)
  | .call _ arguments => 1 + heightList arguments
  | _ => 1

def heightList : List Formula → Nat
  | [] => 0
  | x :: xs => max x.height (heightList xs)

end

theorem one_le_height (f : Formula) : 1 ≤ f.height := by
  cases f <;> simp [height]

theorem heightList_le_iff {fs : List Formula} {n : Nat} :
    heightList fs ≤ n ↔ ∀ f ∈ fs, f.height ≤ n :=
  greatest_le_iff rfl fun _ _ => rfl

end Formula

namespace Reading

open Text Scan

/-- An answer that more levels would not change. -/
def Final {α : Type} (r : Except ReadingError α) : Prop :=
  ∀ e, r = .error e → e.isOfText = true

/-- Under any limit, fewer than `k` levels are too few, and from `k` levels on the answer is `r`. -/
structure Settles {α : Type} (g : Nat → Nat → Except ReadingError α) (k : Nat)
    (r : Except ReadingError α) : Prop where
  final : Final r
  below : ∀ limit levels, levels < k → g limit levels = .error (.nestingTooDeep limit)
  above : ∀ limit levels, k ≤ levels → g limit levels = r

/-- The threshold is at most `b`. -/
def SettlesBy {α : Type} (b : Nat) (g : Nat → Nat → Except ReadingError α) : Prop :=
  ∃ k r, k ≤ b ∧ Settles g k r

section

variable {α β : Type} {g : Nat → Nat → Except ReadingError α}
  {h : Nat → Nat → α → Except ReadingError β} {b : Nat}

theorem SettlesBy.mono {b' : Nat} (hg : SettlesBy b g) (le : b ≤ b') : SettlesBy b' g := by
  obtain ⟨k, r, hk, hr⟩ := hg
  exact ⟨k, r, Nat.le_trans hk le, hr⟩

theorem SettlesBy.const {r : Except ReadingError α} (final : Final r) :
    SettlesBy b fun _ _ => r :=
  ⟨0, r, Nat.zero_le b, final, fun _ _ h => absurd h (Nat.not_lt_zero _), fun _ _ _ => rfl⟩

theorem Settles.bind_error {k : Nat} {e : ReadingError} (hg : Settles g k (.error e)) :
    Settles (fun limit levels => g limit levels >>= h limit levels) k (.error e) where
  final _ he := hg.final _ (by cases he; rfl)
  below limit levels lt := by
    rw [hg.below limit levels lt]
    rfl
  above limit levels le := by
    rw [hg.above limit levels le]
    rfl

/-- Whichever part needs more levels sets the threshold; what comes first fails first. -/
theorem Settles.bind_ok {k k' : Nat} {a : α} {r : Except ReadingError β}
    (hg : Settles g k (.ok a)) (hh : Settles (fun limit levels => h limit levels a) k' r) :
    Settles (fun limit levels => g limit levels >>= h limit levels) (max k k') r where
  final := hh.final
  below limit levels lt := by
    by_cases low : levels < k
    · rw [hg.below limit levels low]
      rfl
    · rw [hg.above limit levels (by omega)]
      exact hh.below limit levels (by omega)
  above limit levels le := by
    rw [hg.above limit levels (by omega)]
    exact hh.above limit levels (by omega)

theorem SettlesBy.bind (hg : SettlesBy b g)
    (hh : ∀ a, SettlesBy b fun limit levels => h limit levels a) :
    SettlesBy b fun limit levels => g limit levels >>= h limit levels := by
  obtain ⟨k, r, hk, hr⟩ := hg
  cases r with
  | error e => exact ⟨k, .error e, hk, hr.bind_error⟩
  | ok a =>
    obtain ⟨k', r', hk', hr'⟩ := hh a
    exact ⟨max k k', r', by omega, hr.bind_ok hr'⟩

end

section

variable {inner : Nat → Nat → Reader} {b : Nat}

theorem SettlesBy.mapM {texts : List (List Char)}
    (ht : ∀ t ∈ texts, SettlesBy b fun limit levels => inner limit levels t) :
    SettlesBy b fun limit levels => texts.mapM (inner limit levels) := by
  induction texts with
  | nil => exact .const (fun _ h => by cases h)
  | cons t texts ih =>
    simp only [List.mapM_cons]
    apply (ht t List.mem_cons_self).bind
    intro f
    apply (ih fun u hu => ht u (List.mem_cons_of_mem t hu)).bind
    intro fs
    exact .const (fun _ h => by cases h)

theorem SettlesBy.read {o : Outline}
    (ho : ∀ t ∈ o.parts, SettlesBy b fun limit levels => inner limit levels t)
    (refused : ∀ e, o = .refused e → e.isOfText = true) :
    SettlesBy b fun limit levels => o.read (inner limit levels) := by
  cases o with
  | leaf f => exact .const (fun _ h => by cases h)
  | refused e =>
    apply SettlesBy.const
    intro _ h
    cases h
    exact refused e rfl
  | inside text => exact ho text List.mem_cons_self
  | chain operands operators =>
    apply (SettlesBy.mapM ho).bind
    intro fs
    exact .const (fun _ h => by cases h)
  | conditional comparator left right whenTrue whenFalse =>
    cases right with
    | none =>
      apply (ho left (by simp [Outline.parts])).bind
      intro l
      apply (ho whenTrue (by simp [Outline.parts])).bind
      intro t
      apply (ho whenFalse (by simp [Outline.parts])).bind
      intro f
      exact .const (fun _ h => by cases h)
    | some right =>
      apply (ho left (by simp [Outline.parts])).bind
      intro l
      apply (ho right (by simp [Outline.parts])).bind
      intro r
      apply (ho whenTrue (by simp [Outline.parts])).bind
      intro t
      apply (ho whenFalse (by simp [Outline.parts])).bind
      intro f
      exact .const (fun _ h => by cases h)
  | lookup arguments =>
    apply (SettlesBy.mapM ho).bind
    intro fs
    exact .const (fun _ h => by cases h)

end

/-- A text takes one level more than the texts inside it. -/
theorem settles_of_parts {known : Registry} {cs : List Char} {k : Nat}
    {r : Except ReadingError Formula} (h : Settles (fun limit levels =>
      (outline known (trim cs)).read (expression ⟨known, limit⟩ levels)) k r) :
    Settles (fun limit levels => expression ⟨known, limit⟩ levels cs) (k + 1) r := by
  have unfolds : ∀ limit levels, expression ⟨known, limit⟩ (levels + 1) cs =
      (outline known (trim cs)).read (expression ⟨known, limit⟩ levels) :=
    fun limit levels => rules_eq_read known _ _
  refine ⟨h.final, ?_, ?_⟩
  · intro limit levels low
    cases levels with
    | zero => rfl
    | succ levels =>
      rw [unfolds]
      exact h.below limit levels (by omega)
  · intro limit levels enough
    obtain ⟨m, rfl⟩ : ∃ m, levels = m + 1 := ⟨levels - 1, by omega⟩
    rw [unfolds]
    exact h.above limit m (by omega)

theorem expression_settles (known : Registry) (cs : List Char) :
    SettlesBy (byteLength cs + 1) fun limit levels => expression ⟨known, limit⟩ levels cs := by
  induction hn : byteLength cs using Nat.strongRecOn generalizing cs with
  | ind n ih =>
    have inside : ∀ t ∈ (outline known (trim cs)).parts,
        SettlesBy n fun limit levels => expression ⟨known, limit⟩ levels t := by
      intro t ht
      have shorter := byteLength_lt_of_mem_parts ht
      have := byteLength_trim_le cs
      exact (ih (byteLength t) (by omega) t rfl).mono (by omega)
    obtain ⟨k, r, hk, settled⟩ := SettlesBy.read inside fun e he => isOfText_of_refused he
    exact ⟨k + 1, r, by omega, settles_of_parts settled⟩

/-- Each level read adds at most one to the height of a tree. -/
theorem height_le_of_expression {options : ParseOptions} {levels : Nat} {cs : List Char}
    {f : Formula} (h : expression options levels cs = .ok f) : f.height ≤ levels := by
  refine expression_induction (fun levels cs fs f build parts => ?_) h
  have below : ∀ g ∈ fs, g.height ≤ levels := forall_right_of_forall₂ parts fun _ _ le => le
  generalize ho : outline options.known (trim cs) = o at build
  cases build with
  | leaf =>
    obtain ⟨_, rfl⟩ | ⟨_, _, rfl⟩ | rfl := outline_leaf_cases ho
    all_goals simp [Formula.height, cellNamed]
  | inside => exact Nat.le_succ_of_le (below f List.mem_cons_self)
  | chain =>
    have := Formula.heightList_le_iff.mpr below
    rw [Formula.height]
    omega
  | lookup =>
    have := Formula.heightList_le_iff.mpr below
    rw [Formula.lookup, Formula.height]
    omega
  | comparison comparator left right whenTrue whenFalse l r t f =>
    simp only [List.forall_mem_cons] at below
    rw [Formula.height]
    omega
  | bare comparator left whenTrue whenFalse l t f =>
    simp only [List.forall_mem_cons] at below
    have : (Formula.number (.zero false)).height = 1 := rfl
    have : 1 ≤ t.height := t.one_le_height
    rw [Formula.height]
    omega

theorem Settles.one_le {known : Registry} {cs : List Char} {k : Nat}
    {r : Except ReadingError Formula}
    (h : Settles (fun limit levels => expression ⟨known, limit⟩ levels cs) k r) : 1 ≤ k := by
  cases k with
  | zero =>
    have tooDeep : Except.error (.nestingTooDeep 0) = r := h.above 0 0 (Nat.le_refl 0)
    cases h.final _ tooDeep.symm
  | succ k => omega

theorem Settles.height_le {known : Registry} {cs : List Char} {k : Nat} {f : Formula}
    (h : Settles (fun limit levels => expression ⟨known, limit⟩ levels cs) k (.ok f)) :
    f.height ≤ k :=
  height_le_of_expression (h.above 0 k (Nat.le_refl k))

/-- The limit decides only whether a text is read: below some threshold it is too deep, and from
there on one answer is given, a tree no higher than the threshold or an error of the text. -/
theorem parseStrict_threshold (known : Registry) (text : String) :
    ∃ k r, 1 ≤ k ∧ k ≤ byteLength (strip text.toList) + 1 ∧
      (∀ e, r = .error e → e.isOfText = true) ∧
      (∀ n, Formula.parseStrict ⟨known, n⟩ text =
        if n < k then .error (.nestingTooDeep n) else r) ∧
      ∀ f, r = .ok f → f.height ≤ k := by
  obtain ⟨k, r, hk, settled⟩ := expression_settles known (strip text.toList)
  refine ⟨k, r, settled.one_le, hk, settled.final, ?_, ?_⟩
  · intro n
    by_cases low : n < k
    · rw [if_pos low]
      exact settled.below n n low
    · rw [if_neg low]
      exact settled.above n n (Nat.le_of_not_lt low)
  · rintro f rfl
    exact settled.height_le

end Reading

end CellFormula
