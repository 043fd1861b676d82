import CellFormula.Proofs.Compact
import CellFormula.Proofs.Levels
import CellFormula.Proofs.NormalForm

/-!
# Reading the text of a tree

If the text of every node is cut into the texts of its children, the text of the tree reads as the
normal form. A chain that begins with a call is cut as that call alone. The levels this takes are
known exactly unless there is such a chain.
-/

namespace CellFormula

namespace Reading

open Text Scan Formula

/-- The text of the node is outlined as the texts of its children; a chain that begins with a call,
as that call. -/
def Outlined (known : Registry) (spelling : EqualitySpelling) : Formula → Prop
  | .chain [] _ => False
  | .chain (x :: xs) operators =>
    let interior := writeChain spelling (operators.toList (xs.length + 1)) (x :: xs)
    operators.Fits (xs.length + 1) ∧ outline known ('(' :: interior ++ [')']) = .inside interior ∧
      outline known interior = if x.isCall then outline known (x.write spelling) else
        .chain ((x :: xs).map (write spelling)) (operators.toList (xs.length + 1))
  | .conditional comparator left right whenTrue whenFalse =>
    outline known ((Formula.conditional comparator left right whenTrue whenFalse).write spelling) =
      .conditional comparator (left.write spelling) (some (right.write spelling))
        (whenTrue.write spelling) (whenFalse.write spelling)
  | .call name arguments => name = lookupName ∧
    outline known ((Formula.call name arguments).write spelling) =
      .lookup (arguments.map (write spelling))
  | leaf => Trimmed (leaf.write spelling) ∧ leaf.write spelling ≠ [] ∧
    outline known (leaf.write spelling) = .leaf leaf.norm

theorem Settles.ok {α : Type} (a : α) : Settles (fun _ _ => .ok a) 0 (.ok a) where
  final _ h := by cases h
  below _ _ h := absurd h (Nat.not_lt_zero _)
  above _ _ _ := rfl

section

variable {known : Registry} {k : Nat} {r : Except ReadingError Formula}

theorem settles_of_outline {cs : List Char} {o : Outline} (trimmed : Trimmed cs)
    (ho : outline known cs = o)
    (h : Settles (fun limit levels => o.read (expression ⟨known, limit⟩ levels)) k r) :
    Settles (fun limit levels => expression ⟨known, limit⟩ levels cs) (k + 1) r := by
  apply settles_of_parts
  rwa [trimmed.trim_eq, ho]

/-- Two trimmed texts with one outline read alike. -/
theorem settles_of_same_outline {cs ds : List Char} (hc : Trimmed cs) (hd : Trimmed ds)
    (same : outline known cs = outline known ds)
    (h : Settles (fun limit levels => expression ⟨known, limit⟩ levels ds) k r) :
    Settles (fun limit levels => expression ⟨known, limit⟩ levels cs) k r := by
  have alike : (fun limit levels => expression ⟨known, limit⟩ levels cs) =
      fun limit levels => expression ⟨known, limit⟩ levels ds := by
    funext limit levels
    cases levels with
    | zero => rfl
    | succ levels =>
      rw [expression_succ, expression_succ, hc.trim_eq, hd.trim_eq, rules_eq_read, rules_eq_read,
        same]
  rwa [alike]

end

/-- The text of the tree reads as its normal form, and the levels that takes. -/
structure ReadsBack (known : Registry) (spelling : EqualitySpelling) (f : Formula) (k : Nat) :
    Prop where
  settles : Settles (fun limit levels => expression ⟨known, limit⟩ levels (f.write spelling)) k
    (.ok f.norm)
  enough : k ≤ f.need
  exact : f.Every NotLed → k = f.need

section

variable {known : Registry} {spelling : EqualitySpelling}

theorem settles_mapM {xs : List Formula} (h : ∀ x ∈ xs, ∃ k, ReadsBack known spelling x k) :
    ∃ k, Settles (fun limit levels =>
        (xs.map (write spelling)).mapM (expression ⟨known, limit⟩ levels)) k (.ok (normList xs)) ∧
      k ≤ needList xs ∧ ((∀ x ∈ xs, x.Every NotLed) → k = needList xs) := by
  induction xs with
  | nil => exact ⟨0, Settles.ok [], Nat.le_refl _, fun _ => rfl⟩
  | cons x xs ih =>
    obtain ⟨k, hx⟩ := h x List.mem_cons_self
    obtain ⟨j, hxs, enough, exact⟩ := ih fun y hy => h y (List.mem_cons_of_mem x hy)
    refine ⟨max k (max j 0), ?_, ?_, ?_⟩
    · simp only [List.map_cons, List.mapM_cons]
      exact hx.settles.bind_ok (hxs.bind_ok (Settles.ok _))
    · have := hx.enough
      rw [needList]
      omega
    · intro notLed
      have first := hx.exact (notLed x List.mem_cons_self)
      have rest := exact fun y hy => notLed y (List.mem_cons_of_mem x hy)
      rw [needList]
      omega

theorem trimmed_write {f : Formula} (h : f.Every (Outlined known spelling)) :
    Trimmed (f.write spelling) ∧ f.write spelling ≠ [] := by
  cases f with
  | cell | number | text => exact ⟨h.1, h.2.1⟩
  | chain operands operators =>
    rw [write_chain]
    exact ⟨trimmed_ends rfl rfl _, by simp⟩
  | conditional comparator l r t f =>
    have shape : (Formula.conditional comparator l r t f).write spelling =
        'I' :: ("F(".toList ++ l.write spelling ++ spelling.write comparator ++ r.write spelling ++
          ',' :: t.write spelling ++ ',' :: f.write spelling) ++ [')'] := by
      simp [write_conditional]
    rw [shape]
    exact ⟨trimmed_ends rfl rfl _, by simp⟩
  | call name arguments =>
    obtain ⟨⟨lookup, -⟩, -⟩ := h
    have shape : (Formula.call name arguments).write spelling =
        'L' :: ("OOKUP(".toList ++ writeArguments spelling arguments) ++ [')'] := by
      rw [lookup, write_lookup]
      simp
    rw [shape]
    exact ⟨trimmed_ends rfl rfl _, by simp⟩

theorem trimmed_writeChain {x : Formula} {xs : List Formula} {operators : Operators}
    (fits : operators.Fits (xs.length + 1))
    (h : ∀ y ∈ x :: xs, y.Every (Outlined known spelling)) :
    Trimmed (writeChain spelling (operators.toList (xs.length + 1)) (x :: xs)) := by
  obtain ⟨first, ne⟩ := trimmed_write (h x List.mem_cons_self)
  rw [writeChain_eq (by simpa using Operators.length_toList fits)]
  apply trimmed_links first ne
  intro s hs
  obtain ⟨y, hy, same⟩ := List.mem_map.mp (List.of_mem_zip hs).2
  rw [← same]
  exact trimmed_write (h y (List.mem_cons_of_mem x hy))

/-- A chain reads through its parentheses; one that begins with a call, on through that call
alone. -/
theorem readsBack_chain {x : Formula} {xs : List Formula} {operators : Operators}
    (node : Outlined known spelling (.chain (x :: xs) operators))
    (children : ∀ y ∈ x :: xs, y.Every (Outlined known spelling))
    (ih : ∀ y ∈ x :: xs, ∃ k, ReadsBack known spelling y k) :
    ∃ k, ReadsBack known spelling (.chain (x :: xs) operators) k := by
  obtain ⟨fits, wrapped, inner⟩ := node
  have trimmed := trimmed_writeChain fits children
  have shape : (Formula.chain (x :: xs) operators).write spelling =
      '(' :: writeChain spelling (operators.toList (xs.length + 1)) (x :: xs) ++ [')'] := by
    rw [write_chain, List.length_cons]
  by_cases led : x.isCall = true
  · rw [if_pos led] at inner
    obtain ⟨k, hx⟩ := ih x List.mem_cons_self
    have first := (trimmed_write (children x List.mem_cons_self)).1
    have interior := settles_of_same_outline trimmed first inner hx.settles
    refine ⟨k + 1, ?_, ?_, ?_⟩
    · rw [shape, Formula.norm, if_pos led]
      exact settles_of_outline (trimmed_ends rfl rfl _) wrapped interior
    · have := hx.enough
      rw [need, needList]
      omega
    · intro notLed
      have other : x.isCall = false := notLed.1
      rw [led] at other
      cases other
  · rw [if_neg led] at inner
    obtain ⟨k, hxs, enough, exact⟩ := settles_mapM ih
    have interior := settles_of_outline trimmed inner (hxs.bind_ok (Settles.ok _))
    refine ⟨max k 0 + 1 + 1, ?_, ?_, ?_⟩
    · rw [shape, Formula.norm, if_neg led]
      exact settles_of_outline (trimmed_ends rfl rfl _) wrapped interior
    · rw [need]
      omega
    · intro notLed
      have := exact (everyOf_iff.mp notLed.2)
      rw [need]
      omega

theorem readsBack {f : Formula} (h : f.Every (Outlined known spelling)) :
    ∃ k, ReadsBack known spelling f k := by
  induction f using Formula.induction with
  | cell | number | text =>
    obtain ⟨trimmed, -, leaf⟩ := h
    exact ⟨1, settles_of_outline trimmed leaf (Settles.ok _), Nat.le_refl 1, fun _ => rfl⟩
  | chain operands operators ih =>
    obtain ⟨node, children⟩ := h
    have children := everyOf_iff.mp children
    cases operands with
    | nil => cases node
    | cons x xs => exact readsBack_chain node children fun y hy => ih y hy (children y hy)
  | conditional comparator l r t f ihl ihr iht ihf =>
    obtain ⟨trimmed, -⟩ := trimmed_write h
    obtain ⟨node, hl, hr, ht, hf⟩ := h
    obtain ⟨kl, readL⟩ := ihl hl
    obtain ⟨kr, readR⟩ := ihr hr
    obtain ⟨kt, readT⟩ := iht ht
    obtain ⟨kf, readF⟩ := ihf hf
    refine ⟨max kl (max kr (max kt (max kf 0))) + 1, ?_, ?_, ?_⟩
    · apply settles_of_outline trimmed node
      refine readL.settles.bind_ok ?_
      refine readR.settles.bind_ok ?_
      refine readT.settles.bind_ok ?_
      refine readF.settles.bind_ok ?_
      exact Settles.ok _
    · have := readL.enough
      have := readR.enough
      have := readT.enough
      have := readF.enough
      rw [need]
      omega
    · rintro ⟨-, nl, nr, nt, nf⟩
      have := readL.exact nl
      have := readR.exact nr
      have := readT.exact nt
      have := readF.exact nf
      rw [need]
      omega
  | call name arguments ih =>
    obtain ⟨trimmed, -⟩ := trimmed_write h
    obtain ⟨⟨lookup, node⟩, children⟩ := h
    have children := everyOf_iff.mp children
    obtain ⟨k, hxs, enough, exact⟩ := settles_mapM fun y hy => ih y hy (children y hy)
    subst lookup
    refine ⟨max k 0 + 1, ?_, ?_, ?_⟩
    · exact settles_of_outline trimmed node (hxs.bind_ok (Settles.ok _))
    · rw [need]
      omega
    · intro notLed
      have := exact (everyOf_iff.mp notLed.2)
      rw [need]
      omega

theorem strip_eq_trim {cs : List Char} (head : (trim cs).head? ≠ some '=') :
    strip cs = trim cs := by
  rw [strip]
  split
  · next rest mark =>
    rw [mark] at head
    exact absurd rfl head
  · rfl

theorem strip_eq_self {cs : List Char} (trimmed : Trimmed cs) (head : cs.head? ≠ some '=') :
    strip cs = cs := by
  rw [strip_eq_trim (by rwa [trimmed.trim_eq]), trimmed.trim_eq]

end

end Reading

end CellFormula
