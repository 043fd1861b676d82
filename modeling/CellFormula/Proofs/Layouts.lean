import CellFormula.Proofs.Clean
import Mathlib.Data.List.Forall2

/-!
# Layouts

The texts that may be entered for a tree, of which the one written for it is one: with blanks around
operators, comparators and commas, inside parentheses and after `IF`, with the words of the calls in
any letter case, and with one equals sign or two for an equality. No blank stands inside a name, a
number or a text, nor between `LOOKUP` and its parenthesis.
-/

namespace CellFormula

namespace Formula

open Text Scan Nesting Reading

mutual

/-- A text for the tree without blanks at its ends. -/
inductive LaidOut : Formula → List Char → Prop where
  | cell (name : String) : LaidOut (.cell name) name.toList
  | number (value : Binary64) : LaidOut (.number value) value.toText
  | text (value : String) : LaidOut (.text value) ('"' :: value.toList ++ ['"'])
  | chain {x : Formula} {xs : List Formula} {operators : Operators} {p : List Char}
    {ps : List (List Char)} (first : Spaced x p) (rest : List.Forall₂ Spaced xs ps) :
    LaidOut (.chain (x :: xs) operators)
      ('(' :: (p ++ links ((operators.toList (xs.length + 1)).zip ps)) ++ [')'])
  | conditional {comparator : Comparator} {l r t f : Formula}
    {word left symbol right whenTrue whenFalse : List Char} (head : IsWord .conditional word)
    (spelled : (symbol, comparator) ∈ Comparator.spellings) (spacedL : Spaced l left)
    (spacedR : Spaced r right) (spacedT : Spaced t whenTrue) (spacedF : Spaced f whenFalse) :
    LaidOut (.conditional comparator l r t f)
      (word ++ '(' :: joined [','] [left ++ symbol ++ right, whenTrue, whenFalse] ++ [')'])
  | lookup {xs : List Formula} {word : List Char} {ps : List (List Char)}
    (head : IsWord .lookup word) (arguments : List.Forall₂ Spaced xs ps) :
    LaidOut (.lookup xs) (word ++ '(' :: joined [','] ps ++ [')'])
  | noArguments {word blanks : List Char} (head : IsWord .lookup word)
    (blank : ∀ c ∈ blanks, isBlank c = true) :
    LaidOut (.lookup []) (word ++ '(' :: blanks ++ [')'])

/-- Such a text with blanks around it. -/
inductive Spaced : Formula → List Char → Prop where
  | pad {f : Formula} {before w after : List Char} (laid : LaidOut f w)
    (blankBefore : ∀ c ∈ before, isBlank c = true) (blankAfter : ∀ c ∈ after, isBlank c = true) :
    Spaced f (before ++ w ++ after)

end

/-- A whole text, which may begin with an equals sign. -/
inductive Entered (f : Formula) : List Char → Prop where
  | plain {p : List Char} (spaced : Spaced f p) : Entered f p
  | marked {before p : List Char} (blank : ∀ c ∈ before, isBlank c = true) (spaced : Spaced f p) :
    Entered f (before ++ '=' :: p)

theorem LaidOut.spaced {f : Formula} {w : List Char} (laid : LaidOut f w) : Spaced f w := by
  have pad := @Spaced.pad f [] w [] laid (by simp) (by simp)
  rwa [List.nil_append, List.append_nil] at pad

theorem spaced_blank_cons {f : Formula} {p : List Char} (spaced : Spaced f p) :
    Spaced f (' ' :: p) := by
  obtain ⟨laid, blankBefore, blankAfter⟩ := spaced
  exact .pad laid (List.forall_mem_cons.mpr ⟨rfl, blankBefore⟩) blankAfter

theorem forall₂_spaced_map {text : Formula → List Char} {xs : List Formula}
    (laid : ∀ x ∈ xs, LaidOut x (text x)) : List.Forall₂ Spaced xs (xs.map text) := by
  rw [List.forall₂_map_right_iff, List.forall₂_same]
  exact fun x hx => (laid x hx).spaced

/-- The text that is written for a clean tree is one of its layouts. -/
theorem laidOut_write (spelling : EqualitySpelling) {inCall : Bool} {f : Formula}
    (clean : f.Clean inCall) : LaidOut f (f.write spelling) := by
  induction f using induction generalizing inCall with
  | cell name => exact .cell name
  | number value => exact .number value
  | text value => exact .text value
  | chain operands operators ih =>
    obtain ⟨fits, children⟩ := clean
    have children := cleanList_iff.mp children
    cases operands with
    | nil => exact absurd (Operators.two_le fits) (by simp)
    | cons x xs =>
      have laid := fun y hy => ih y hy (children y hy)
      rw [write_chain_eq spelling fits]
      exact .chain (laid x List.mem_cons_self).spaced
        (forall₂_spaced_map fun y hy => laid y (List.mem_cons_of_mem x hy))
  | conditional comparator l r t f ihl ihr iht ihf =>
    obtain ⟨hl, hr, ht, hf⟩ := clean
    rw [write_conditional_eq]
    exact .conditional isWord_if (write_mem_spellings spelling comparator) (ihl hl).spaced
      (ihr hr).spaced (iht ht).spaced (ihf hf).spaced
  | call name arguments ih =>
    obtain ⟨rfl, children⟩ := clean
    have children := cleanList_iff.mp children
    rw [write_lookup_eq]
    exact .lookup isWord_lookup (forall₂_spaced_map fun x hx => ih x hx (children x hx))

theorem entered_toText (spelling : EqualitySpelling) {inCall : Bool} {f : Formula}
    (clean : f.Clean inCall) : Entered f (f.toText spelling).toList := by
  rw [toText, String.toList_ofList]
  exact .plain (laidOut_write spelling clean).spaced

theorem Spaced.loose_of {inCall : Bool} {f : Formula} {p : List Char} (spaced : Spaced f p)
    (tidy : ∀ w, LaidOut f w → Tidy inCall w) : Loose inCall p := by
  obtain ⟨laid, blankBefore, blankAfter⟩ := spaced
  exact (tidy _ laid).pad blankBefore blankAfter

theorem loose_of_pieces {inCall : Bool} {xs : List Formula} {ps : List (List Char)}
    (pieces : List.Forall₂ Spaced xs ps)
    (tidy : ∀ x ∈ xs, ∀ w, LaidOut x w → Tidy inCall w) : ∀ p ∈ ps, Loose inCall p := by
  induction pieces with
  | nil => simp
  | cons first _ ih =>
    obtain ⟨here, others⟩ := List.forall_mem_cons.mp tidy
    exact List.forall_mem_cons.mpr ⟨first.loose_of here, ih others⟩

/-- Every layout of a clean tree is compact, and below a call its parentheses balance. -/
theorem tidy_laidOut {inCall : Bool} {f : Formula} (clean : f.Clean inCall) {w : List Char}
    (laid : LaidOut f w) : Tidy inCall w := by
  induction f using induction generalizing inCall w with
  | cell name =>
    cases laid
    exact tidy_name clean inCall
  | number value =>
    cases laid
    exact tidy_number clean inCall
  | text value =>
    cases laid
    exact tidy_text clean.1 clean.2
  | chain operands operators ih =>
    obtain ⟨-, children⟩ := clean
    have children := cleanList_iff.mp children
    have tidy : ∀ y ∈ operands, ∀ w, LaidOut y w → Tidy inCall w :=
      fun y hy w => ih y hy (children y hy)
    cases laid with
    | chain first rest =>
      obtain ⟨here, others⟩ := List.forall_mem_cons.mp tidy
      apply tidy_chain (first.loose_of here)
      exact fun s hs => loose_of_pieces rest others s.2 (List.of_mem_zip hs).2
  | conditional comparator l r t f ihl ihr iht ihf =>
    obtain ⟨hl, hr, ht, hf⟩ := clean
    cases laid with
    | conditional head spelled spacedL spacedR spacedT spacedF =>
      have left := spacedL.loose_of fun w => ihl hl
      have right := spacedR.loose_of fun w => ihr hr
      have whenTrue := spacedT.loose_of fun w => iht ht
      have whenFalse := spacedF.loose_of fun w => ihf hf
      have plain := fun c hc => ((spelling_of_mem spelled).2 c hc).1
      apply tidy_call head
      · exact closed_comparison plain left.operand.closed right.operand.closed
          whenTrue.operand.closed whenFalse.operand.closed
      · exact balanced_comparison plain (left.balanced rfl) (right.balanced rfl)
          (whenTrue.balanced rfl) (whenFalse.balanced rfl)
  | call name arguments ih =>
    obtain ⟨rfl, children⟩ := clean
    have children := cleanList_iff.mp children
    cases laid with
    | lookup head arguments =>
      have each := loose_of_pieces arguments fun x hx w => ih x hx (children x hx)
      apply tidy_call head
      · exact closed_joined fun p hp => (each p hp).operand.closed
      · exact balanced_joined fun p hp => (each p hp).balanced rfl
    | noArguments head blank =>
      exact tidy_call head (closed_of_isBlank blank) (balanced_of_isBlank blank) inCall

theorem loose_spaced {inCall : Bool} {f : Formula} (clean : f.Clean inCall) {p : List Char}
    (spaced : Spaced f p) : Loose inCall p :=
  spaced.loose_of fun _ => tidy_laidOut clean

theorem loose_pieces {inCall : Bool} {xs : List Formula} (clean : ∀ x ∈ xs, x.Clean inCall)
    {ps : List (List Char)} (pieces : List.Forall₂ Spaced xs ps) : ∀ p ∈ ps, Loose inCall p :=
  loose_of_pieces pieces fun x hx _ => tidy_laidOut (clean x hx)

/-- The text of a clean tree is compact, and below a call its parentheses balance. -/
theorem tidy_write (spelling : EqualitySpelling) {inCall : Bool} {f : Formula}
    (clean : f.Clean inCall) : Tidy inCall (f.write spelling) :=
  tidy_laidOut clean (laidOut_write spelling clean)

end Formula

end CellFormula
