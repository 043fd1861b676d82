import CellFormula.Proofs.Recognition
import Mathlib.Data.ZMod.Defs

/-!
# Round trip of clean trees

The text of a clean tree reads back as its normal form, under any limit that leaves the levels it
needs and with any known names that hold no operator.
-/

namespace CellFormula.Reading

open Text Scan Nesting Formula

section

variable {known : Registry} (spelling : EqualitySpelling)

/-- What follows a call does not change its outline. -/
theorem outline_led {inCall : Bool} {x : Formula} (clean : x.Clean inCall)
    (led : x.isCall = true) (rest : List Char) :
    outline known (x.write spelling ++ rest) = outline known (x.write spelling) := by
  have same : ∀ {keyword word content}, IsWord keyword word → Balanced content →
      outline known (word ++ '(' :: content ++ [')'] ++ rest) =
        outline known (word ++ '(' :: content ++ [')']) := by
    intro keyword word content head balanced
    have after := outline_call known head balanced rest
    have alone := outline_call known head balanced []
    rw [List.append_assoc (word ++ '(' :: content)]
    exact after.trans alone.symm
  cases x with
  | cell | number | text | chain => cases led
  | conditional comparator l r t f =>
    obtain ⟨hl, hr, ht, hf⟩ := clean
    rw [write_conditional_eq]
    exact same isWord_if (balanced_comparison (isPlain_write spelling comparator)
      ((tidy_write spelling hl).balanced rfl) ((tidy_write spelling hr).balanced rfl)
      ((tidy_write spelling ht).balanced rfl) ((tidy_write spelling hf).balanced rfl))
  | call name arguments =>
    obtain ⟨rfl, children⟩ := clean
    have children := cleanList_iff.mp children
    rw [write_lookup_eq]
    apply same isWord_lookup
    apply balanced_joined
    intro w hw
    obtain ⟨y, hy, rfl⟩ := List.mem_map.mp hw
    exact (tidy_write spelling (children y hy)).balanced rfl

/-- A chain is outlined as its operands, or as its first one if that is a call. -/
theorem outlined_chain (names : known.WithoutOperators) {inCall : Bool} {x : Formula}
    {xs : List Formula} {operators : Operators}
    (clean : (Formula.chain (x :: xs) operators).Clean inCall) :
    Outlined known spelling (.chain (x :: xs) operators) := by
  obtain ⟨fits, children⟩ := clean
  have children := cleanList_iff.mp children
  have tidy := fun y hy => tidy_write spelling (children y hy)
  have count : (operators.toList (xs.length + 1)).length = xs.length := by
    simpa using Operators.length_toList fits
  have texts : ((operators.toList (xs.length + 1)).zip (xs.map (write spelling))).map (·.2) =
      xs.map (write spelling) := List.map_snd_zip (by simp [count])
  have symbols : ((operators.toList (xs.length + 1)).zip (xs.map (write spelling))).map (·.1) =
      operators.toList (xs.length + 1) := List.map_fst_zip (by simp [count])
  have rest : ∀ s ∈ (operators.toList (xs.length + 1)).zip (xs.map (write spelling)),
      Tidy inCall s.2 := by
    intro s hs
    obtain ⟨y, hy, same⟩ := List.mem_map.mp (List.of_mem_zip hs).2
    rw [← same]
    exact tidy y (List.mem_cons_of_mem x hy)
  have first := tidy x List.mem_cons_self
  refine ⟨fits, ?_⟩
  rw [writeChain_eq count]
  cases more : (operators.toList (xs.length + 1)).zip (xs.map (write spelling)) with
  | nil =>
    have two := Operators.two_le fits
    rw [more] at texts
    have none := congrArg List.length texts
    simp only [List.map_nil, List.length_nil, List.length_map] at none
    rw [List.length_cons] at two
    omega
  | cons s more' =>
    rw [more] at texts symbols rest
    refine ⟨outline_chain names first.loose fun t ht => (rest t ht).loose, ?_⟩
    by_cases led : x.isCall = true
    · rw [if_pos led]
      exact outline_led spelling (children x List.mem_cons_self) led _
    · have other : x.isCall = false := by simpa using led
      have clean := children x List.mem_cons_self
      have trimmed : Trimmed (x.write spelling ++ links (s :: more')) :=
        trimmed_links first.compact.trimmed first.compact.ne_nil fun t ht =>
          ⟨(rest t ht).compact.trimmed, (rest t ht).compact.ne_nil⟩
      have shut : Unrecognised (trim (x.write spelling ++ links (s :: more'))) := by
        have bare := @unrecognised [] (by simp) s.1 (s.2 ++ links more') inCall x clean other _
          (laidOut_write spelling clean)
        rw [List.append_nil] at bare
        rwa [trimmed.trim_eq]
      have kept : ((x :: xs).map (write spelling)).map trim = (x :: xs).map (write spelling) := by
        apply map_trim_eq_self
        rw [List.forall_mem_map]
        exact fun y hy => (tidy y hy).compact.trimmed
      have whole := outline_interior names first.loose.operand
        (fun t ht => (rest t ht).loose.operand) shut
      rw [trimmed.trim_eq, texts, symbols, ← List.map_cons, kept] at whole
      rw [if_neg led, whole]

theorem outlined_conditional {inCall : Bool} {comparator : Comparator} {l r t f : Formula}
    (clean : (Formula.conditional comparator l r t f).Clean inCall) :
    Outlined known spelling (.conditional comparator l r t f) := by
  obtain ⟨hl, hr, ht, hf⟩ := clean
  have left := tidy_write spelling hl
  have right := tidy_write spelling hr
  have whenTrue := tidy_write spelling ht
  have whenFalse := tidy_write spelling hf
  have balanced := balanced_comparison (isPlain_write spelling comparator) (left.balanced rfl)
    (right.balanced rfl) (whenTrue.balanced rfl) (whenFalse.balanced rfl)
  have pieces := @splitTopLevel_joined [l.write spelling ++ spelling.write comparator ++
    r.write spelling, t.write spelling, f.write spelling] (by
      intro w hw
      simp only [List.mem_cons, List.not_mem_nil, or_false] at hw
      rcases hw with rfl | rfl | rfl
      · exact argument_comparison left.compact right.compact spelling comparator
      · exact whenTrue.compact.argument
      · exact whenFalse.compact.argument)
  rw [Outlined, write_conditional_eq]
  rw [outline_call known isWord_if balanced [], pieces, callOutline, conditionalOutline,
    comparison?_write left.compact right.compact]

theorem outlined_lookup {arguments : List Formula}
    (clean : ∀ x ∈ arguments, x.Clean true) :
    Outlined known spelling (.call lookupName arguments) := by
  have each : ∀ w ∈ arguments.map (write spelling), Tidy true w := by
    intro w hw
    obtain ⟨x, hx, rfl⟩ := List.mem_map.mp hw
    exact tidy_write spelling (clean x hx)
  have balanced := balanced_joined fun w hw => (each w hw).balanced rfl
  have pieces := splitTopLevel_joined fun w hw => (each w hw).compact.argument
  rw [Outlined, write_lookup_eq]
  refine ⟨rfl, ?_⟩
  rw [outline_call known isWord_lookup balanced [], pieces, callOutline]

/-- The cuts take the text of a clean tree apart just as it was put together. -/
theorem outlined_of_clean (names : known.WithoutOperators) {inCall : Bool} {f : Formula}
    (clean : f.Clean inCall) : f.Every (Outlined known spelling) := by
  induction f using Formula.induction generalizing inCall with
  | cell name =>
    have compact := (tidy_name clean inCall).compact
    refine ⟨compact.trimmed, compact.ne_nil, ?_⟩
    rw [write_cell, outline_name known clean, cellNamed, String.ofList_toList]
    rfl
  | number value =>
    have compact := (tidy_number clean inCall).compact
    exact ⟨compact.trimmed, compact.ne_nil, outline_number known clean⟩
  | text value =>
    have compact := (tidy_text clean.1 clean.2).compact
    refine ⟨compact.trimmed, compact.ne_nil, ?_⟩
    rw [write_text, outline_text known clean.1, String.ofList_toList]
    rfl
  | chain operands operators ih =>
    have children := cleanList_iff.mp clean.2
    rw [Every, everyOf_iff]
    cases operands with
    | nil => exact absurd (Operators.two_le clean.1) (by simp)
    | cons x xs =>
      exact ⟨outlined_chain spelling names clean, fun y hy => ih y hy (children y hy)⟩
  | conditional comparator l r t f ihl ihr iht ihf =>
    have node : Outlined known spelling (.conditional comparator l r t f) :=
      outlined_conditional spelling clean
    obtain ⟨hl, hr, ht, hf⟩ := clean
    exact ⟨node, ihl hl, ihr hr, iht ht, ihf hf⟩
  | call name arguments ih =>
    obtain ⟨rfl, children⟩ := clean
    have children := cleanList_iff.mp children
    rw [Every, everyOf_iff]
    exact ⟨outlined_lookup spelling children, fun y hy => ih y hy (children y hy)⟩

end

/-- `((IF(A1>-0,"(yes)",LOOKUP())*B1)-[a+b]-"("-LOOKUP(-2.5,(x y/C1/"a,b")))`: a chain that begins
with a call, shared operators, a negative zero and parentheses in texts. -/
def mixedTree : Formula :=
  .chain
    [.chain [.conditional .greaterThan (.cell "A1") (.number (.zero true)) (.text "(yes)")
        (.lookup []), .cell "B1"] (.perPair [.multiply]),
      .cell "[a+b]", .text "(",
      .lookup [.number ⟨true, 1024, 2 ^ 50⟩,
        .chain [.cell "x y", .cell "C1", .text "a,b"] (.shared .divide)]]
    (.shared .subtract)

end CellFormula.Reading
