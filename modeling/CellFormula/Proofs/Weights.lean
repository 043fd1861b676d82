import CellFormula.Proofs.Blanks
import CellFormula.Proofs.Compact
import CellFormula.Proofs.Outline
import Mathlib.Algebra.GroupWithZero.Nat
import Mathlib.Algebra.Order.BigOperators.Group.List
import Mathlib.Algebra.Order.Group.Nat

/-!
# Weights

The light characters are those that a tree may have been read without and be written with, or the
other way round: parentheses around a group, quotes, the digits and points of a number, equals
signs. All others are heavy. Cuts are made at heavy characters and trimming takes only heavy ones
away, so a text put together in two ways from pieces of the same weights has nearly the same pieces.
-/

namespace CellFormula

namespace Scan

open Text Nesting

def isLight (c : Char) : Bool :=
  c.isDigit || c == '.' || c == '=' || c == '(' || c == ')' || isQuote c

/-- The number of heavy characters. -/
def weight (cs : List Char) : Nat :=
  cs.countP fun c => !isLight c

@[simp] theorem weight_nil : weight [] = 0 := rfl

@[simp] theorem weight_append (xs ys : List Char) : weight (xs ++ ys) = weight xs + weight ys :=
  List.countP_append

theorem weight_light {c : Char} (h : isLight c = true) (cs : List Char) :
    weight (c :: cs) = weight cs := by
  simp [weight, h]

theorem weight_heavy {c : Char} (h : isLight c = false) (cs : List Char) :
    weight (c :: cs) = weight cs + 1 := by
  simp [weight, h]

theorem weight_eq_zero_iff {cs : List Char} : weight cs = 0 ↔ ∀ c ∈ cs, isLight c = true := by
  simp [weight]

theorem weight_le_of_sublist {xs ys : List Char} (h : xs.Sublist ys) : weight xs ≤ weight ys :=
  h.countP_le

theorem weight_trim_le (cs : List Char) : weight (trim cs) ≤ weight cs :=
  weight_le_of_sublist (trim_isInfix cs).sublist

theorem isLight_of_isDigit {c : Char} (h : c.isDigit = true ∨ c = '.') : isLight c = true := by
  rcases h with h | rfl
  · simp [isLight, h]
  · rfl

theorem isLight_of_isQuote {c : Char} (h : isQuote c = true) : isLight c = true := by
  simp [isLight, h]

theorem isBlank_of_isLight {c : Char} (h : isLight c = true) : isBlank c = false := by
  simp only [isLight, isQuote, Bool.or_eq_true, beq_iff_eq] at h
  rcases h with ((((h | rfl) | rfl) | rfl) | rfl) | rfl | rfl
  · exact Reading.isBlank_eq_false_of_isDigit h
  all_goals rfl

/-- Blanks are heavy, so trimming that takes no weight away takes nothing away. -/
theorem trimmed_of_weight_le {cs : List Char} (h : weight cs ≤ weight (trim cs)) :
    Trimmed cs := by
  obtain ⟨before, after, whole⟩ := trim_isInfix cs
  have total := congrArg weight whole
  simp only [weight_append] at total
  have lightBefore := weight_eq_zero_iff.mp (show weight before = 0 by omega)
  have lightAfter := weight_eq_zero_iff.mp (show weight after = 0 by omega)
  constructor
  · intro c hc
    rw [← whole, List.append_assoc, List.head?_append, List.head?_append] at hc
    rcases Option.or_eq_some_iff.mp hc with hc | ⟨-, hc⟩
    · exact isBlank_of_isLight (lightBefore c (List.mem_of_head? hc))
    · rcases Option.or_eq_some_iff.mp hc with hc | ⟨-, hc⟩
      · exact (trimmed_trim cs).1 c hc
      · exact isBlank_of_isLight (lightAfter c (List.mem_of_head? hc))
  · intro c hc
    rw [← whole, List.append_assoc, List.getLast?_append, List.getLast?_append] at hc
    rcases Option.or_eq_some_iff.mp hc with hc | ⟨-, hc⟩
    · rcases Option.or_eq_some_iff.mp hc with hc | ⟨-, hc⟩
      · exact isBlank_of_isLight (lightAfter c (List.mem_of_getLast? hc))
      · exact (trimmed_trim cs).2 c hc
    · exact isBlank_of_isLight (lightBefore c (List.mem_of_getLast? hc))

theorem isLight_symbol (op : Operator) : isLight op.symbol = false := by
  cases op <;> rfl

theorem heavy_symbols (operators : List Operator) :
    ∀ c ∈ operators.map Operator.symbol, isLight c = false := by
  intro c hc
  obtain ⟨op, -, rfl⟩ := List.mem_map.mp hc
  exact isLight_symbol op

theorem heavy_commas (n : Nat) : ∀ c ∈ List.replicate n ',', isLight c = false := by
  intro c hc
  rw [List.eq_of_mem_replicate hc]
  rfl

/-- Two texts of one weight, each before a heavy character, are cut at the same place. -/
theorem append_heavy_inj {xs xs' ys ys' : List Char} {c c' : Char} (hc : isLight c = false)
    (hc' : isLight c' = false) (same : weight xs = weight xs')
    (h : xs ++ c :: ys = xs' ++ c' :: ys') : xs = xs' ∧ c = c' ∧ ys = ys' := by
  rcases append_cons_cases h with cut | ⟨ms, rfl⟩ | ⟨ms, rfl, -⟩
  · exact cut
  all_goals
    rw [weight_append, weight_heavy (by assumption)] at same
    omega

/-- Pieces with separators between neighbours, of which there is one fewer. -/
def glue : List Char → List (List Char) → List Char
  | c :: separators, p :: pieces => p ++ c :: glue separators pieces
  | _, pieces => pieces.flatten

def weights (pieces : List (List Char)) : Nat :=
  (pieces.map weight).sum

theorem joined_eq_glue (c : Char) (p : List Char) (pieces : List (List Char)) :
    joined [c] (p :: pieces) = glue (List.replicate pieces.length c) (p :: pieces) := by
  induction pieces generalizing p with
  | nil => simp [joined, glue]
  | cons q pieces ih => simp [joined, ih, List.replicate_succ, glue]

-- What a split leaves out is the same whatever is counted, so it is said once for every measure
-- that adds up along a text.
section

variable {μ : List Char → Nat} (add : ∀ xs ys, μ (xs ++ ys) = μ xs + μ ys)

include add

theorem additive_nil : μ [] = 0 := by
  have twice := add [] []
  rw [List.append_nil] at twice
  omega

theorem additive_trim_le (cs : List Char) : μ (trim cs) ≤ μ cs := by
  obtain ⟨before, after, whole⟩ := trim_isInfix cs
  have total := congrArg μ whole
  rw [add, add] at total
  omega

theorem sum_map_trim_le (ps : List (List Char)) :
    ((ps.map trim).map μ).sum ≤ (ps.map μ).sum := by
  rw [List.map_map]
  exact List.sum_le_sum fun p _ => additive_trim_le add p

theorem additive_glue {separators : List Char} {pieces : List (List Char)}
    (fits : separators.length + 1 = pieces.length) :
    μ (glue separators pieces) = (pieces.map μ).sum + μ separators := by
  induction separators generalizing pieces with
  | nil =>
    obtain ⟨p, rfl⟩ := List.length_eq_one_iff.mp fits.symm
    simp [glue, additive_nil add]
  | cons c separators ih =>
    cases pieces with
    | nil => cases fits
    | cons p pieces =>
      have here := add [c] (glue separators pieces)
      have head := add [c] separators
      rw [List.singleton_append] at here head
      rw [glue, add, here, head, ih (by simpa using fits), List.map_cons, List.sum_cons]
      omega

variable (comma : μ [','] = 1)

include comma

theorem additive_commas (n : Nat) : μ (List.replicate n ',') = n := by
  induction n with
  | zero => exact additive_nil add
  | succ n ih => rw [List.replicate_succ', add, ih, comma]

theorem sum_rawPieces (content : List Char) :
    ((rawPieces ',' .start content).map μ).sum + (rawPieces ',' .start content).length =
      μ content + 1 := by
  have whole := joined_rawPieces ',' .start content
  cases pieces : rawPieces ',' .start content with
  | nil => exact absurd pieces (rawPieces_ne_nil _ _ _)
  | cons p ps =>
    rw [pieces, joined_eq_glue] at whole
    have total := additive_glue add
      (show (List.replicate ps.length ',').length + 1 = (p :: ps).length by simp)
    rw [whole, additive_commas add comma] at total
    rw [List.length_cons]
    omega

/-- What is left out of the content of a call: the blanks around its arguments, and perhaps the last
comma. -/
theorem splitTopLevel_cases (content : List Char) :
    splitTopLevel ',' content = (rawPieces ',' .start content).map trim ∨
      ((splitTopLevel ',' content).map μ).sum + (splitTopLevel ',' content).length ≤
        μ content := by
  have raw := sum_rawPieces add comma content
  have trimmed := sum_map_trim_le add (rawPieces ',' .start content)
  rw [splitTopLevel]
  rcases dropEmptyLast_cases ((rawPieces ',' .start content).map trim) with same | less
  · exact .inl same
  · right
    have lengths := congrArg List.length less
    have total := congrArg (fun ps => (ps.map μ).sum) less
    rw [List.length_map, List.length_append, List.length_singleton] at lengths
    simp only [List.map_append, List.sum_append, List.map_singleton, List.sum_singleton,
      additive_nil add] at total
    omega

theorem sum_splitTopLevel_le (content : List Char) :
    ((splitTopLevel ',' content).map μ).sum + (splitTopLevel ',' content).length ≤
      μ content + 1 := by
  rcases splitTopLevel_cases add comma content with same | less
  · have raw := sum_rawPieces add comma content
    have trimmed := sum_map_trim_le add (rawPieces ',' .start content)
    rw [same, List.length_map]
    omega
  · omega

end

section

variable {separators : List Char} (heavy : ∀ c ∈ separators, isLight c = false)

include heavy

theorem weight_of_heavy : weight separators = separators.length := by
  induction separators with
  | nil => rfl
  | cons c separators ih =>
    obtain ⟨hc, heavy⟩ := List.forall_mem_cons.mp heavy
    rw [weight_heavy hc, ih heavy, List.length_cons]

theorem weight_glue {pieces : List (List Char)} (fits : separators.length + 1 = pieces.length) :
    weight (glue separators pieces) = weights pieces + separators.length := by
  rw [additive_glue weight_append fits, weight_of_heavy heavy]
  rfl

variable {pieces pieces' : List (List Char)} (fits : separators.length + 1 = pieces.length)
  (same : List.Forall₂ (fun p p' => weight p = weight p') pieces pieces')

include fits same

/-- Glued pieces are determined by their weights. -/
theorem glue_inj (h : glue separators pieces = glue separators pieces') : pieces = pieces' := by
  induction separators generalizing pieces pieces' with
  | nil =>
    obtain ⟨p, rfl⟩ := List.length_eq_one_iff.mp fits.symm
    obtain ⟨p', rfl⟩ := List.length_eq_one_iff.mp same.length_eq.symm
    simpa [glue] using h
  | cons c separators ih =>
    obtain ⟨hc, heavy⟩ := List.forall_mem_cons.mp heavy
    cases same with
    | nil => cases fits
    | cons first rest =>
      obtain ⟨rfl, -, h⟩ := append_heavy_inj hc hc first h
      rw [ih heavy (by simpa using fits) rest h]

end

theorem append_links_eq_glue (p : List Char) (more : List (Operator × List Char)) :
    p ++ links more = glue (more.map fun s => s.1.symbol) (p :: more.map fun s => s.2) := by
  induction more generalizing p with
  | nil => simp [links, glue]
  | cons s more ih => rw [links_cons, ih, List.map_cons, List.map_cons, glue]

@[simp] theorem weights_nil : weights [] = 0 := rfl

@[simp] theorem weights_cons (p : List Char) (ps : List (List Char)) :
    weights (p :: ps) = weight p + weights ps := rfl

theorem weights_le {ps qs : List (List Char)}
    (h : List.Forall₂ (fun p q => weight p ≤ weight q) ps qs) : weights ps ≤ weights qs := by
  refine List.Forall₂.sum_le_sum ?_
  rwa [List.forall₂_map_left_iff, List.forall₂_map_right_iff]

theorem weight_eq_of_weights {ps qs : List (List Char)}
    (h : List.Forall₂ (fun p q => weight p ≤ weight q) ps qs) (total : weights qs ≤ weights ps) :
    List.Forall₂ (fun p q => weight p = weight q) ps qs := by
  induction h with
  | nil => exact .nil
  | cons first rest ih =>
    have := weights_le rest
    rw [weights_cons, weights_cons] at total
    exact .cons (by omega) (ih (by omega))

theorem weights_map_trim_le (ps : List (List Char)) : weights (ps.map trim) ≤ weights ps :=
  sum_map_trim_le weight_append ps

theorem map_trim_of_weights {ps : List (List Char)} (h : weights ps ≤ weights (ps.map trim)) :
    ps.map trim = ps := by
  have each : List.Forall₂ (fun p q => weight p = weight q) (ps.map trim) ps := by
    refine weight_eq_of_weights ?_ h
    rw [List.forall₂_map_left_iff, List.forall₂_same]
    exact fun p _ => weight_trim_le p
  rw [List.forall₂_map_left_iff, List.forall₂_same] at each
  exact map_trim_eq_self fun p hp => trimmed_of_weight_le (Nat.le_of_eq (each p hp).symm)

theorem weights_splitTopLevel (content : List Char) :
    weights (splitTopLevel ',' content) + (splitTopLevel ',' content).length ≤
      weight content + 1 :=
  sum_splitTopLevel_le weight_append rfl content

/-- Arguments that weigh as much as the content with its commas are all that it holds. -/
theorem rawPieces_of_weights {content : List Char} (total : weight content + 1 ≤
    weights (splitTopLevel ',' content) + (splitTopLevel ',' content).length) :
    rawPieces ',' .start content = splitTopLevel ',' content := by
  have raw := sum_rawPieces weight_append rfl content
  rcases splitTopLevel_cases weight_append rfl content with same | less
  · rw [same, List.length_map] at total
    rw [same, map_trim_of_weights (by unfold weights at *; omega)]
  · unfold weights at total
    omega

theorem joined_of_weights {content : List Char} (total : weight content ≤
    weights (splitTopLevel ',' content) + ((splitTopLevel ',' content).length - 1)) :
    content = joined [','] (splitTopLevel ',' content) := by
  have whole := joined_rawPieces ',' .start content
  cases pieces : splitTopLevel ',' content with
  | nil =>
    rw [pieces, weights_nil, List.length_nil] at total
    have kept := trimmed_of_weight_le (Nat.le_trans total (Nat.zero_le (weight (trim content))))
    rw [splitTopLevel] at pieces
    rcases dropEmptyLast_cases ((rawPieces ',' .start content).map trim) with same | less
    · rw [pieces] at same
      exact absurd (List.map_eq_nil_iff.mp same.symm) (rawPieces_ne_nil _ _ _)
    · rw [pieces, List.nil_append, List.map_eq_singleton_iff] at less
      obtain ⟨p, only, blank⟩ := less
      rw [only, joined] at whole
      rw [whole, kept.trim_eq] at blank
      rw [blank, joined]
  | cons p ps =>
    rw [rawPieces_of_weights (by rw [pieces, List.length_cons] at total ⊢; omega), pieces] at whole
    exact whole.symm

/-- The last of glued pieces, where each is as heavy as the text of its tree. -/
theorem last_of_glue {α : Type} {r : List Char → α → Prop} {text : α → List Char}
    {separators : List Char} (heavy : ∀ c ∈ separators, isLight c = false)
    (weigh : ∀ p x, r p x → weight p = weight (text x)) {ps : List (List Char)} {xs : List α}
    (fits : separators.length + 1 = ps.length) (h : List.Forall₂ r ps xs) {tail : List Char}
    (same : glue separators ps ++ tail = glue separators (xs.map text)) :
    ∃ p x, x ∈ xs ∧ r p x ∧ text x = p ++ tail := by
  induction separators generalizing ps xs with
  | nil =>
    obtain ⟨p, rfl⟩ := List.length_eq_one_iff.mp fits.symm
    obtain _ | ⟨first, _ | _⟩ := h
    exact ⟨p, _, List.mem_singleton_self _, first, by simpa [glue] using same.symm⟩
  | cons c separators ih =>
    obtain ⟨hc, heavy⟩ := List.forall_mem_cons.mp heavy
    cases h with
    | nil => cases fits
    | cons first rest =>
      rw [List.map_cons, glue, glue, List.append_assoc, List.cons_append] at same
      obtain ⟨-, -, same⟩ := append_heavy_inj hc hc (weigh _ _ first) same
      obtain ⟨p, x, mem, spells, last⟩ := ih heavy (by simpa using fits) rest same
      exact ⟨p, x, List.mem_cons_of_mem _ mem, spells, last⟩

section

variable {α : Type} {r : List Char → α → Prop} {text : α → List Char}
  (weigh : ∀ p x, r p x → weight p = weight (text x)) {ps : List (List Char)} {xs : List α}
  (h : List.Forall₂ r ps xs)

include weigh h

theorem last_of_joined {c : Char} {tail : List Char}
    (same : joined [','] ps ++ c :: tail = joined [','] (xs.map text)) :
    ∃ p x, x ∈ xs ∧ r p x ∧ text x = p ++ c :: tail := by
  cases h with
  | nil => cases same
  | @cons p x ps xs first rest =>
    rw [List.map_cons, joined_eq_glue, joined_eq_glue, List.length_map, ← rest.length_eq,
      ← List.map_cons] at same
    exact last_of_glue (heavy_commas _) weigh (by simp) (.cons first rest) same

theorem joined_inj (same : joined [','] ps = joined [','] (xs.map text)) : ps = xs.map text := by
  cases h with
  | nil => rfl
  | @cons p x ps xs first rest =>
    rw [List.map_cons, joined_eq_glue, joined_eq_glue, List.length_map, ← rest.length_eq] at same
    have weights : List.Forall₂ (fun p p' => weight p = weight p') (p :: ps)
        (text x :: xs.map text) := by
      rw [← List.map_cons, List.forall₂_map_right_iff]
      exact (List.Forall₂.cons first rest).imp weigh
    exact glue_inj (heavy_commas _) (by simp) weights same

end

/-- The first of at least two glued pieces, with light characters before it on one side or the
other. -/
theorem head_of_glue {α : Type} {r : List Char → α → Prop} {text : α → List Char}
    {separators : List Char} (heavy : ∀ c ∈ separators, isLight c = false)
    (weigh : ∀ p x, r p x → weight p = weight (text x)) {ps : List (List Char)} {xs : List α}
    (fits : separators.length + 1 = ps.length) (joins : 1 ≤ separators.length)
    (h : List.Forall₂ r ps xs) {lead lead' tail tail' : List Char} (light : weight lead = 0)
    (light' : weight lead' = 0)
    (same : lead ++ glue separators ps ++ tail = lead' ++ glue separators (xs.map text) ++ tail') :
    ∃ p x, p ∈ ps ∧ x ∈ xs ∧ r p x ∧ lead ++ p = lead' ++ text x := by
  cases separators with
  | nil => cases joins
  | cons c separators =>
    have hc := heavy c List.mem_cons_self
    cases h with
    | nil => cases fits
    | @cons p x ps xs first rest =>
      have cuts : (lead ++ p) ++ c :: (glue separators ps ++ tail) =
          (lead' ++ text x) ++ c :: (glue separators (xs.map text) ++ tail') := by
        simpa [glue] using same
      have whole := append_heavy_inj hc hc
        (by rw [weight_append, weight_append, light, light', weigh _ _ first]) cuts
      exact ⟨_, _, List.mem_cons_self, List.mem_cons_self, first, whole.1⟩

theorem weight_replicate_paren (k : Nat) : weight (List.replicate k '(') = 0 := by
  rw [weight_eq_zero_iff]
  intro c hc
  rw [List.eq_of_mem_replicate hc]
  rfl

theorem append_paren_inj {xs xs' ys ys' : List Char} (hx : '(' ∉ xs) (hx' : '(' ∉ xs')
    (h : xs ++ '(' :: ys = xs' ++ '(' :: ys') : xs = xs' ∧ ys = ys' := by
  rcases append_cons_cases h with ⟨first, -, rest⟩ | ⟨ms, rfl⟩ | ⟨ms, rfl, -⟩
  · exact ⟨first, rest⟩
  · simp at hx'
  · simp at hx

/-- What ends with a character that may end it early. -/
theorem append_singleton_cases {c : Char} {xs ys zs : List Char} (h : xs ++ [c] = ys ++ c :: zs) :
    xs = ys ∧ zs = [] ∨ ∃ ws, xs = ys ++ c :: ws := by
  rcases List.eq_nil_or_concat zs with rfl | ⟨ws, d, rfl⟩
  · exact .inl ⟨List.append_inj_left' h rfl, rfl⟩
  · right
    refine ⟨ws, ?_⟩
    have split : ys ++ c :: (ws ++ [d]) = (ys ++ c :: ws) ++ [d] := by simp
    rw [List.concat_eq_append, split] at h
    exact List.append_inj_left' h rfl

theorem joined_three_aligned {a b c a' b' c' tail : List Char} (ha : weight a = weight a')
    (hb : weight b = weight b')
    (h : joined [','] [a, b, c] ++ tail = joined [','] [a', b', c']) :
    a = a' ∧ b = b' ∧ c' = c ++ tail := by
  simp only [joined, List.append_assoc, List.cons_append, List.nil_append] at h
  obtain ⟨rfl, -, h⟩ := append_heavy_inj rfl rfl ha h
  obtain ⟨rfl, -, h⟩ := append_heavy_inj rfl rfl hb h
  exact ⟨rfl, rfl, h.symm⟩

end Scan

end CellFormula
