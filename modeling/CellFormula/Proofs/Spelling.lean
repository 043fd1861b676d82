import CellFormula.Proofs.Losses

/-!
# Texts that spell a tree

A text spells a tree if it reads as the tree and weighs no more than the text of the tree. Then
nothing heavy in it was left out: apart from parentheses around the whole, such a text is just the
spellings of the children with the separators between them.
-/

namespace CellFormula

namespace Reading

open Text Scan Nesting Formula

/-- The text reads as the tree, up to the signs of zeros, and nothing heavy in it is lost. -/
def Spells (known : Registry) (spelling : EqualitySpelling) (cs : List Char) (f : Formula) :
    Prop :=
  ∃ limit levels g, expression ⟨known, limit⟩ levels cs = .ok g ∧ g.same f = true ∧
    weight cs = weight (f.write spelling)

/-- A text that spells a tree, not in parentheses: what it is made of. -/
inductive Direct (known : Registry) (spelling : EqualitySpelling) (cs : List Char) :
    Formula → Prop where
  | cell {name : String} (whole : cs = name.toList)
    (leaf : outline known cs = .leaf (.cell name)) : Direct known spelling cs (.cell name)
  | text {q : Char} {value : String} (quote : isQuote q = true)
    (whole : cs = q :: value.toList ++ [q]) (leaf : outline known cs = .leaf (.text value)) :
    Direct known spelling cs (.text value)
  | empty (whole : cs = []) : Direct known spelling cs (.text "")
  | number {x y : Binary64} (finite : x.isFinite = true) (value : number? cs = some y)
    (leaf : outline known cs = .leaf (.number y)) : Direct known spelling cs (.number x)
  | chain {operators : List Operator} {pieces : List (List Char)} {operands : List Formula}
    (cut : outline known cs = .chain pieces operators)
    (whole : cs = glue (operators.map Operator.symbol) pieces)
    (count : pieces.length = operators.length + 1) (joins : 1 ≤ operators.length)
    (solid : ∀ p ∈ pieces, ∀ qs ops, outline known p ≠ .chain qs ops)
    (spelled : List.Forall₂ (Spells known spelling) pieces operands) :
    Direct known spelling cs (.chain operands (.perPair operators))
  | comparison {word rest test left right whenTrue whenFalse : List Char}
    {comparator : Comparator} {l r t f : Formula} (head : IsWord .conditional word)
    (whole : cs = word ++ '(' :: joined [','] [test, whenTrue, whenFalse] ++ ')' :: rest)
    (sides : comparison? test = some (comparator, left, right))
    (cut : outline known cs = .conditional comparator left (some right) whenTrue whenFalse)
    (spellsL : Spells known spelling left l) (spellsR : Spells known spelling right r)
    (spellsT : Spells known spelling whenTrue t) (spellsF : Spells known spelling whenFalse f) :
    Direct known spelling cs (.conditional comparator l r t f)
  | bare {word rest test whenTrue whenFalse : List Char} {l r t f : Formula}
    (head : IsWord .conditional word)
    (whole : cs = word ++ '(' :: joined [','] [test, whenTrue, whenFalse] ++ ')' :: rest)
    (absent : comparison? test = none) (level : start.run test = start)
    (zero : r.write spelling = ['0']) (spellsL : Spells known spelling test l)
    (spellsT : Spells known spelling whenTrue t) (spellsF : Spells known spelling whenFalse f) :
    Direct known spelling cs (.conditional .equal l r t f)
  | lookup {word rest : List Char} {pieces : List (List Char)} {arguments : List Formula}
    (head : IsWord .lookup word)
    (whole : cs = word ++ '(' :: joined [','] pieces ++ ')' :: rest)
    (cut : outline known cs = .lookup pieces)
    (spelled : List.Forall₂ (Spells known spelling) pieces arguments) :
    Direct known spelling cs (.lookup arguments)

section

variable {known : Registry} (spelling : EqualitySpelling) {limit levels : Nat}

theorem spells_of_weight {p : List Char} {g x : Formula}
    (h : expression ⟨known, limit⟩ levels p = .ok g) (same : g.same x = true) :
    weight (x.write spelling) ≤ weight p ∧
      (weight p ≤ weight (x.write spelling) → Spells known spelling p x) := by
  have le := weight_le_of_expression spelling h
  rw [write_eq_of_same spelling same] at le
  exact ⟨le, fun ge => ⟨limit, levels, g, h, same, Nat.le_antisymm ge le⟩⟩

theorem spells_of_weights {ps : List (List Char)} {gs xs : List Formula}
    (h : List.Forall₂ (fun p g => expression ⟨known, limit⟩ levels p = .ok g) ps gs)
    (same : sameListBy Binary64.same gs xs = true) :
    weights (xs.map (write spelling)) ≤ weights ps ∧
      (weights ps ≤ weights (xs.map (write spelling)) →
        List.Forall₂ (Spells known spelling) ps xs) := by
  induction h generalizing xs with
  | nil =>
    cases xs with
    | nil => exact ⟨Nat.le_refl _, fun _ => .nil⟩
    | cons x xs => cases same
  | cons first rest ih =>
    cases xs with
    | nil => cases same
    | cons x xs =>
      obtain ⟨sameX, sameXs⟩ := Bool.and_eq_true_iff.mp same
      obtain ⟨le, spells⟩ := spells_of_weight spelling first sameX
      obtain ⟨leRest, spellsRest⟩ := ih sameXs
      rw [List.map_cons, weights_cons, weights_cons]
      exact ⟨by omega, fun ge => .cons (spells (by omega)) (spellsRest (by omega))⟩

end

section

variable {known : Registry} {spelling : EqualitySpelling}

theorem Spells.trimmed {cs : List Char} {f : Formula} (h : Spells known spelling cs f) :
    Trimmed cs := by
  obtain ⟨limit, levels, g, hg, same, total⟩ := h
  have again : expression ⟨known, limit⟩ levels (trim cs) = .ok g := by
    cases levels with
    | zero => cases hg
    | succ levels => rwa [expression_succ, trim_trim, ← expression_succ]
  have le := (spells_of_weight spelling again same).1
  exact trimmed_of_weight_le (by omega)

/-- A conditional that loses nothing has three arguments with no blanks around them. -/
theorem rawPieces_of_conditional {cs word content rest test t f : List Char}
    {more : List (List Char)} (head : IsWord .conditional word)
    (whole : cs = word ++ '(' :: content ++ ')' :: rest)
    (pieces : splitTopLevel ',' content = test :: t :: f :: more)
    (most : weight cs ≤ weight test + weight t + weight f + 4) :
    rawPieces ',' .start content = [test, t, f] := by
  have call := weight_call_le head whole
  have two : Keyword.conditional.name.length = 2 := rfl
  have budget := weights_splitTopLevel content
  rw [pieces] at budget
  simp only [weights_cons, List.length_cons] at budget
  cases more with
  | nil =>
    rw [← pieces]
    apply rawPieces_of_weights
    simp only [pieces, weights_cons, weights_nil, List.length_cons, List.length_nil]
    omega
  | cons p more =>
    rw [List.length_cons] at budget
    omega

/-- What a comma ends, ends at top level. -/
theorem run_of_rawPieces {n : Nesting} {cs p q : List Char} {ps : List (List Char)}
    (h : rawPieces ',' n cs = p :: q :: ps) : n.run p = start := by
  induction cs generalizing n p with
  | nil => cases h
  | cons c cs ih =>
    simp only [rawPieces] at h
    split at h
    · next cut =>
      obtain ⟨rfl, top⟩ := cut
      rw [← (List.cons.inj h).1]
      rw [step_of_isPlain rfl] at top
      exact isTopLevel_iff.mp top
    · cases rest : rawPieces ',' (n.step c) cs with
      | nil => exact absurd rest (rawPieces_ne_nil _ _ _)
      | cons p' ps' =>
        rw [rest] at h
        obtain ⟨rfl, rfl⟩ := List.cons.inj h
        rw [run_cons]
        exact ih rest

section

variable {limit levels : Nat} {cs : List Char} {fs : List Formula} {f : Formula}

theorem Direct.of_chain {operators : List Operator}
    (cut : outline known cs = .chain ((Segments.raw cs).map trim) operators)
    (whole : cs = glue (operators.map Operator.symbol) (Segments.raw cs))
    (count : (Segments.raw cs).length = operators.length + 1) (joins : 1 ≤ operators.length)
    (hfs : List.Forall₂ (fun t g => expression ⟨known, limit⟩ levels t = .ok g)
      ((Segments.raw cs).map trim) fs)
    (same : (Formula.chain fs (.perPair operators)).same f = true)
    (total : weight cs = weight (f.write spelling)) : Direct known spelling cs f := by
  obtain ⟨xs, rfl, children⟩ := same_chain same
  obtain ⟨le, spelled⟩ := spells_of_weights spelling hfs children
  have lengths := hfs.length_eq
  have counts := (sameListBy_iff.mp children).length_eq
  have trims := weights_map_trim_le (Segments.raw cs)
  have budget := congrArg weight whole
  rw [List.length_map] at lengths
  rw [weight_glue (heavy_symbols operators) (by simp [count]), List.length_map] at budget
  rw [weight_write_chain spelling (by omega)] at total
  have kept : (Segments.raw cs).map trim = Segments.raw cs := map_trim_of_weights (by omega)
  rw [kept] at cut spelled
  refine .chain cut whole count joins ?_ (spelled (by omega))
  intro p hp
  exact outline_ne_chain hp

theorem Direct.of_comparison {word content rest test left right whenTrue whenFalse : List Char}
    {more : List (List Char)} {comparator : Comparator} {l r t e : Formula}
    (head : IsWord .conditional word) (whole : cs = word ++ '(' :: content ++ ')' :: rest)
    (pieces : splitTopLevel ',' content = test :: whenTrue :: whenFalse :: more)
    (sides : comparison? test = some (comparator, left, right))
    (cut : outline known cs = .conditional comparator left (some right) whenTrue whenFalse)
    (hfs : List.Forall₂ (fun t g => expression ⟨known, limit⟩ levels t = .ok g)
      [left, right, whenTrue, whenFalse] [l, r, t, e])
    (same : (Formula.conditional comparator l r t e).same f = true)
    (total : weight cs = weight (f.write spelling)) : Direct known spelling cs f := by
  obtain ⟨_, _, _, _, rfl, sameL, sameR, sameT, sameF⟩ := same_conditional same
  obtain _ | ⟨hl, _ | ⟨hr, _ | ⟨ht, _ | ⟨hf, _⟩⟩⟩⟩ := hfs
  obtain ⟨leL, spellsL⟩ := spells_of_weight spelling hl sameL
  obtain ⟨leR, spellsR⟩ := spells_of_weight spelling hr sameR
  obtain ⟨leT, spellsT⟩ := spells_of_weight spelling ht sameT
  obtain ⟨leF, spellsF⟩ := spells_of_weight spelling hf sameF
  have test := weight_comparison sides spelling
  have budget := weight_conditional_le head whole pieces
  rw [weight_write_conditional] at total
  have cuts := joined_rawPieces ',' .start content
  rw [rawPieces_of_conditional head whole pieces (by omega)] at cuts
  rw [← cuts] at whole
  exact .comparison head whole sides cut (spellsL (by omega)) (spellsR (by omega))
    (spellsT (by omega)) (spellsF (by omega))

/-- A condition without a comparator spells one with a zero, which is light like the equality before
it. -/
theorem Direct.of_bare {word content rest test whenTrue whenFalse : List Char}
    {more : List (List Char)} {l t e : Formula}
    (head : IsWord .conditional word) (whole : cs = word ++ '(' :: content ++ ')' :: rest)
    (pieces : splitTopLevel ',' content = test :: whenTrue :: whenFalse :: more)
    (absent : comparison? test = none)
    (hfs : List.Forall₂ (fun t g => expression ⟨known, limit⟩ levels t = .ok g)
      [test, whenTrue, whenFalse] [l, t, e])
    (same : (Formula.conditional .equal l (.number (.zero false)) t e).same f = true)
    (total : weight cs = weight (f.write spelling)) : Direct known spelling cs f := by
  obtain ⟨_, _, _, _, rfl, sameL, sameR, sameT, sameF⟩ := same_conditional same
  obtain _ | ⟨hl, _ | ⟨ht, _ | ⟨hf, _⟩⟩⟩ := hfs
  obtain ⟨leL, spellsL⟩ := spells_of_weight spelling hl sameL
  obtain ⟨leT, spellsT⟩ := spells_of_weight spelling ht sameT
  obtain ⟨leF, spellsF⟩ := spells_of_weight spelling hf sameF
  have zero := (write_eq_of_same spelling sameR).symm
  have symbol : weight (spelling.write .equal) = 0 := by cases spelling <;> rfl
  have budget := weight_conditional_le head whole pieces
  rw [weight_write_conditional, zero] at total
  have none : weight ((Formula.number (.zero false)).write spelling) = 0 := rfl
  have raw := rawPieces_of_conditional head whole pieces (by omega)
  have cuts := joined_rawPieces ',' .start content
  rw [raw] at cuts
  rw [← cuts] at whole
  exact .bare head whole absent (run_of_rawPieces raw) zero (spellsL (by omega))
    (spellsT (by omega)) (spellsF (by omega))

theorem Direct.of_lookup {word content rest : List Char} (head : IsWord .lookup word)
    (whole : cs = word ++ '(' :: content ++ ')' :: rest)
    (cut : outline known cs = .lookup (splitTopLevel ',' content))
    (hfs : List.Forall₂ (fun t g => expression ⟨known, limit⟩ levels t = .ok g)
      (splitTopLevel ',' content) fs)
    (same : (Formula.lookup fs).same f = true) (total : weight cs = weight (f.write spelling)) :
    Direct known spelling cs f := by
  rw [Formula.lookup] at same
  obtain ⟨xs, rfl, children⟩ := same_call same
  obtain ⟨le, spelled⟩ := spells_of_weights spelling hfs children
  have lengths := hfs.length_eq
  have counts := (sameListBy_iff.mp children).length_eq
  have call := weight_call_le head whole
  have six : Keyword.lookup.name.length = 6 := rfl
  have budget := weights_splitTopLevel content
  have total := total.trans (weight_write_lookup spelling xs)
  have kept := joined_of_weights (show weight content ≤ _ by omega)
  have most : weights (splitTopLevel ',' content) ≤ weights (xs.map (write spelling)) := by
    cases xs with
    | nil =>
      rw [List.length_eq_zero_iff.mp (lengths.trans counts)]
      exact Nat.le_refl _
    | cons x xs =>
      rw [List.length_cons] at counts total
      omega
  rw [kept] at whole
  exact .lookup head whole cut (spelled most)

/-- A text that spells a tree is the tree directly, or stands in parentheses around one that
does. -/
theorem Spells.cases (h : Spells known spelling cs f) :
    (∃ inside, cs = '(' :: inside ++ [')'] ∧ outline known cs = .inside inside ∧
      Spells known spelling inside f) ∨ Direct known spelling cs f := by
  have trimmed := h.trimmed
  obtain ⟨limit, levels, g, hg, same, total⟩ := h
  cases levels with
  | zero => cases hg
  | succ levels =>
    rw [expression_succ, trimmed.trim_eq, rules_eq_read] at hg
    obtain ⟨fs, hfs, build⟩ := Outline.read_eq_ok_iff.mp hg
    generalize cut : outline known cs = o at hfs build
    cases Shape.of_eq cut with
    | refused e => cases build
    | quoted q value quote whole =>
      cases build
      rw [same_text same]
      exact .inr (.text quote (by rw [String.toList_ofList, whole]) cut)
    | empty whole =>
      cases build
      rw [same_text same]
      exact .inr (.empty whole)
    | number x value =>
      cases build
      obtain ⟨y, rfl, same⟩ := same_number same
      have finite := isFinite_of_same same (Option.filter_eq_some_iff.mp value).2
      exact .inr (.number finite value cut)
    | cell =>
      cases build
      rw [cellNamed] at same cut
      rw [same_cell same]
      exact .inr (.cell (by rw [String.toList_ofList]) cut)
    | group text whole =>
      cases build
      cases hfs with
      | cons first _ =>
        refine .inl ⟨text, whole, rfl, (spells_of_weight spelling first same).2 ?_⟩
        rw [← total, whole, List.cons_append, weight_light rfl, weight_append]
        exact Nat.le_add_right _ _
    | single text less =>
      cases build
      cases hfs with
      | cons first _ =>
        have le := (spells_of_weight spelling first same).1
        have := less trimmed
        omega
    | chain operators whole count joins =>
      cases build
      exact .inr (.of_chain cut whole count joins hfs same total)
    | comparison word content rest head whole pieces sides =>
      cases build
      exact .inr (.of_comparison head whole pieces sides cut hfs same total)
    | bare word content rest head whole pieces absent =>
      cases build
      exact .inr (.of_bare head whole pieces absent hfs same total)
    | lookup word content rest head whole =>
      cases build
      exact .inr (.of_lookup head whole cut hfs same total)

end

theorem Spells.weight_eq {cs : List Char} {f : Formula} (h : Spells known spelling cs f) :
    weight cs = weight (f.write spelling) := by
  obtain ⟨_, _, _, _, _, total⟩ := h
  exact total

theorem Spells.unwrap {cs : List Char} {f : Formula} (h : Spells known spelling cs f) :
    ∃ k direct, cs = List.replicate k '(' ++ direct ++ List.replicate k ')' ∧
      Direct known spelling direct f := by
  induction hn : cs.length using Nat.strongRecOn generalizing cs with
  | ind n ih =>
    rcases h.cases with ⟨inside, whole, -, inner⟩ | direct
    · have shorter : inside.length < n := by
        rw [← hn, whole, List.length_append, List.length_cons]
        omega
      obtain ⟨k, direct, rfl, spells⟩ := ih _ shorter inner rfl
      refine ⟨k + 1, direct, ?_, spells⟩
      rw [whole, List.replicate_succ, List.replicate_succ']
      simp
    · exact ⟨0, cs, by simp, direct⟩

/-- A text for a leaf is no shorter than the one that is written for it, except for a number or
nothing at all. -/
theorem Spells.leaf {cs : List Char} {f : Formula} (h : Spells known spelling cs f)
    (leaf : f.isLeaf = true) : (f.write spelling).length ≤ cs.length ∨
      ∀ c ∈ f.write spelling, c ≠ '(' ∧ c ≠ ')' ∧ c ≠ '=' := by
  obtain ⟨k, direct, rfl, spells⟩ := h.unwrap
  cases spells with
  | cell whole =>
    left
    rw [whole, write_cell]
    simp
    omega
  | text quote whole =>
    left
    rw [whole, write_text]
    simp
    omega
  | empty whole =>
    right
    intro c hc
    simp only [write_text, List.mem_append, List.mem_cons, List.not_mem_nil, or_false,
      String.toList_empty] at hc
    rcases hc with rfl | rfl
    all_goals decide
  | number finite value =>
    right
    intro c hc
    have none : ∀ d : Char, d.isDigit = false → d ≠ '.' → d ≠ '-' → c ≠ d := by
      rintro d digit point minus rfl
      exact Binary64.not_mem_toText finite digit point minus (write_number spelling _ ▸ hc)
    exact ⟨none '(' rfl (by decide) (by decide), none ')' rfl (by decide) (by decide),
      none '=' rfl (by decide) (by decide)⟩
  | chain | comparison | bare | lookup => cases leaf

end

end Reading

end CellFormula
