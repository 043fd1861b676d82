import CellFormula.Proofs.Comparisons
import CellFormula.Proofs.Misplaced

/-!
# Trees that survive their text

A tree is read back from its text exactly when the text of every node is cut where it was put
together, the text does not begin with an equals sign, and the levels suffice. Not all trees that
are read from some text are of that kind.
-/

namespace CellFormula

namespace Reading

open Text Scan Nesting Formula

/-- The text of the node is cut into the texts of its children. -/
def Faithful (known : Registry) (spelling : EqualitySpelling) : Formula → Prop
  | .chain operands (.perPair operators) =>
    let interior := writeChain spelling operators operands
    outline known ('(' :: interior ++ [')']) = .inside interior ∧
      outline known interior = .chain (operands.map (write spelling)) operators
  | .chain _ (.shared _) => False
  | .conditional comparator left right whenTrue whenFalse =>
    outline known ((Formula.conditional comparator left right whenTrue whenFalse).write spelling) =
      .conditional comparator (left.write spelling) (some (right.write spelling))
        (whenTrue.write spelling) (whenFalse.write spelling)
  | .call name arguments => name = lookupName ∧
    outline known ((Formula.call name arguments).write spelling) =
      .lookup (arguments.map (write spelling))
  | leaf => Trimmed (leaf.write spelling) ∧ outline known (leaf.write spelling) = .leaf leaf.norm

section

variable {known : Registry} {spelling : EqualitySpelling}

/-- The arguments of a conditional are where they were written, once their weights agree. -/
theorem conditional_arguments {comparator : Comparator} {l r t f : Formula}
    {word rest test whenTrue whenFalse tail : List Char} (last : NotCutShort known spelling f)
    (head : IsWord .conditional word)
    (total : weight test =
      weight (l.write spelling ++ spelling.write comparator ++ r.write spelling))
    (spellsT : Spells known spelling whenTrue t) (spellsF : Spells known spelling whenFalse f)
    (same : (Formula.conditional comparator l r t f).write spelling =
      word ++ '(' :: joined [','] [test, whenTrue, whenFalse] ++ ')' :: rest ++ tail) :
    tail = [] ∧ test = l.write spelling ++ spelling.write comparator ++ r.write spelling ∧
      whenTrue = t.write spelling ∧ whenFalse = f.write spelling := by
  have same : "IF".toList ++ '(' :: (joined [','] [l.write spelling ++
      spelling.write comparator ++ r.write spelling, t.write spelling, f.write spelling] ++ [')']) =
        word ++ '(' :: (joined [','] [test, whenTrue, whenFalse] ++ ')' :: (rest ++ tail)) := by
    rw [write_conditional_eq] at same
    simpa using same
  obtain ⟨-, same⟩ := append_paren_inj isWord_if.not_mem_paren head.not_mem_paren same
  rcases append_singleton_cases same with ⟨same, none⟩ | ⟨ws, same⟩
  · have same : joined [','] [test, whenTrue, whenFalse] ++ [] = _ :=
      (List.append_nil _).trans same.symm
    obtain ⟨first, second, third⟩ := joined_three_aligned total spellsT.weight_eq same
    exact ⟨(List.append_eq_nil_iff.mp none).2, first, second, by rw [third, List.append_nil]⟩
  · obtain ⟨-, -, cut⟩ := joined_three_aligned total spellsT.weight_eq same.symm
    exact absurd cut (last whenFalse ')' ws spellsF (.inl rfl))

/-- A text that spells a conditional and begins its text is all of it, with each part in its
place. -/
theorem conditional_whole {comparator : Comparator} {l r t f : Formula} {p tail : List Char}
    (short : NotCutShort known spelling l) (late : NotCutLate known spelling r)
    (last : NotCutShort known spelling f)
    (h : Spells known spelling p (.conditional comparator l r t f))
    (same : (Formula.conditional comparator l r t f).write spelling = p ++ tail) :
    tail = [] ∧ Faithful known spelling (.conditional comparator l r t f) ∧
      Spells known spelling (l.write spelling) l ∧ Spells known spelling (r.write spelling) r ∧
        Spells known spelling (t.write spelling) t ∧
          Spells known spelling (f.write spelling) f := by
  rcases h.cases with ⟨inside, rfl, -⟩ | direct
  · rw [write_conditional_eq] at same
    exact absurd (List.cons.inj same).1 (by decide)
  · cases direct with
    | comparison head whole sides cut spellsL spellsR spellsT spellsF =>
      have total := weight_comparison sides spelling
      rw [spellsL.weight_eq, spellsR.weight_eq, ← weight_append, ← weight_append] at total
      obtain ⟨rfl, written, rfl, rfl⟩ :=
        conditional_arguments last head total spellsT spellsF (whole ▸ same)
      obtain ⟨rfl, rfl⟩ := comparison_aligned sides written spellsL.weight_eq
        (fun xs => short _ '=' xs spellsL (.inr rfl))
        (fun xs => late xs '=' _ spellsR (.inl rfl))
      rw [List.append_nil] at same
      refine ⟨rfl, ?_, spellsL, spellsR, spellsT, spellsF⟩
      rw [Faithful, same]
      exact cut
    | @bare word rest test _ _ _ _ _ _ head whole absent level zero spellsL spellsT spellsF =>
      -- Writing puts in an equality at top level, and this condition would have none.
      have total : weight test = weight (l.write spelling ++ spelling.write .equal ++
          r.write spelling) := by
        rw [weight_append, weight_append, ← spellsL.weight_eq, zero]
        cases spelling <;> rfl
      obtain ⟨-, written, -⟩ :=
        conditional_arguments last head total spellsT spellsF (whole ▸ same)
      rw [zero] at written
      exact absurd absent (comparison?_ne_none level written)

theorem lookup_whole {arguments : List Formula} {p tail : List Char}
    (each : ∀ x ∈ arguments, NotCutShort known spelling x)
    (h : Spells known spelling p (.lookup arguments))
    (same : (Formula.lookup arguments).write spelling = p ++ tail) :
    tail = [] ∧ Faithful known spelling (.lookup arguments) ∧
      ∀ x ∈ arguments, Spells known spelling (x.write spelling) x := by
  have text : (Formula.lookup arguments).write spelling = _ := write_lookup_eq spelling arguments
  rcases h.cases with ⟨inside, rfl, -⟩ | direct
  · rw [text] at same
    exact absurd (List.cons.inj same).1 (by decide)
  · cases direct with
    | @lookup word rest pieces _ head whole cut spelled =>
      have split : "LOOKUP".toList ++ '(' :: (joined [','] (arguments.map (write spelling)) ++
          [')']) = word ++ '(' :: (joined [','] pieces ++ ')' :: (rest ++ tail)) := by
        rw [text, whole] at same
        simpa using same
      obtain ⟨-, split⟩ := append_paren_inj isWord_lookup.not_mem_paren head.not_mem_paren split
      rcases append_singleton_cases split with ⟨content, none⟩ | ⟨ws, content⟩
      · obtain rfl : tail = [] := (List.append_eq_nil_iff.mp none).2
        obtain rfl := joined_inj (fun _ _ h => h.weight_eq) spelled content.symm
        rw [List.append_nil] at same
        refine ⟨rfl, ?_, List.forall₂_same.mp (List.forall₂_map_left_iff.mp spelled)⟩
        rw [Formula.lookup] at same
        rw [Formula.lookup, Faithful, same]
        exact ⟨rfl, cut⟩
      · obtain ⟨p', x, mem, spells, within⟩ :=
          last_of_joined (fun _ _ h => h.weight_eq) spelled content.symm
        exact absurd within (each x mem p' ')' ws spells (.inl rfl))

section

variable {operators : List Operator} {pieces : List (List Char)} {operands : List Formula}
  {tail : List Char} (count : pieces.length = operators.length + 1) (joins : 1 ≤ operators.length)
  (solid : ∀ p ∈ pieces, ∀ qs ops, outline known p ≠ .chain qs ops)
  (spelled : List.Forall₂ (Spells known spelling) pieces operands)

include count joins solid spelled

/-- Without its parentheses a chain would begin with an operand that they open. -/
theorem chain_not_bare (short : ∀ x ∈ operands, NotCutShort known spelling x) :
    (Formula.chain operands (.perPair operators)).write spelling ≠
      glue (operators.map Operator.symbol) pieces ++ tail := by
  intro same
  rw [write_chain_glue (spelled.length_eq.symm.trans count)] at same
  obtain ⟨p, x, hp, hx, spellsX, opened⟩ := head_of_chain count joins spelled
    (show weight [] = 0 from rfl) (show weight ['('] = 0 from rfl)
    (show [] ++ _ ++ tail = ['('] ++ _ ++ [')'] by simpa using same.symm)
  rw [List.nil_append, List.singleton_append] at opened
  subst opened
  exact not_opened (short x hx) (solid _ hp) spellsX

/-- In two parentheses, the inner one would belong to the first operand. -/
theorem chain_not_doubled (late : ∀ x ∈ operands, NotCutLate known spelling x) (k : Nat) :
    (Formula.chain operands (.perPair operators)).write spelling ≠
      '(' :: (List.replicate (k + 1) '(' ++
        glue (operators.map Operator.symbol) pieces ++ tail) := by
  intro same
  rw [write_chain_glue (spelled.length_eq.symm.trans count), List.cons_append] at same
  obtain ⟨p, x, hp, hx, spellsX, within⟩ := head_of_chain count joins spelled
    (weight_replicate_paren (k + 1)) (show weight [] = 0 from rfl)
    (show _ ++ _ ++ tail = [] ++ _ ++ [')'] by simpa using (List.cons.inj same).2.symm)
  rw [List.replicate_succ', List.append_assoc, List.nil_append] at within
  exact late x hx _ '(' p spellsX (.inr ⟨rfl, solid p hp⟩) within.symm

end

/-- Before the operands of a chain stands the one parenthesis that is written, and no other. -/
theorem chain_whole {operands : List Formula} {operators : Operators} {p tail : List Char}
    (short : ∀ x ∈ operands, NotCutShort known spelling x)
    (late : ∀ x ∈ operands, NotCutLate known spelling x)
    (h : Spells known spelling p (.chain operands operators))
    (same : (Formula.chain operands operators).write spelling = p ++ tail) :
    tail = [] ∧ Faithful known spelling (.chain operands operators) ∧
      ∀ x ∈ operands, Spells known spelling (x.write spelling) x := by
  rcases h.cases with ⟨inside, rfl, wrapped, inner⟩ | direct
  · obtain ⟨k, direct, rfl, spells⟩ := inner.unwrap
    cases spells with
    | @chain operators pieces _ cut whole count joins solid spelled =>
      cases k with
      | zero =>
        have heavy := heavy_symbols operators
        have fits : (operators.map Operator.symbol).length + 1 = pieces.length := by simp [count]
        have counts := spelled.length_eq.symm.trans count
        have split : glue (operators.map Operator.symbol) (operands.map (write spelling)) ++ [')'] =
            direct ++ ')' :: tail := by
          rw [write_chain_glue counts] at same
          simpa using same
        rcases append_singleton_cases split with ⟨content, rfl⟩ | ⟨ws, content⟩
        · have weights : List.Forall₂ (fun p q => weight p = weight q) pieces
              (operands.map (write spelling)) := by
            rw [List.forall₂_map_right_iff]
            exact spelled.imp fun _ _ h => h.weight_eq
          obtain rfl := glue_inj heavy fits weights (whole.symm.trans content.symm)
          have interior : writeChain spelling operators operands = direct := by
            rw [writeChain_eq_glue spelling counts.symm, whole]
          refine ⟨rfl, ⟨?_, ?_⟩, List.forall₂_same.mp (List.forall₂_map_left_iff.mp spelled)⟩
          · simpa [interior] using wrapped
          · rw [interior]
            exact cut
        · rw [whole] at content
          obtain ⟨p, x, hx, spellsX, within⟩ :=
            last_of_glue heavy (fun _ _ h => h.weight_eq) fits spelled content.symm
          exact absurd within (short x hx p ')' ws spellsX (.inl rfl))
      | succ k =>
        apply absurd _ (chain_not_doubled count joins solid spelled late k)
        · exact List.replicate (k + 1) ')' ++ ')' :: tail
        · rw [same, whole]
          simp
  · cases direct with
    | chain cut whole count joins solid spelled =>
      rw [whole] at same
      exact absurd same (chain_not_bare count joins solid spelled short)

/-- Cuts among light characters fall where the texts of the children end. -/
theorem in_place (f : Formula) : NotCutShort known spelling f ∧ NotCutLate known spelling f := by
  induction f using Formula.induction with
  | cell | number | text => exact leaf_in_place rfl
  | chain operands operators ih =>
    refine ⟨?_, chain_notCutLate fun x hx => (ih x hx).2⟩
    intro p c rest h _ same
    cases (chain_whole (fun x hx => (ih x hx).1) (fun x hx => (ih x hx).2) h same).1
  | conditional comparator l r t f ihl ihr iht ihf =>
    refine ⟨?_, notCutLate_of_heavy (write_conditional_eq spelling comparator l r t f) rfl⟩
    intro p c rest h _ same
    cases (conditional_whole ihl.1 ihr.2 ihf.1 h same).1
  | call name arguments ih =>
    by_cases lookup : name = lookupName
    · subst lookup
      refine ⟨?_, notCutLate_of_heavy (write_lookup_eq spelling arguments) rfl⟩
      intro p c rest h _ same
      cases (lookup_whole (fun x hx => (ih x hx).1) h same).1
    · have none := write_call_of_ne spelling lookup arguments
      constructor <;>
        · intro _ _ _ _ _ same
          rw [none] at same
          simp at same

theorem faithful_leaf {f : Formula} (leaf : f.isLeaf = true)
    (h : Spells known spelling (f.write spelling) f) : Faithful known spelling f := by
  have trimmed := h.trimmed
  rcases h.cases with ⟨inside, whole, -, inner⟩ | direct
  · rcases inner.leaf leaf with le | free
    · have lengths := congrArg List.length whole
      rw [List.length_append, List.length_cons] at lengths
      omega
    · obtain ⟨opening, -⟩ := free '(' (by rw [whole]; simp)
      exact absurd rfl opening
  · cases f with
    | cell name =>
      cases direct with
      | cell whole outlined => exact ⟨trimmed, outlined⟩
    | text value =>
      rw [write_text] at direct
      cases direct with
      | text quote whole outlined => exact ⟨trimmed, outlined⟩
      | empty whole => cases whole
    | number x =>
      cases direct with
      | number finite value => exact ⟨trimmed, outline_number known finite⟩
    | chain | conditional | call => cases leaf

/-- A tree that its own text spells is faithful at every node. -/
theorem faithful_of_spells {f : Formula}
    (h : Spells known spelling (f.write spelling) f) : f.Every (Faithful known spelling) := by
  induction f using Formula.induction with
  | cell | number | text => exact faithful_leaf rfl h
  | chain operands operators ih =>
    obtain ⟨-, node, children⟩ := chain_whole (fun x _ => (in_place x).1)
      (fun x _ => (in_place x).2) h (List.append_nil _).symm
    exact ⟨node, everyOf_iff.mpr fun x hx => ih x hx (children x hx)⟩
  | conditional comparator l r t f ihl ihr iht ihf =>
    obtain ⟨-, node, hl, hr, ht, hf⟩ := conditional_whole (in_place l).1 (in_place r).2
      (in_place f).1 h (List.append_nil _).symm
    exact ⟨node, ihl hl, ihr hr, iht ht, ihf hf⟩
  | call name arguments ih =>
    by_cases lookup : name = lookupName
    · subst lookup
      obtain ⟨-, node, children⟩ := lookup_whole (fun x _ => (in_place x).1) h
        (List.append_nil _).symm
      exact ⟨node, everyOf_iff.mpr fun x hx => ih x hx (children x hx)⟩
    · rcases h.cases with ⟨inside, whole, -⟩ | direct
      · rw [write_call_of_ne spelling lookup] at whole
        cases whole
      · cases direct with
        | lookup => exact absurd rfl lookup

end

end Reading

end CellFormula
