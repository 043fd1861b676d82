import CellFormula.Proofs.Recognition
import CellFormula.Proofs.Spelling

/-!
# Misplaced cuts

A cut may fall inside the text of a child, but then the pieces cannot spell the children: the text
of a tree does not begin or end with a shorter text that spells the same tree, when a parenthesis or
an equals sign is what separates that text from the rest. Heavy characters separate of themselves,
since weights agree.
-/

namespace CellFormula

namespace Reading

open Text Scan Nesting Formula

section

variable {known : Registry} {spelling : EqualitySpelling}

theorem head_ne_paren {keyword : Keyword} {word : List Char} (head : IsWord keyword word)
    (xs ys : List Char) : word ++ xs ≠ '(' :: ys := by
  obtain ⟨c, rest, rfl, -⟩ := head.head?
  intro same
  have part : isWordPart c = true := head.isWordPart c List.mem_cons_self
  rw [(List.cons.inj same).1] at part
  cases part

/-- No shorter text that spells the tree begins its text before a closing parenthesis or an equals
sign. -/
def NotCutShort (known : Registry) (spelling : EqualitySpelling) (f : Formula) : Prop :=
  ∀ p c rest, Spells known spelling p f → c = ')' ∨ c = '=' → f.write spelling ≠ p ++ c :: rest

/-- No shorter text that spells the tree ends its text after an equals sign, nor after an opening
parenthesis unless operators join it. -/
def NotCutLate (known : Registry) (spelling : EqualitySpelling) (f : Formula) : Prop :=
  ∀ lead c p, Spells known spelling p f →
    c = '=' ∨ c = '(' ∧ (∀ ps ops, outline known p ≠ .chain ps ops) →
      f.write spelling ≠ lead ++ c :: p

theorem leaf_in_place {f : Formula} (leaf : f.isLeaf = true) :
    NotCutShort known spelling f ∧ NotCutLate known spelling f := by
  constructor
  · intro p c rest h hc same
    rcases h.leaf leaf with le | free
    · have lengths := congrArg List.length same
      rw [List.length_append, List.length_cons] at lengths
      omega
    · obtain ⟨-, closing, equals⟩ := free c (by rw [same]; simp)
      rcases hc with rfl | rfl
      · exact closing rfl
      · exact equals rfl
  · intro lead c p h hc same
    rcases h.leaf leaf with le | free
    · have lengths := congrArg List.length same
      rw [List.length_append, List.length_cons] at lengths
      omega
    · obtain ⟨opening, -, equals⟩ := free c (by rw [same]; simp)
      rcases hc with rfl | ⟨rfl, -⟩
      · exact equals rfl
      · exact opening rfl

/-- A text that begins with something heavy cannot begin with anything light. -/
theorem notCutLate_of_heavy {f : Formula} {d : Char} {rest : List Char}
    (shape : f.write spelling = d :: rest) (heavy : isLight d = false) :
    NotCutLate known spelling f := by
  intro lead c p h hc same
  have total := h.weight_eq
  have light : isLight c = true := by
    rcases hc with rfl | ⟨rfl, -⟩ <;> rfl
  rw [same, weight_append, weight_light light] at total
  rw [shape] at same
  cases lead with
  | nil =>
    obtain ⟨rfl, -⟩ := List.cons.inj same
    rw [heavy] at light
    cases light
  | cons b lead =>
    obtain ⟨rfl, -⟩ := List.cons.inj same
    rw [weight_heavy heavy] at total
    omega

/-- An operand in one parenthesis more, as it stands before an operator. -/
theorem not_opened {f : Formula} (short : NotCutShort known spelling f)
    (solid : ∀ ps ops, outline known ('(' :: f.write spelling) ≠ .chain ps ops) :
    ¬ Spells known spelling ('(' :: f.write spelling) f := by
  intro h
  rcases h.cases with ⟨inside, whole, -, spells⟩ | direct
  · exact short inside ')' [] spells (.inl rfl) (List.cons.inj whole).2
  · generalize hp : '(' :: f.write spelling = p at direct
    cases direct with
    | cell whole =>
      have lengths := congrArg List.length (hp.trans whole)
      rw [write_cell, List.length_cons] at lengths
      omega
    | text quote whole =>
      rw [← (List.cons.inj (hp.trans whole)).1] at quote
      cases quote
    | empty whole => cases hp.trans whole
    | number finite value =>
      have none : number? p = none := by
        rw [← hp]
        exact number?_eq_none
          (Numeral.ofText?_eq_none _ rfl (by decide) (by decide) (by decide))
      rw [none] at value
      cases value
    | chain cut => exact solid _ _ (hp ▸ cut)
    | comparison head whole | bare head whole | lookup head whole =>
      rw [List.append_assoc] at whole
      exact head_ne_paren head _ _ (hp.trans whole).symm

theorem write_chain_glue {operators : List Operator} {operands : List Formula}
    (fits : operands.length = operators.length + 1) :
    (Formula.chain operands (.perPair operators)).write spelling =
      '(' :: glue (operators.map Operator.symbol) (operands.map (write spelling)) ++ [')'] := by
  rw [write_chain, Operators.toList, writeChain_eq_glue spelling fits.symm]

/-- The first operand of a chain, with light characters before it on one side or the other. -/
theorem head_of_chain {operators : List Operator} {pieces : List (List Char)}
    {operands : List Formula} (count : pieces.length = operators.length + 1)
    (joins : 1 ≤ operators.length)
    (spelled : List.Forall₂ (Spells known spelling) pieces operands)
    {lead lead' tail tail' : List Char} (light : weight lead = 0) (light' : weight lead' = 0)
    (same : lead ++ glue (operators.map Operator.symbol) pieces ++ tail =
      lead' ++ glue (operators.map Operator.symbol) (operands.map (write spelling)) ++ tail') :
    ∃ p x, p ∈ pieces ∧ x ∈ operands ∧ Spells known spelling p x ∧
      lead ++ p = lead' ++ x.write spelling :=
  head_of_glue (heavy_symbols operators) (fun _ _ h => h.weight_eq) (by simp [count])
    (by simpa using joins) spelled light light' same

/-- What stands before the first operand: a parenthesis alone, or more that is light and at the end
`c` or a parenthesis. -/
theorem opening_cases {lead rest rest' : List Char} {c : Char} {k : Nat} (light : weight lead = 0)
    (hc : isLight c = true) (same : '(' :: rest = lead ++ c :: (List.replicate k '(' ++ rest')) :
    (lead = [] ∧ c = '(' ∧ k = 0) ∨
      ∃ front d, weight (front ++ [d]) = 0 ∧ (d = c ∨ d = '(') ∧ rest = front ++ d :: rest' := by
  cases k with
  | zero =>
    cases lead with
    | nil => exact .inl ⟨rfl, (List.cons.inj same).1.symm, rfl⟩
    | cons b lead =>
      obtain ⟨rfl, same⟩ := List.cons.inj same
      refine .inr ⟨lead, c, ?_, .inl rfl, by simpa using same⟩
      rw [weight_light rfl] at light
      rw [weight_append, light, weight_light hc]
      rfl
  | succ k =>
    have opens := weight_replicate_paren (k + 1)
    rw [List.replicate_succ', weight_append] at opens
    rw [List.replicate_succ', List.append_assoc] at same
    right
    cases lead with
    | nil => exact ⟨List.replicate k '(', '(', by rw [weight_append]; exact opens, .inr rfl,
        (List.cons.inj same).2⟩
    | cons b lead =>
      obtain ⟨rfl, same⟩ := List.cons.inj same
      refine ⟨lead ++ c :: List.replicate k '(', '(', ?_, .inr rfl, by simpa using same⟩
      rw [weight_light rfl] at light
      rw [List.append_assoc, List.cons_append, weight_append, weight_light hc, weight_append, light]
      omega

theorem chain_notCutLate {operands : List Formula} {operators : Operators}
    (late : ∀ x ∈ operands, NotCutLate known spelling x) :
    NotCutLate known spelling (.chain operands operators) := by
  intro lead c p h hc same
  have light : isLight c = true := by
    rcases hc with rfl | ⟨rfl, -⟩ <;> rfl
  have total := h.weight_eq
  rw [same, weight_append, weight_light light] at total
  obtain ⟨k, direct, rfl, spells⟩ := h.unwrap
  cases spells with
  | @chain operators pieces _ cut whole count joins solid spelled =>
    rw [write_chain_glue (spelled.length_eq.symm.trans count)] at same
    have same : '(' :: (glue (operators.map Operator.symbol) (operands.map (write spelling)) ++
        [')']) = lead ++ c :: (List.replicate k '(' ++
          (glue (operators.map Operator.symbol) pieces ++ List.replicate k ')')) := by
      rw [whole] at same
      simpa using same
    rcases opening_cases (by omega) light same with ⟨rfl, rfl, rfl⟩ | ⟨front, d, lead, hd, same⟩
    · rcases hc with other | ⟨-, apart⟩
      · cases other
      · exact apart _ _ (by simpa using cut)
    · obtain ⟨p, x, hp, hx, spellsX, within⟩ := head_of_chain count joins spelled lead
        (show weight [] = 0 from rfl)
        (show _ ++ _ ++ List.replicate k ')' = [] ++ _ ++ [')'] by simpa using same.symm)
      rw [List.append_assoc, List.nil_append] at within
      refine late x hx front d p spellsX ?_ within.symm
      have paren : d = '(' → d = '=' ∨ d = '(' ∧ ∀ ps ops, outline known p ≠ .chain ps ops :=
        fun paren => .inr ⟨paren, solid p hp⟩
      rcases hd with rfl | rfl
      · exact hc.elim .inl fun opening => paren opening.1
      · exact paren rfl

end

end Reading

end CellFormula
