import CellFormula.Document.Node
import CellFormula.Proofs.Outline
import CellFormula.Proofs.ValidTrees

/-!
# Forms of a node

Which nodes describe a tree, and which of the nodes that describe one tree is written for it. A node
and its canonical form differ in three ways: a shared operator beside a list that is not empty, a
list that is empty, and the second spelling of equality.
-/

namespace CellFormula

open Reading (bind_eq_ok_iff mapM_eq_ok_iff forall₂_imp_of_mem)

namespace Operator

/-- The spellings of operators in nodes. -/
def spellings : List String := ["+", "-", "*", "/"]

theorem symbol_mem_spellings (op : Operator) : op.symbol.toString ∈ spellings := by
  cases op <;> decide

theorem ofSymbol_symbol (op : Operator) : ofSymbol op.symbol.toString = .ok op := by
  cases op <;> rfl

theorem symbol_of_ofSymbol {s : String} {op : Operator} (h : ofSymbol s = .ok op) :
    s = op.symbol.toString := by
  unfold ofSymbol ofSymbol? at h
  split at h
  · next c single =>
    cases found : ofChar? c with
    | none => simp [found] at h
    | some found' =>
      obtain rfl : found' = op := by simpa [found] using h
      obtain rfl := ofChar?_eq_some_iff.mp found
      rw [← String.toList_inj, single]
      cases found' <;> rfl
  · simp at h

theorem ofSymbol_eq_ok_iff {s : String} {op : Operator} :
    ofSymbol s = .ok op ↔ s = op.symbol.toString :=
  ⟨symbol_of_ofSymbol, fun h => h ▸ op.ofSymbol_symbol⟩

theorem exists_ofSymbol {s : String} (h : s ∈ spellings) : ∃ op, ofSymbol s = .ok op := by
  simp only [spellings, List.mem_cons, List.not_mem_nil, or_false] at h
  rcases h with rfl | rfl | rfl | rfl
  · exact ⟨.add, rfl⟩
  · exact ⟨.subtract, rfl⟩
  · exact ⟨.multiply, rfl⟩
  · exact ⟨.divide, rfl⟩

end Operator

namespace Comparator

/-- The spellings of comparators in nodes. -/
def symbols : List String := ["=", "==", "<>", "<", ">", "<=", ">="]

/-- Equality has two spellings and is written in the first. -/
def canonicalSymbol (s : String) : String :=
  if s = "==" then "=" else s

theorem ofSymbol_symbol (c : Comparator) : ofSymbol c.symbol = .ok c := by
  rw [ofSymbol, ofSymbol?_symbol]
  rfl

theorem symbol_of_ofSymbol {s : String} {c : Comparator} (h : ofSymbol s = .ok c) :
    s ∈ symbols ∧ c.symbol = canonicalSymbol s := by
  unfold ofSymbol ofSymbol? at h
  split at h
  · next equality =>
    obtain rfl : Comparator.equal = c := by simpa using h
    rcases equality with rfl | rfl <;> decide
  · iterate 5
      split at h
      · next spelled =>
        subst spelled
        obtain rfl := Except.ok.inj h
        decide
    cases h

theorem exists_ofSymbol {s : String} (h : s ∈ symbols) : ∃ c, ofSymbol s = .ok c := by
  simp only [symbols, List.mem_cons, List.not_mem_nil, or_false] at h
  rcases h with rfl | rfl | rfl | rfl | rfl | rfl | rfl
  · exact ⟨.equal, rfl⟩
  · exact ⟨.equal, rfl⟩
  · exact ⟨.notEqual, rfl⟩
  · exact ⟨.lessThan, rfl⟩
  · exact ⟨.greaterThan, rfl⟩
  · exact ⟨.lessEqual, rfl⟩
  · exact ⟨.greaterEqual, rfl⟩

end Comparator

namespace Node

/-- Induction over the nodes, with one case for each kind. -/
@[elab_as_elim]
theorem induction {motive : Node → Prop} (cellValue : ∀ value, motive (.cellValue value))
    (number : ∀ value, motive (.number value)) (textbox : ∀ value, motive (.textbox value))
    (operator : ∀ list shared args, (∀ n ∈ args, motive n) → motive (.operator list shared args))
    (conditional : ∀ symbol left right trueValue falseValue, motive left → motive right →
      motive trueValue → motive falseValue →
        motive (.conditional symbol left right trueValue falseValue))
    (function : ∀ name args, (∀ n ∈ args, motive n) → motive (.function name args)) (n : Node) :
    motive n :=
  @Node.rec motive (fun ns => ∀ n ∈ ns, motive n) cellValue number textbox operator conditional
    function (fun _ h => by cases h) (fun _ _ head tail => List.forall_mem_cons.mpr ⟨head, tail⟩) n

/-- The operators fit `count` operands. A list that is not empty is all that counts. -/
def OperatorsFit (count : Nat) : Option (List String) → Option String → Prop
  | some (s :: ss), _ =>
    (∀ x ∈ s :: ss, x ∈ Operator.spellings) ∧ (s :: ss).length + 1 = count
  | _, some s => s ∈ Operator.spellings
  | _, none => False

mutual

/-- Whether a node describes a tree. -/
def Accepted : Node → Prop
  | .cellValue value => value ≠ ""
  | .number _ => True
  | .textbox _ => True
  | .operator list shared args =>
    2 ≤ args.length ∧ OperatorsFit args.length list shared ∧ AcceptedAll args
  | .conditional symbol left right trueValue falseValue =>
    symbol ∈ Comparator.symbols ∧ left.Accepted ∧ right.Accepted ∧ trueValue.Accepted ∧
      falseValue.Accepted
  | .function _ args => AcceptedAll args

def AcceptedAll : List Node → Prop
  | [] => True
  | n :: ns => n.Accepted ∧ AcceptedAll ns

end

theorem acceptedAll_iff {ns : List Node} : AcceptedAll ns ↔ ∀ n ∈ ns, n.Accepted := by
  induction ns with
  | nil => simp [AcceptedAll]
  | cons n ns ih => rw [AcceptedAll, ih, List.forall_mem_cons]

mutual

/-- The form in which a node is written. -/
def canonical : Node → Node
  | .cellValue value => .cellValue value
  | .number value => .number value
  | .textbox value => .textbox value
  | .operator (some (s :: ss)) _ args => .operator (some (s :: ss)) none (canonicalAll args)
  | .operator _ shared args => .operator none shared (canonicalAll args)
  | .conditional symbol left right trueValue falseValue =>
    .conditional (Comparator.canonicalSymbol symbol) left.canonical right.canonical
      trueValue.canonical falseValue.canonical
  | .function name args => .function name (canonicalAll args)

def canonicalAll : List Node → List Node
  | [] => []
  | n :: ns => n.canonical :: canonicalAll ns

end

theorem canonicalAll_canonicalAll {ns : List Node}
    (h : ∀ n ∈ ns, n.canonical.canonical = n.canonical) :
    canonicalAll (canonicalAll ns) = canonicalAll ns := by
  induction ns with
  | nil => rfl
  | cons n ns ih =>
    obtain ⟨first, rest⟩ := List.forall_mem_cons.mp h
    rw [canonicalAll, canonicalAll, first, ih rest]

theorem canonicalSymbol_canonicalSymbol (s : String) :
    Comparator.canonicalSymbol (Comparator.canonicalSymbol s) = Comparator.canonicalSymbol s := by
  by_cases double : s = "=="
  · simp [Comparator.canonicalSymbol, double]
  · simp [Comparator.canonicalSymbol, double]

theorem canonical_canonical (n : Node) : n.canonical.canonical = n.canonical := by
  induction n using induction with
  | cellValue | number | textbox => rfl
  | operator list shared args ih =>
    have args := canonicalAll_canonicalAll ih
    match list with
    | none => simp only [canonical, args]
    | some [] => simp only [canonical, args]
    | some (s :: ss) => simp only [canonical, args]
  | conditional symbol l r t f ihl ihr iht ihf =>
    simp only [canonical, canonicalSymbol_canonicalSymbol, ihl, ihr, iht, ihf]
  | function name args ih => simp only [canonical, canonicalAll_canonicalAll ih]

end Node

theorem mapM_ofSymbol_eq_ok_iff {ss : List String} {ops : List Operator} :
    ss.mapM Operator.ofSymbol = .ok ops ↔ ss = Node.symbols ops := by
  simp only [mapM_eq_ok_iff, Operator.ofSymbol_eq_ok_iff]
  rw [Node.symbols, ← List.forall₂_eq_eq_eq, List.forall₂_map_right_iff]

theorem exists_mapM {ss : List String} (h : ∀ s ∈ ss, s ∈ Operator.spellings) :
    ∃ ops, ss.mapM Operator.ofSymbol = .ok ops := by
  induction ss with
  | nil => exact ⟨[], rfl⟩
  | cons s ss ih =>
    obtain ⟨first, rest⟩ := List.forall_mem_cons.mp h
    obtain ⟨op, hop⟩ := Operator.exists_ofSymbol first
    obtain ⟨ops, hops⟩ := ih rest
    refine ⟨op :: ops, ?_⟩
    rw [List.mapM_cons, hop, hops]
    rfl

namespace Chain

theorem ofPairs_eq_ok_iff {operands : List Formula} {ops : List Operator} {c : Chain} :
    ofPairs operands ops = .ok c ↔
      c.operands = operands ∧ c.operators = .perPair ops := by
  obtain ⟨xs, operators, fits⟩ := c
  constructor
  · intro h
    unfold ofPairs at h
    split at h
    · cases h
    · split at h <;> cases h
      exact ⟨rfl, rfl⟩
  · rintro ⟨rfl, rfl⟩
    rw [ofPairs, dif_neg (Nat.not_lt_of_le fits.1), dif_pos fits.2]

theorem ofShared_eq_ok_iff {operands : List Formula} {op : Operator} {c : Chain} :
    ofShared operands op = .ok c ↔ c.operands = operands ∧ c.operators = .shared op := by
  obtain ⟨xs, operators, fits⟩ := c
  constructor
  · intro h
    unfold ofShared at h
    split at h <;> cases h
    exact ⟨rfl, rfl⟩
  · rintro ⟨rfl, rfl⟩
    rw [ofShared, dif_neg (Nat.not_lt_of_le fits)]

/-- The operands are kept, and the operators are those that the node gives in its canonical form. -/
theorem ofSymbols_eq_ok {operands : List Formula} {list : Option (List String)}
    {shared : Option String} {c : Chain} (h : ofSymbols operands list shared = .ok c)
    (args : List Node) : c.operands = operands ∧
      Node.OperatorsFit operands.length list shared ∧
        Node.ofFormula c.toFormula = match (Node.operator list shared args).canonical with
          | .operator list shared _ => .operator list shared (Node.ofFormulas operands)
          | n => n := by
  match list, shared with
  | some (s :: ss), shared =>
    obtain ⟨ops, symbols, pairs⟩ := bind_eq_ok_iff.mp h
    obtain ⟨rfl, perPair⟩ := ofPairs_eq_ok_iff.mp pairs
    have fits := c.fits
    have spelled := mapM_ofSymbol_eq_ok_iff.mp symbols
    rw [perPair] at fits
    refine ⟨rfl, ⟨?_, ?_⟩, ?_⟩
    · intro x hx
      rw [spelled] at hx
      obtain ⟨op, -, rfl⟩ := List.mem_map.mp hx
      exact op.symbol_mem_spellings
    · rw [spelled, Node.symbols, List.length_map]
      exact fits.2
    · simp only [Node.canonical, toFormula, perPair, Node.ofFormula, spelled]
  | none, some s =>
    obtain ⟨op, symbol, pairs⟩ := bind_eq_ok_iff.mp h
    obtain ⟨rfl, same⟩ := ofShared_eq_ok_iff.mp pairs
    obtain rfl := Operator.symbol_of_ofSymbol symbol
    refine ⟨rfl, op.symbol_mem_spellings, ?_⟩
    simp only [Node.canonical, toFormula, same, Node.ofFormula]
  | some [], some s =>
    obtain ⟨op, symbol, pairs⟩ := bind_eq_ok_iff.mp h
    obtain ⟨rfl, same⟩ := ofShared_eq_ok_iff.mp pairs
    obtain rfl := Operator.symbol_of_ofSymbol symbol
    refine ⟨rfl, op.symbol_mem_spellings, ?_⟩
    simp only [Node.canonical, toFormula, same, Node.ofFormula]
  | none, none => cases h
  | some [], none => cases h

theorem exists_ofSymbols {operands : List Formula} {list : Option (List String)}
    {shared : Option String} (two : 2 ≤ operands.length)
    (fit : Node.OperatorsFit operands.length list shared) :
    ∃ c, ofSymbols operands list shared = .ok c := by
  match list, shared with
  | some (s :: ss), shared =>
    obtain ⟨ops, symbols⟩ := exists_mapM fit.1
    have count := congrArg List.length (mapM_ofSymbol_eq_ok_iff.mp symbols)
    rw [Node.symbols, List.length_map] at count
    have fits : (Operators.perPair ops).Fits operands.length := ⟨two, count ▸ fit.2⟩
    exact ⟨⟨operands, _, fits⟩, bind_eq_ok_iff.mpr ⟨ops, symbols, ofPairs_eq_ok_iff.mpr ⟨rfl, rfl⟩⟩⟩
  | none, some s =>
    obtain ⟨op, symbol⟩ := Operator.exists_ofSymbol fit
    have fits : (Operators.shared op).Fits operands.length := two
    exact ⟨⟨operands, _, fits⟩, bind_eq_ok_iff.mpr ⟨op, symbol, ofShared_eq_ok_iff.mpr ⟨rfl, rfl⟩⟩⟩
  | some [], some s =>
    obtain ⟨op, symbol⟩ := Operator.exists_ofSymbol fit
    have fits : (Operators.shared op).Fits operands.length := two
    exact ⟨⟨operands, _, fits⟩, bind_eq_ok_iff.mpr ⟨op, symbol, ofShared_eq_ok_iff.mpr ⟨rfl, rfl⟩⟩⟩
  | none, none => cases fit
  | some [], none => cases fit

theorem ofSymbols_perPair {operands : List Formula} {ops : List Operator} {shared : Option String}
    (fits : (Operators.perPair ops).Fits operands.length) :
    ofSymbols operands (some (Node.symbols ops)) shared = .ok ⟨operands, .perPair ops, fits⟩ := by
  cases ops with
  | nil =>
    obtain ⟨two, count⟩ := fits
    rw [List.length_nil] at count
    omega
  | cons op ops =>
    exact bind_eq_ok_iff.mpr ⟨_, mapM_ofSymbol_eq_ok_iff.mpr rfl, ofPairs_eq_ok_iff.mpr ⟨rfl, rfl⟩⟩

theorem ofSymbols_shared {operands : List Formula} {op : Operator}
    (fits : (Operators.shared op).Fits operands.length) :
    ofSymbols operands none (some op.symbol.toString) = .ok ⟨operands, .shared op, fits⟩ :=
  bind_eq_ok_iff.mpr ⟨op, op.ofSymbol_symbol, ofShared_eq_ok_iff.mpr ⟨rfl, rfl⟩⟩

end Chain

namespace Node

theorem toFormulas_eq_mapM (ns : List Node) : toFormulas ns = ns.mapM toFormula := by
  induction ns with
  | nil => rfl
  | cons n ns ih =>
    rw [toFormulas, List.mapM_cons, ih]
    rfl

theorem toFormulas_eq_ok_iff {ns : List Node} {fs : List Formula} :
    toFormulas ns = .ok fs ↔ List.Forall₂ (fun n f => n.toFormula = .ok f) ns fs := by
  rw [toFormulas_eq_mapM, mapM_eq_ok_iff]

/-- The trees that a node can be built to, given those of the nodes inside. -/
inductive BuiltWith (built : Node → Formula → Prop) : Node → Formula → Prop where
  | cellValue {value : String} (named : value ≠ "") :
    BuiltWith built (.cellValue value) (.cell value)
  | number (value : Binary64) : BuiltWith built (.number value) (.number value)
  | textbox (value : String) : BuiltWith built (.textbox value) (.text value)
  | operator {list : Option (List String)} {shared : Option String} {args : List Node} {c : Chain}
    (chain : Chain.ofSymbols c.operands list shared = .ok c)
    (operands : List.Forall₂ built args c.operands) :
    BuiltWith built (.operator list shared args) c.toFormula
  | conditional {symbol : String} {comparator : Comparator}
    {left right trueValue falseValue : Node} {l r t f : Formula}
    (spelled : Comparator.ofSymbol symbol = .ok comparator) (hl : built left l) (hr : built right r)
    (ht : built trueValue t) (hf : built falseValue f) :
    BuiltWith built (.conditional symbol left right trueValue falseValue)
      (.conditional comparator l r t f)
  | function {name : String} {args : List Node} {arguments : List Formula}
    (each : List.Forall₂ built args arguments) :
    BuiltWith built (.function name args) (.call name arguments)

theorem toFormula_eq_ok_iff {n : Node} {f : Formula} :
    n.toFormula = .ok f ↔ BuiltWith (fun m g => m.toFormula = .ok g) n f := by
  constructor
  · intro h
    cases n with
    | cellValue value =>
      rw [toFormula] at h
      split at h
      · cases h
      · next named =>
        cases h
        exact .cellValue fun e => named (by rw [e]; rfl)
    | number value =>
      cases h
      exact .number value
    | textbox value =>
      cases h
      exact .textbox value
    | operator list shared args =>
      obtain ⟨operands, hargs, h⟩ := bind_eq_ok_iff.mp h
      obtain ⟨c, chain, h⟩ := bind_eq_ok_iff.mp h
      cases h
      obtain ⟨rfl, -⟩ := Chain.ofSymbols_eq_ok chain args
      exact .operator chain (toFormulas_eq_ok_iff.mp hargs)
    | conditional symbol left right trueValue falseValue =>
      obtain ⟨comparator, spelled, h⟩ := bind_eq_ok_iff.mp h
      obtain ⟨l, hl, h⟩ := bind_eq_ok_iff.mp h
      obtain ⟨r, hr, h⟩ := bind_eq_ok_iff.mp h
      obtain ⟨t, ht, h⟩ := bind_eq_ok_iff.mp h
      obtain ⟨f, hf, h⟩ := bind_eq_ok_iff.mp h
      cases h
      exact .conditional spelled hl hr ht hf
    | function name args =>
      obtain ⟨arguments, hargs, h⟩ := bind_eq_ok_iff.mp h
      cases h
      exact .function (toFormulas_eq_ok_iff.mp hargs)
  · intro h
    cases h with
    | cellValue named => rw [toFormula, if_neg fun e => named (String.isEmpty_iff.mp e)]
    | number | textbox => rfl
    | operator chain operands =>
      exact bind_eq_ok_iff.mpr
        ⟨_, toFormulas_eq_ok_iff.mpr operands, bind_eq_ok_iff.mpr ⟨_, chain, rfl⟩⟩
    | conditional spelled hl hr ht hf =>
      rw [toFormula, spelled, hl, hr, ht, hf]
      rfl
    | function each =>
      rw [toFormula, toFormulas_eq_ok_iff.mpr each]
      rfl

/-- Induction over the building of a tree: what the trees of the nodes inside pass on to the tree
built of them holds of every node that describes a tree. -/
@[elab_as_elim]
theorem toFormula_induction {motive : Node → Formula → Prop}
    (step : ∀ n f, BuiltWith motive n f → motive n f) {n : Node} {f : Formula}
    (h : n.toFormula = .ok f) : motive n f := by
  induction n using induction generalizing f with
  | cellValue value =>
    cases toFormula_eq_ok_iff.mp h with
    | cellValue named => exact step _ _ (.cellValue named)
  | number value =>
    cases toFormula_eq_ok_iff.mp h
    exact step _ _ (.number value)
  | textbox value =>
    cases toFormula_eq_ok_iff.mp h
    exact step _ _ (.textbox value)
  | operator list shared args ih =>
    cases toFormula_eq_ok_iff.mp h with
    | operator chain operands =>
      exact step _ _ (.operator chain (forall₂_imp_of_mem operands fun n hn _ => ih n hn))
  | conditional symbol left right trueValue falseValue ihl ihr iht ihf =>
    cases toFormula_eq_ok_iff.mp h with
    | conditional spelled hl hr ht hf =>
      exact step _ _ (.conditional spelled (ihl hl) (ihr hr) (iht ht) (ihf hf))
  | function name args ih =>
    cases toFormula_eq_ok_iff.mp h with
    | function each => exact step _ _ (.function (forall₂_imp_of_mem each fun n hn _ => ih n hn))

/-- The tree that a node describes, as far as the forms of the node go. -/
structure Describes (n : Node) (f : Formula) : Prop where
  accepted : n.Accepted
  canonical : ofFormula f = n.canonical
  wellFormed : f.WellFormed
  named : f.Named

theorem describes_all {ns : List Node} {fs : List Formula} (h : List.Forall₂ Describes ns fs) :
    AcceptedAll ns ∧ ofFormulas fs = canonicalAll ns ∧ Formula.WellFormedList fs ∧
      Formula.EveryOf (· ≠ .cell "") fs := by
  induction h with
  | nil => exact ⟨trivial, rfl, trivial, trivial⟩
  | cons first _ ih =>
    obtain ⟨accepted, canonical, wellFormed, named⟩ := ih
    refine ⟨⟨first.accepted, accepted⟩, ?_, ⟨first.wellFormed, wellFormed⟩, first.named, named⟩
    rw [ofFormulas, canonicalAll, first.canonical, canonical]

theorem describes_of_toFormula {n : Node} {f : Formula} (h : n.toFormula = .ok f) :
    Describes n f := by
  refine toFormula_induction (fun n f built => ?_) h
  cases built with
  | @cellValue value named => exact ⟨named, rfl, trivial, fun e => named (Formula.cell.inj e)⟩
  | number | textbox => exact ⟨trivial, rfl, trivial, nofun⟩
  | @operator list shared args c chain operands =>
    have length := operands.length_eq
    obtain ⟨accepted, canonical, wellFormed, named⟩ := describes_all operands
    obtain ⟨-, fit, same⟩ := Chain.ofSymbols_eq_ok chain args
    refine ⟨⟨length ▸ c.two_le_length, length ▸ fit, accepted⟩, ?_, ⟨c.fits, wellFormed⟩, nofun,
      named⟩
    rw [same, canonical]
    match list with
    | none => rfl
    | some [] => rfl
    | some (s :: ss) => rfl
  | conditional spelled hl hr ht hf =>
    obtain ⟨mem, same⟩ := Comparator.symbol_of_ofSymbol spelled
    refine ⟨⟨mem, hl.accepted, hr.accepted, ht.accepted, hf.accepted⟩, ?_,
      ⟨hl.wellFormed, hr.wellFormed, ht.wellFormed, hf.wellFormed⟩,
      nofun, hl.named, hr.named, ht.named, hf.named⟩
    rw [ofFormula, canonical, same, hl.canonical, hr.canonical, ht.canonical, hf.canonical]
  | function each =>
    obtain ⟨accepted, canonical, wellFormed, named⟩ := describes_all each
    refine ⟨accepted, ?_, wellFormed, nofun, named⟩
    rw [ofFormula, Node.canonical, canonical]

theorem exists_toFormulas {ns : List Node} (h : ∀ n ∈ ns, ∃ f, n.toFormula = .ok f) :
    ∃ fs, toFormulas ns = .ok fs := by
  induction ns with
  | nil => exact ⟨[], rfl⟩
  | cons n ns ih =>
    obtain ⟨⟨f, first⟩, rest⟩ := List.forall_mem_cons.mp h
    obtain ⟨fs, rest⟩ := ih rest
    exact ⟨f :: fs, by rw [toFormulas, first, rest]; rfl⟩

theorem exists_toFormula {n : Node} (h : n.Accepted) : ∃ f, n.toFormula = .ok f := by
  induction n using induction with
  | cellValue value =>
    have named : ¬value.isEmpty := fun e => h (String.isEmpty_iff.mp e)
    exact ⟨_, by rw [toFormula, if_neg named]⟩
  | number value => exact ⟨_, rfl⟩
  | textbox value => exact ⟨_, rfl⟩
  | operator list shared args ih =>
    obtain ⟨two, fit, all⟩ := h
    obtain ⟨operands, hargs⟩ := exists_toFormulas fun n hn => ih n hn (acceptedAll_iff.mp all n hn)
    have length := (toFormulas_eq_ok_iff.mp hargs).length_eq
    obtain ⟨c, chain⟩ := Chain.exists_ofSymbols (length ▸ two) (length ▸ fit)
    exact ⟨c.toFormula,
      bind_eq_ok_iff.mpr ⟨operands, hargs, bind_eq_ok_iff.mpr ⟨c, chain, rfl⟩⟩⟩
  | conditional symbol left right trueValue falseValue ihl ihr iht ihf =>
    obtain ⟨mem, hl, hr, ht, hf⟩ := h
    obtain ⟨comparator, symbol⟩ := Comparator.exists_ofSymbol mem
    obtain ⟨l, hl⟩ := ihl hl
    obtain ⟨r, hr⟩ := ihr hr
    obtain ⟨t, ht⟩ := iht ht
    obtain ⟨f, hf⟩ := ihf hf
    exact ⟨.conditional comparator l r t f, by rw [toFormula, symbol, hl, hr, ht, hf]; rfl⟩
  | function name args ih =>
    obtain ⟨arguments, hargs⟩ := exists_toFormulas fun n hn => ih n hn (acceptedAll_iff.mp h n hn)
    exact ⟨.call name arguments, by rw [toFormula, hargs]; rfl⟩

theorem ofFormulas_eq_map (fs : List Formula) : ofFormulas fs = fs.map ofFormula := by
  induction fs with
  | nil => rfl
  | cons f fs ih => rw [ofFormulas, ih, List.map_cons]

theorem toFormulas_ofFormulas {fs : List Formula}
    (h : ∀ f ∈ fs, (ofFormula f).toFormula = .ok f) : toFormulas (ofFormulas fs) = .ok fs := by
  rw [toFormulas_eq_ok_iff, ofFormulas_eq_map, List.forall₂_map_left_iff, List.forall₂_same]
  exact h

theorem toFormula_ofFormula_iff (f : Formula) :
    (ofFormula f).toFormula = .ok f ↔ f.WellFormed ∧ f.Named := by
  constructor
  · intro h
    exact ⟨(describes_of_toFormula h).wellFormed, (describes_of_toFormula h).named⟩
  · rintro ⟨wellFormed, named⟩
    induction f using Formula.induction with
    | cell name =>
      have ne : name ≠ "" := fun e => named (by rw [e])
      rw [ofFormula, toFormula, if_neg fun e => ne (String.isEmpty_iff.mp e)]
    | number value => rfl
    | text value => rfl
    | chain operands operators ih =>
      obtain ⟨fits, wellFormed⟩ := wellFormed
      have wellFormed := Formula.wellFormedList_iff.mp wellFormed
      have named := Formula.everyOf_iff.mp named.2
      have operands' := toFormulas_ofFormulas fun x hx => ih x hx (wellFormed x hx) (named x hx)
      cases operators with
      | perPair ops =>
        exact bind_eq_ok_iff.mpr ⟨operands, operands',
          bind_eq_ok_iff.mpr ⟨_, Chain.ofSymbols_perPair fits, rfl⟩⟩
      | shared op =>
        exact bind_eq_ok_iff.mpr ⟨operands, operands',
          bind_eq_ok_iff.mpr ⟨_, Chain.ofSymbols_shared fits, rfl⟩⟩
    | conditional comparator l r t f ihl ihr iht ihf =>
      obtain ⟨wl, wr, wt, wf⟩ := wellFormed
      obtain ⟨-, nl, nr, nt, nf⟩ := named
      rw [ofFormula, toFormula, Comparator.ofSymbol_symbol, ihl wl nl, ihr wr nr, iht wt nt,
        ihf wf nf]
      rfl
    | call name arguments ih =>
      have wellFormed := Formula.wellFormedList_iff.mp wellFormed
      have named := Formula.everyOf_iff.mp named.2
      rw [ofFormula, toFormula,
        toFormulas_ofFormulas fun x hx => ih x hx (wellFormed x hx) (named x hx)]
      rfl

theorem acceptedAll_ofFormulas {fs : List Formula} :
    AcceptedAll (ofFormulas fs) ↔ ∀ f ∈ fs, (ofFormula f).Accepted := by
  rw [acceptedAll_iff, ofFormulas_eq_map, List.forall_mem_map]

theorem fits_perPair_iff {count : Nat} {list : List Operator} :
    (Operators.perPair list).Fits count ↔
      2 ≤ count ∧ OperatorsFit count (some (symbols list)) none := by
  cases list with
  | nil =>
    constructor
    · rintro ⟨two, one⟩
      rw [List.length_nil] at one
      omega
    · rintro ⟨-, fit⟩
      cases fit
  | cons op ops =>
    have spelled : ∀ s ∈ symbols (op :: ops), s ∈ Operator.spellings :=
      List.forall_mem_map.mpr fun op _ => op.symbol_mem_spellings
    have length : (symbols (op :: ops)).length = (op :: ops).length := List.length_map _
    constructor
    · rintro ⟨two, count⟩
      exact ⟨two, spelled, length ▸ count⟩
    · rintro ⟨two, -, count⟩
      exact ⟨two, length ▸ count⟩

/-- What the node of a tree needs to be accepted, node by node. -/
theorem accepted_ofFormula_node (f : Formula) : (ofFormula f).Accepted ↔
    (Formula.Fitting f ∧ f ≠ .cell "") ∧ ∀ x ∈ f.children, (ofFormula x).Accepted := by
  cases f with
  | cell | number | text => simp [ofFormula, Accepted, Formula.Fitting, Formula.children]
  | chain operands operators =>
    have count : (ofFormulas operands).length = operands.length := by
      rw [ofFormulas_eq_map, List.length_map]
    have all : AcceptedAll (ofFormulas operands) ↔ ∀ x ∈ operands, (ofFormula x).Accepted :=
      acceptedAll_ofFormulas
    cases operators with
    | perPair list =>
      simp [ofFormula, Accepted, Formula.Fitting, Formula.children, all, count,
        fits_perPair_iff, and_assoc]
    | shared op =>
      have spelled : OperatorsFit operands.length none (some op.symbol.toString) :=
        op.symbol_mem_spellings
      rw [ofFormula, Accepted, count, all]
      simp only [spelled, true_and, Formula.Fitting, Operators.Fits, Formula.children, ne_eq,
        reduceCtorEq, not_false_eq_true, and_true]
  | conditional comparator l r t f =>
    have spelled := (Comparator.symbol_of_ofSymbol comparator.ofSymbol_symbol).1
    simp [ofFormula, Accepted, Formula.Fitting, Formula.children, spelled]
  | call name arguments =>
    simp [ofFormula, Accepted, Formula.Fitting, Formula.children, acceptedAll_ofFormulas]

theorem accepted_ofFormula_iff (f : Formula) : (ofFormula f).Accepted ↔ f.WellFormed ∧ f.Named := by
  rw [Formula.wellFormed_iff, Formula.Named, ← Formula.every_and_iff]
  induction f using Formula.children_induction with
  | node f ih => rw [accepted_ofFormula_node, Formula.every_iff, forall₂_congr ih]

/-- The node of a tree describes a tree only if it describes this one. -/
theorem toFormula_ofFormula_eq_ok_iff {f g : Formula} :
    (ofFormula f).toFormula = .ok g ↔ (f.WellFormed ∧ f.Named) ∧ g = f := by
  constructor
  · intro h
    have whole := (accepted_ofFormula_iff f).mp (describes_of_toFormula h).accepted
    exact ⟨whole, Except.ok.inj (h.symm.trans ((toFormula_ofFormula_iff f).mpr whole))⟩
  · rintro ⟨whole, rfl⟩
    exact (toFormula_ofFormula_iff g).mpr whole

/-- Decoding accepts the well-formed nodes, and encoding what was decoded writes the canonical form
of the node; encoding a tree and decoding it again gives that tree if all its cells have names. -/
theorem toFormula_ofFormula :
    (∀ n : Node, ((∃ f, n.toFormula = .ok f) ↔ n.Accepted) ∧
      n.canonical.canonical = n.canonical ∧
        ∀ f, n.toFormula = .ok f → ofFormula f = n.canonical ∧ n.canonical.toFormula = .ok f) ∧
    ∀ f : Formula, (ofFormula f).toFormula = .ok f ↔ f.WellFormed ∧ f.Named := by
  refine ⟨fun n => ⟨⟨?_, exists_toFormula⟩, canonical_canonical n, ?_⟩, toFormula_ofFormula_iff⟩
  · rintro ⟨f, h⟩
    exact (describes_of_toFormula h).accepted
  · intro f h
    have describes := describes_of_toFormula h
    refine ⟨describes.canonical, ?_⟩
    rw [← describes.canonical, toFormula_ofFormula_iff]
    exact ⟨describes.wellFormed, describes.named⟩

end Node

end CellFormula
