import CellFormula.Reading.Parse
import CellFormula.Proofs.Calls
import Mathlib.Data.List.Forall2

/-!
# Outlines

The rules for a trimmed text first decide which texts inside it are to be read, and then read those
from left to right. An outline is the first half alone: it depends on neither the levels left nor
the reader, and every text it names is a proper piece of the text it outlines. What the rules can
find out about a text is said once, case by case, and each fact about outlines is read off those
cases.
-/

namespace CellFormula

/-- Whether the error is one of the text read, and neither of the levels nor of the tree built. -/
def ReadingError.isOfText : ReadingError → Bool
  | .nestingTooDeep _ => false
  | .fault _ => false
  | _ => true

namespace Reading

open Text Scan

/-- What a text is, down to the texts inside it. A condition without a comparator has no right
side. -/
inductive Outline where
  | leaf (f : Formula)
  | refused (e : ReadingError)
  | inside (text : List Char)
  | chain (operands : List (List Char)) (operators : List Operator)
  | conditional (comparator : Comparator) (left : List Char) (right : Option (List Char))
      (whenTrue whenFalse : List Char)
  | lookup (arguments : List (List Char))

namespace Outline

/-- The texts inside, in the order in which they are read. -/
def parts : Outline → List (List Char)
  | leaf _ => []
  | refused _ => []
  | inside text => [text]
  | chain operands _ => operands
  | conditional _ left right whenTrue whenFalse => left :: right.toList ++ [whenTrue, whenFalse]
  | lookup arguments => arguments

/-- Reads the texts inside and puts the results together. -/
def read (inner : Reader) : Outline → Except ReadingError Formula
  | leaf f => .ok f
  | refused e => .error e
  | inside text => inner text
  | chain operands operators => do
    let fs ← operands.mapM inner
    .ok (.chain fs (.perPair operators))
  | conditional comparator left (some right) whenTrue whenFalse => do
    let l ← inner left
    let r ← inner right
    let t ← inner whenTrue
    let f ← inner whenFalse
    .ok (.conditional comparator l r t f)
  | conditional comparator left none whenTrue whenFalse => do
    let l ← inner left
    let t ← inner whenTrue
    let f ← inner whenFalse
    .ok (.conditional comparator l (.number (.zero false)) t f)
  | lookup arguments => do
    let fs ← arguments.mapM inner
    .ok (.lookup fs)

/-- The tree put together from the trees of the texts inside. -/
inductive Builds : Outline → List Formula → Formula → Prop where
  | leaf (f : Formula) : Builds (leaf f) [] f
  | inside (text : List Char) (f : Formula) : Builds (inside text) [f] f
  | chain (operands : List (List Char)) (operators : List Operator) (fs : List Formula) :
    Builds (chain operands operators) fs (.chain fs (.perPair operators))
  | comparison (comparator : Comparator) (left right whenTrue whenFalse : List Char)
    (l r t f : Formula) : Builds (conditional comparator left (some right) whenTrue whenFalse)
      [l, r, t, f] (.conditional comparator l r t f)
  | bare (comparator : Comparator) (left whenTrue whenFalse : List Char) (l t f : Formula) :
    Builds (conditional comparator left none whenTrue whenFalse)
      [l, t, f] (.conditional comparator l (.number (.zero false)) t f)
  | lookup (arguments : List (List Char)) (fs : List Formula) :
    Builds (lookup arguments) fs (.lookup fs)

end Outline

def chainOutline (cs : List Char) : Outline :=
  let segments := Segments.ofText cs
  if segments.operands.length < 2 then
    let single := segments.operands.headD cs
    if single = cs then .refused (.noLeftOperand cs) else .inside single
  else if segments.operators.length + 1 ≠ segments.operands.length then
    .refused (.danglingOperator cs)
  else .chain segments.operands segments.operators

def conditionalOutline : List (List Char) → Outline
  | c :: t :: f :: _ =>
    match comparison? c with
    | some (comparator, left, right) => .conditional comparator left (some right) t f
    | none => .conditional .equal c none t f
  | arguments => .refused (.tooFewArguments arguments.length)

/-- A call is read through its arguments alone. -/
def callOutline (keyword : Keyword) : Except ReadingError (List (List Char)) → Outline
  | .error e => .refused e
  | .ok arguments =>
    match keyword with
    | .conditional => conditionalOutline arguments
    | .lookup => .lookup arguments

def groupingOutline (cs : List Char) : Outline :=
  match wrappedInterior .paren cs with
  | some interior => .inside interior
  | none => .leaf (if cs.isEmpty then .text "" else cellNamed cs)

def outline (known : Registry) (cs : List Char) : Outline :=
  match keyword? cs with
  | some keyword => callOutline keyword (callArguments keyword cs)
  | none => match leaf? known cs with
    | some leaf => .leaf leaf
    | none => if hasTopLevelOperator cs then chainOutline cs else groupingOutline cs

/-- The ways through the rules, with what each has found out about the text. -/
inductive Ruled (known : Registry) (cs : List Char) : Outline → Prop where
  | refused (e : ReadingError) (ofText : e.isOfText = true) : Ruled known cs (.refused e)
  | comparison {content rest test whenTrue whenFalse left right : List Char}
    {more : List (List Char)} {comparator : Comparator} (call : keyword? cs = some .conditional)
    (cut : splitCall cs = some (content, rest))
    (pieces : splitTopLevel ',' content = test :: whenTrue :: whenFalse :: more)
    (sides : comparison? test = some (comparator, left, right)) :
    Ruled known cs (.conditional comparator left (some right) whenTrue whenFalse)
  | bare {content rest test whenTrue whenFalse : List Char} {more : List (List Char)}
    (call : keyword? cs = some .conditional) (cut : splitCall cs = some (content, rest))
    (pieces : splitTopLevel ',' content = test :: whenTrue :: whenFalse :: more)
    (absent : comparison? test = none) :
    Ruled known cs (.conditional .equal test none whenTrue whenFalse)
  | lookup {content rest : List Char} {arguments : List (List Char)}
    (call : keyword? cs = some .lookup) (cut : splitCall cs = some (content, rest))
    (pieces : splitTopLevel ',' content = arguments) : Ruled known cs (.lookup arguments)
  | leaf {f : Formula} (noCall : keyword? cs = none) (leaf : leaf? known cs = some f) :
    Ruled known cs (.leaf f)
  | single {p : List Char} (noCall : keyword? cs = none) (noLeaf : leaf? known cs = none)
    (joined : hasTopLevelOperator cs = true) (few : (Segments.ofText cs).operands.length < 2)
    (first : (Segments.ofText cs).operands.headD cs = p) (ne : p ≠ cs) : Ruled known cs (.inside p)
  | chain {operands : List (List Char)} {operators : List Operator}
    (noCall : keyword? cs = none) (noLeaf : leaf? known cs = none)
    (joined : hasTopLevelOperator cs = true) (many : 2 ≤ operands.length)
    (count : operators.length + 1 = operands.length)
    (cut : Segments.ofText cs = ⟨operands, operators⟩) : Ruled known cs (.chain operands operators)
  | group {interior : List Char} (noCall : keyword? cs = none) (noLeaf : leaf? known cs = none)
    (whole : hasTopLevelOperator cs = false) (wrapped : wrappedInterior .paren cs = some interior) :
    Ruled known cs (.inside interior)
  | name {f : Formula} (noCall : keyword? cs = none) (noLeaf : leaf? known cs = none)
    (whole : hasTopLevelOperator cs = false) (bare : wrappedInterior .paren cs = none)
    (named : f = if cs.isEmpty then .text "" else cellNamed cs) : Ruled known cs (.leaf f)

theorem ruled_call {known : Registry} {keyword : Keyword} {cs : List Char}
    (call : keyword? cs = some keyword) :
    Ruled known cs (callOutline keyword (callArguments keyword cs)) := by
  unfold callArguments
  cases cut : splitCall cs with
  | none => exact .refused _ rfl
  | some sides =>
    cases keyword with
    | lookup => exact .lookup call cut rfl
    | conditional =>
      change Ruled known cs (conditionalOutline (splitTopLevel ',' sides.1))
      unfold conditionalOutline
      split
      · next pieces =>
        split
        · next sides => exact .comparison call cut pieces sides
        · next absent => exact .bare call cut pieces absent
      · exact .refused _ rfl

theorem ruled (known : Registry) (cs : List Char) : Ruled known cs (outline known cs) := by
  unfold outline
  split
  · next call => exact ruled_call call
  · next noCall =>
    split
    · next leaf => exact .leaf noCall leaf
    · next noLeaf =>
      split
      · next joined =>
        unfold chainOutline
        dsimp only
        split
        · next few =>
          split
          · exact .refused _ rfl
          · next ne => exact .single noCall noLeaf joined few rfl ne
        · next many =>
          split
          · exact .refused _ rfl
          · next count =>
            exact .chain noCall noLeaf joined (Nat.le_of_not_lt many) (not_not.mp count) rfl
      · next whole =>
        unfold groupingOutline
        split
        · next wrapped => exact .group noCall noLeaf (Bool.eq_false_iff.mpr whole) wrapped
        · next bare => exact .name noCall noLeaf (Bool.eq_false_iff.mpr whole) bare rfl

theorem Ruled.of_eq {known : Registry} {cs : List Char} {o : Outline}
    (h : outline known cs = o) : Ruled known cs o :=
  h ▸ ruled known cs

theorem bind_eq_ok_iff {ε α β : Type} {x : Except ε α} {g : α → Except ε β} {b : β} :
    x >>= g = .ok b ↔ ∃ a, x = .ok a ∧ g a = .ok b := by
  constructor
  · intro h
    cases x with
    | error e => cases h
    | ok a => exact ⟨a, rfl, h⟩
  · rintro ⟨a, rfl, h⟩
    exact h

theorem forall_right_of_forall₂ {α β : Type} {r : α → β → Prop} {p : β → Prop} {xs : List α}
    {ys : List β} (h : List.Forall₂ r xs ys) (hp : ∀ x y, r x y → p y) : ∀ y ∈ ys, p y := by
  induction h with
  | nil => simp
  | cons hr _ ih =>
    intro y hy
    rcases List.mem_cons.mp hy with rfl | hy
    · exact hp _ _ hr
    · exact ih y hy

theorem forall₂_imp_of_mem {α β : Type} {r s : α → β → Prop} {xs : List α} {ys : List β}
    (h : List.Forall₂ r xs ys) (hp : ∀ x ∈ xs, ∀ y, r x y → s x y) : List.Forall₂ s xs ys :=
  ((List.forall₂_and_left _ _).mpr ⟨hp, h⟩).imp fun _ y ⟨hp, h⟩ => hp y h

theorem mapM_eq_ok_iff {ε α β : Type} {g : α → Except ε β} {xs : List α} {ys : List β} :
    xs.mapM g = .ok ys ↔ List.Forall₂ (fun x y => g x = .ok y) xs ys := by
  induction xs generalizing ys with
  | nil =>
    rw [List.forall₂_nil_left_iff]
    exact ⟨fun h => by cases h; rfl, fun h => by rw [h]; rfl⟩
  | cons x xs ih =>
    rw [List.mapM_cons, List.forall₂_cons_left_iff, bind_eq_ok_iff]
    constructor
    · rintro ⟨y, hy, h⟩
      obtain ⟨ys, hys, h⟩ := bind_eq_ok_iff.mp h
      cases h
      exact ⟨y, ys, hy, ih.mp hys, rfl⟩
    · rintro ⟨y, ys, hy, hys, rfl⟩
      exact ⟨y, hy, bind_eq_ok_iff.mpr ⟨ys, ih.mpr hys, rfl⟩⟩

/-- All that a successful reading can be. -/
theorem Outline.read_eq_ok_iff {inner : Reader} {o : Outline} {f : Formula} :
    o.read inner = .ok f ↔
      ∃ fs, List.Forall₂ (fun t g => inner t = .ok g) o.parts fs ∧ o.Builds fs f := by
  constructor
  · intro h
    cases o with
    | leaf g => cases h; exact ⟨[], .nil, .leaf _⟩
    | refused e => cases h
    | inside text => exact ⟨[f], .cons h .nil, .inside _ _⟩
    | chain operands operators =>
      obtain ⟨fs, hfs, h⟩ := bind_eq_ok_iff.mp h
      cases h
      exact ⟨fs, mapM_eq_ok_iff.mp hfs, .chain _ _ _⟩
    | conditional comparator left right whenTrue whenFalse =>
      cases right with
      | none =>
        obtain ⟨a, ha, h⟩ := bind_eq_ok_iff.mp h
        obtain ⟨t, ht, h⟩ := bind_eq_ok_iff.mp h
        obtain ⟨e, he, h⟩ := bind_eq_ok_iff.mp h
        cases h
        exact ⟨[a, t, e], .cons ha (.cons ht (.cons he .nil)), .bare _ _ _ _ _ _ _⟩
      | some right =>
        obtain ⟨a, ha, h⟩ := bind_eq_ok_iff.mp h
        obtain ⟨b, hb, h⟩ := bind_eq_ok_iff.mp h
        obtain ⟨t, ht, h⟩ := bind_eq_ok_iff.mp h
        obtain ⟨e, he, h⟩ := bind_eq_ok_iff.mp h
        cases h
        exact ⟨[a, b, t, e], .cons ha (.cons hb (.cons ht (.cons he .nil))),
          .comparison _ _ _ _ _ _ _ _ _⟩
    | lookup arguments =>
      obtain ⟨fs, hfs, h⟩ := bind_eq_ok_iff.mp h
      cases h
      exact ⟨fs, mapM_eq_ok_iff.mp hfs, .lookup _ _⟩
  · rintro ⟨fs, hfs, build⟩
    cases build with
    | leaf => rfl
    | inside => cases hfs with | cons h _ => exact h
    | chain => exact bind_eq_ok_iff.mpr ⟨fs, mapM_eq_ok_iff.mpr hfs, rfl⟩
    | comparison =>
      obtain _ | ⟨hl, _ | ⟨hr, _ | ⟨ht, _ | ⟨hf, _⟩⟩⟩⟩ := hfs
      simp only [read, hl, hr, ht, hf]
      rfl
    | bare =>
      obtain _ | ⟨hl, _ | ⟨ht, _ | ⟨hf, _⟩⟩⟩ := hfs
      simp only [read, hl, ht, hf]
      rfl
    | lookup => exact bind_eq_ok_iff.mpr ⟨fs, mapM_eq_ok_iff.mpr hfs, rfl⟩

/-- The counts of a chain always line up, so that building the node cannot fail. -/
theorem chain_eq_read (inner : Reader) (cs : List Char) :
    chain inner cs = (chainOutline cs).read inner := by
  unfold chain chainOutline
  dsimp only
  split
  · split <;> rfl
  · next two =>
    split
    · rfl
    · next fit =>
      simp only [Outline.read]
      cases h : (Segments.ofText cs).operands.mapM inner with
      | error e => rfl
      | ok fs =>
        have hlen := (mapM_eq_ok_iff.mp h).length_eq
        have h2 : ¬ fs.length < 2 := by omega
        have h1 : (Segments.ofText cs).operators.length + 1 = fs.length := by omega
        dsimp only [bind, Except.bind]
        rw [Chain.ofPairs, dif_neg h2, dif_pos h1]
        rfl

theorem conditional_eq_read (inner : Reader) (cs : List Char) : conditional inner cs =
    (callOutline .conditional (callArguments .conditional cs)).read inner := by
  unfold conditional
  cases callArguments .conditional cs with
  | error e => rfl
  | ok arguments =>
    match arguments with
    | [] => rfl
    | [_] => rfl
    | [_, _] => rfl
    | c :: t :: f :: _ =>
      dsimp only [bind, Except.bind, condition, callOutline, conditionalOutline]
      cases comparison? c with
      | none =>
        dsimp only [Outline.read, bind, Except.bind]
        cases inner c <;> rfl
      | some sides =>
        obtain ⟨comparator, left, right⟩ := sides
        dsimp only [Outline.read, bind, Except.bind]
        cases inner left with
        | error e => rfl
        | ok l => cases inner right <;> rfl

theorem lookup_eq_read (inner : Reader) (cs : List Char) : lookup inner cs =
    (callOutline .lookup (callArguments .lookup cs)).read inner := by
  unfold lookup
  cases callArguments .lookup cs <;> rfl

theorem grouping_eq_read (inner : Reader) (cs : List Char) :
    grouping inner cs = (groupingOutline cs).read inner := by
  unfold grouping groupingOutline
  cases wrappedInterior .paren cs <;> rfl

theorem rules_eq_read (known : Registry) (inner : Reader) (cs : List Char) :
    rules known inner cs = (outline known cs).read inner := by
  unfold rules outline keyword?
  split
  · exact conditional_eq_read inner cs
  · split
    · exact lookup_eq_read inner cs
    · cases leaf? known cs with
      | some leaf => rfl
      | none =>
        dsimp only
        split
        · exact chain_eq_read inner cs
        · exact grouping_eq_read inner cs

/-- Induction over a reading, level by level: what the trees of the texts inside pass on to the tree
built of them holds of every text that is read and its tree. -/
@[elab_as_elim]
theorem expression_induction {options : ParseOptions}
    {motive : Nat → List Char → Formula → Prop}
    (builds : ∀ levels cs fs f, (outline options.known (trim cs)).Builds fs f →
      List.Forall₂ (motive levels) (outline options.known (trim cs)).parts fs →
        motive (levels + 1) cs f)
    {levels : Nat} {cs : List Char} {f : Formula} (h : expression options levels cs = .ok f) :
    motive levels cs f := by
  induction levels generalizing cs f with
  | zero => cases h
  | succ levels ih =>
    rw [expression_succ, rules_eq_read] at h
    obtain ⟨fs, parts, build⟩ := Outline.read_eq_ok_iff.mp h
    exact builds levels cs fs f build (parts.imp fun _ _ => ih)

theorem byteLength_lt_of_mem_splitTopLevel {cs content rest t : List Char}
    (cut : splitCall cs = some (content, rest)) (h : t ∈ splitTopLevel ',' content) :
    byteLength t < byteLength cs :=
  Nat.lt_of_le_of_lt (byteLength_le_of_sublist (infix_of_mem_splitTopLevel h).sublist)
    (byteLength_splitCall cut)

theorem comparison?_cases {test left right : List Char} {comparator : Comparator}
    (h : comparison? test = some (comparator, left, right)) :
    ∃ symbol, (symbol, comparator) ∈ Comparator.spellings ∧
      findTopLevel symbol test = some (left, right) := by
  obtain ⟨⟨symbol, c⟩, mem, found⟩ := List.exists_of_findSome?_eq_some h
  obtain ⟨⟨l, r⟩, found, same⟩ := Option.map_eq_some_iff.mp found
  cases same
  exact ⟨symbol, mem, found⟩

/-- A single operand is the text itself or a proper piece of it, and the first case is refused. -/
theorem byteLength_lt_of_headD {cs p : List Char}
    (first : (Segments.ofText cs).operands.headD cs = p) (ne : p ≠ cs) :
    byteLength p < byteLength cs := by
  subst first
  cases found : (Segments.ofText cs).operands with
  | nil => simp [found] at ne
  | cons p ps =>
    rw [found, List.headD_cons] at ne
    exact byteLength_lt_of_infix (Segments.infix_of_mem (by simp [found])) ne

theorem byteLength_lt_of_mem_parts {known : Registry} {cs t : List Char}
    (h : t ∈ (outline known cs).parts) : byteLength t < byteLength cs := by
  have rule := ruled known cs
  generalize outline known cs = o at rule h
  cases rule with
  | refused | leaf | name => cases h
  | @comparison content rest test whenTrue whenFalse left right more comparator call cut pieces
      sides =>
    have argument : ∀ p ∈ test :: whenTrue :: whenFalse :: more, byteLength p < byteLength cs :=
      fun p hp => byteLength_lt_of_mem_splitTopLevel cut (pieces ▸ hp)
    have first := argument test (by simp)
    obtain ⟨symbol, -, found⟩ := comparison?_cases sides
    have hl := byteLength_le_of_sublist (infix_of_findTopLevel found).1.sublist
    have hr := byteLength_le_of_sublist (infix_of_findTopLevel found).2.sublist
    simp only [Outline.parts, Option.toList_some, List.cons_append, List.nil_append,
      List.mem_cons, List.not_mem_nil, or_false] at h
    rcases h with rfl | rfl | rfl | rfl
    · omega
    · omega
    · exact argument _ (by simp)
    · exact argument _ (by simp)
  | bare call cut pieces absent =>
    apply byteLength_lt_of_mem_splitTopLevel cut
    rw [pieces]
    simp only [Outline.parts, Option.toList_none, List.cons_append, List.nil_append,
      List.mem_cons, List.not_mem_nil, or_false] at h
    rcases h with rfl | rfl | rfl <;> simp
  | lookup call cut pieces => exact byteLength_lt_of_mem_splitTopLevel cut (pieces ▸ h)
  | single _ _ _ few first ne =>
    obtain rfl := List.mem_singleton.mp h
    exact byteLength_lt_of_headD first ne
  | @chain operands operators _ _ _ many count cut =>
    have mem : t ∈ (Segments.ofText cs).operands := by rwa [cut]
    apply Segments.byteLength_lt_of_mem mem
    intro empty
    rw [cut] at empty
    have none : operators.length = 0 := congrArg List.length empty
    omega
  | group _ _ _ wrapped =>
    obtain rfl := List.mem_singleton.mp h
    exact byteLength_wrappedInterior wrapped

/-- What the outline itself refuses is wrong with the text. -/
theorem isOfText_of_refused {known : Registry} {cs : List Char} {e : ReadingError}
    (h : outline known cs = .refused e) : e.isOfText = true := by
  cases Ruled.of_eq h with
  | refused _ ofText => exact ofText

theorem leaf?_cases {known : Registry} {cs : List Char} {f : Formula}
    (h : leaf? known cs = some f) :
    (∃ v, f = .text v) ∨ (∃ x, x.isFinite = true ∧ f = .number x) ∨ f = cellNamed cs := by
  unfold leaf? at h
  split at h
  · cases h
    exact .inl ⟨_, rfl⟩
  · split at h
    · cases h
      exact .inr (.inr rfl)
    · split at h
      · next hx =>
        cases h
        exact .inr (.inl ⟨_, (Option.filter_eq_some_iff.mp hx).2, rfl⟩)
      · split at h
        · cases h
          exact .inr (.inr rfl)
        · cases h

theorem outline_leaf_cases {known : Registry} {cs : List Char} {f : Formula}
    (h : outline known cs = .leaf f) :
    (∃ v, f = .text v) ∨ (∃ x, x.isFinite = true ∧ f = .number x) ∨ f = cellNamed cs := by
  cases Ruled.of_eq h with
  | leaf _ leaf => exact leaf?_cases leaf
  | name _ _ _ _ named =>
    subst named
    split
    · exact .inl ⟨_, rfl⟩
    · exact .inr (.inr rfl)

end Reading

end CellFormula
