import CellFormula.Proofs.Documents
import CellFormula.Proofs.LoadedTrees

/-!
# How deep loaded trees are

No value is read that nests deeper than the reader goes. The tree that a value describes nests in a
document of its own no deeper than that value, save for one thing: a call without arguments is
always written with an empty list of them, and the value may have left the list out.
-/

namespace CellFormula

open Reading (bind_eq_ok_iff)

namespace Json

theorem depthItems_le_iff {js : List Json} {n : Nat} :
    depthItems js ≤ n ↔ ∀ j ∈ js, j.depth ≤ n :=
  greatest_le_iff rfl fun _ _ => rfl

theorem depthMembers_le_iff {ms : List (String × Json)} {n : Nat} :
    depthMembers ms ≤ n ↔ ∀ m ∈ ms, m.2.depth ≤ n :=
  greatest_le_iff rfl fun _ _ => rfl

theorem depth_of_read {ε : Type} {fuel depth : Nat} {cs rest : List Char} {j : Json}
    (h : (read fuel depth cs : Except (ReadError ε) _) = .ok (j, rest)) : j.depth ≤ depth := by
  induction depth generalizing cs rest j with
  | zero =>
    cases read_ok h with
    | null | bool | string | number => exact Nat.zero_le _
  | succ depth ih =>
    cases read_ok h with
    | null | bool | string | number => exact Nat.zero_le _
    | array opening read =>
      have items := depthItems_le_iff.mpr (forall_of_readItems ih read)
      rw [Json.depth]
      omega
    | object opening read =>
      have members := depthMembers_le_iff.mpr (forall_of_readMembers ih read)
      rw [Json.depth]
      omega

theorem depth_of_readAll {ε : Type} {depth : Nat} {text : String} {j : Json}
    (h : (readAll (read · depth) text : Except (ReadError ε) _) = .ok j) : j.depth ≤ depth := by
  obtain ⟨fuel, cs, rest, read⟩ := exists_of_readAll h
  exact depth_of_read read

end Json

namespace Formula

mutual

/-- How many arrays and objects nest at least in a value that describes the tree. -/
def leastDepth : Formula → Nat
  | .chain operands _ => 1 + leastInside operands
  | .conditional _ left right whenTrue whenFalse =>
    max (2 + max left.leastDepth right.leastDepth)
      (1 + max whenTrue.leastDepth whenFalse.leastDepth)
  | .call _ arguments => 1 + leastInside arguments
  | _ => 1

/-- The same for a list of trees, which is left out if it is empty. -/
def leastInside : List Formula → Nat
  | [] => 0
  | x :: xs => max (1 + x.leastDepth) (leastInside xs)

end

theorem deepest_le_leastInside {xs : List Formula}
    (h : ∀ x ∈ xs, x.documentDepth ≤ x.leastDepth + 1) : deepest xs ≤ leastInside xs := by
  induction xs with
  | nil => exact Nat.le_refl 0
  | cons x xs ih =>
    obtain ⟨first, rest⟩ := List.forall_mem_cons.mp h
    have := ih rest
    simp only [deepest, leastInside]
    omega

theorem documentDepth_le (f : Formula) : f.documentDepth ≤ f.leastDepth + 1 := by
  induction f using induction with
  | cell | number | text => exact Nat.le_succ 1
  | chain operands operators ih | call name arguments ih =>
    have inside := deepest_le_leastInside ih
    simp only [documentDepth, leastDepth]
    omega
  | conditional comparator l r t f ihl ihr iht ihf =>
    simp only [documentDepth, leastDepth]
    omega

/-- The node has arguments, if it is a call. -/
def HasArguments : Formula → Prop
  | .call _ arguments => arguments ≠ []
  | _ => True

theorem deepest_lt_leastInside {xs : List Formula} (nonempty : xs ≠ [])
    (h : ∀ x ∈ xs, x.documentDepth ≤ x.leastDepth) : deepest xs + 1 ≤ leastInside xs := by
  induction xs with
  | nil => exact absurd rfl nonempty
  | cons x xs ih =>
    obtain ⟨first, rest⟩ := List.forall_mem_cons.mp h
    cases xs with
    | nil =>
      simp only [deepest, leastInside]
      omega
    | cons y ys =>
      have := ih (List.cons_ne_nil y ys) rest
      rw [deepest, leastInside]
      omega

theorem documentDepth_le_of_hasArguments {f : Formula} (wellFormed : f.WellFormed)
    (h : f.Every HasArguments) : f.documentDepth ≤ f.leastDepth := by
  induction f using induction with
  | cell | number | text => exact Nat.le_refl 1
  | chain operands operators ih =>
    obtain ⟨fits, wellFormed⟩ := wellFormed
    have wellFormed := wellFormedList_iff.mp wellFormed
    have children := everyOf_iff.mp h.2
    have nonempty : operands ≠ [] := by
      rintro rfl
      exact absurd (Operators.two_le fits) (by decide)
    have inside := deepest_lt_leastInside nonempty fun x hx =>
      ih x hx (wellFormed x hx) (children x hx)
    simp only [documentDepth, leastDepth]
    omega
  | conditional comparator l r t f ihl ihr iht ihf =>
    obtain ⟨wl, wr, wt, wf⟩ := wellFormed
    obtain ⟨-, hl, hr, ht, hf⟩ := h
    have := ihl wl hl
    have := ihr wr hr
    have := iht wt ht
    have := ihf wf hf
    simp only [documentDepth, leastDepth]
    omega
  | call name arguments ih =>
    have wellFormed := wellFormedList_iff.mp wellFormed
    have children := everyOf_iff.mp h.2
    have inside := deepest_lt_leastInside h.1 fun x hx => ih x hx (wellFormed x hx) (children x hx)
    simp only [documentDepth, leastDepth]
    omega

end Formula

/-- The trees that a value describes where it may stand in a node need no more than the depth. -/
structure View.Within (depth : Nat) (v : View) : Prop where
  node : ∀ {n f}, v.node = .ok n → n.toFormula = .ok f → f.leastDepth ≤ depth
  nodes : ∀ {ns fs}, v.nodes = .ok ns → Node.toFormulas ns = .ok fs →
    Formula.leastInside fs ≤ depth
  condition : ∀ {c l r}, v.condition = .ok c → c.left.toFormula = .ok l →
    c.right.toFormula = .ok r → 1 + max l.leastDepth r.leastDepth ≤ depth

theorem View.Within.mono {d d' : Nat} {v : View} (h : v.Within d) (le : d ≤ d') : v.Within d' :=
  ⟨fun node built => Nat.le_trans (h.node node built) le,
    fun nodes built => Nat.le_trans (h.nodes nodes built) le,
    fun condition left right => Nat.le_trans (h.condition condition left right) le⟩

theorem Condition.within_of_madeFrom {d : Nat} {vs : List View} (within : ∀ v ∈ vs, v.Within d)
    {c : Condition} (h : c.MadeFrom vs) {l r : Formula} (left : c.left.toFormula = .ok l)
    (right : c.right.toFormula = .ok r) : 1 + max l.leastDepth r.leastDepth ≤ 1 + d := by
  obtain ⟨⟨v, hv, left'⟩, ⟨v', hv', right'⟩⟩ := h
  have := (within v hv).node left' left
  have := (within v' hv').node right' right
  omega

namespace Node

theorem inside_of_arguments {d : Nat} {vs : List View} (within : ∀ v ∈ vs, v.Within d)
    {args : List Node} (h : args = [] ∨ ∃ v ∈ vs, v.nodes = .ok args) {fs : List Formula}
    (built : toFormulas args = .ok fs) : Formula.leastInside fs ≤ d := by
  rcases h with rfl | ⟨v, hv, nodes⟩
  · cases built
    exact Nat.zero_le d
  · exact (within v hv).nodes nodes built

theorem within_of_madeFrom {d : Nat} {vs : List View} (within : ∀ v ∈ vs, v.Within d) {n : Node}
    (h : MadeFrom vs n) {f : Formula} (built : n.toFormula = .ok f) : f.leastDepth ≤ 1 + d := by
  cases h with
  | cellValue value =>
    cases toFormula_eq_ok_iff.mp built
    exact Nat.le_add_right 1 d
  | number | textbox =>
    cases toFormula_eq_ok_iff.mp built
    exact Nat.le_add_right 1 d
  | operator list shared h =>
    cases toFormula_eq_ok_iff.mp built with
    | operator chain operands =>
      have inside := inside_of_arguments within h (toFormulas_eq_ok_iff.mpr operands)
      simp only [Chain.toFormula, Formula.leastDepth]
      omega
  | conditional condition whenTrue whenFalse =>
    cases toFormula_eq_ok_iff.mp built with
    | conditional spelled left right ht hf =>
      obtain ⟨v, hv, condition⟩ := condition
      obtain ⟨v', hv', whenTrue⟩ := whenTrue
      obtain ⟨v'', hv'', whenFalse⟩ := whenFalse
      have := (within v hv).condition condition left right
      have := (within v' hv').node whenTrue ht
      have := (within v'' hv'').node whenFalse hf
      simp only [Formula.leastDepth]
      omega
  | function name h =>
    cases toFormula_eq_ok_iff.mp built with
    | function each =>
      have inside := inside_of_arguments within h (toFormulas_eq_ok_iff.mpr each)
      simp only [Formula.leastDepth]
      omega

theorem within_of_mapM {d : Nat} {vs : List View} (within : ∀ v ∈ vs, v.Within d) {ns : List Node}
    (h : vs.mapM View.node = .ok ns) {fs : List Formula} (built : toFormulas ns = .ok fs) :
    Formula.leastInside fs ≤ 1 + d := by
  induction vs generalizing ns fs with
  | nil =>
    cases h
    cases built
    exact Nat.zero_le _
  | cons v vs ih =>
    obtain ⟨first, within⟩ := List.forall_mem_cons.mp within
    rw [List.mapM_cons] at h
    obtain ⟨n, node, h⟩ := bind_eq_ok_iff.mp h
    obtain ⟨ns, nodes, h⟩ := bind_eq_ok_iff.mp h
    cases h
    obtain ⟨f, hf, built⟩ := bind_eq_ok_iff.mp built
    obtain ⟨fs, hfs, built⟩ := bind_eq_ok_iff.mp built
    cases built
    have := first.node node hf
    have := ih within nodes hfs
    rw [Formula.leastInside]
    omega

end Node

namespace View

mutual

theorem within_of : ∀ j : Json, (of j).Within j.depth
  | .null | .bool _ | .string _ | .number _ => ⟨nofun, nofun, nofun⟩
  | .array items => by
    have within := within_ofList items
    rw [of, Json.depth]
    exact ⟨fun h => Node.within_of_madeFrom within (Node.madeFrom_ofParts_items h),
      fun h => Node.within_of_mapM within h,
      fun h => Condition.within_of_madeFrom within (Condition.madeFrom_ofItems h)⟩
  | .object members => by
    have within := within_ofMembers members
    rw [of, Json.depth]
    exact ⟨fun h => Node.within_of_madeFrom within (Node.madeFrom_ofParts_members h), nofun,
      fun h => Condition.within_of_madeFrom within (Condition.madeFrom_ofMembers h)⟩

theorem within_ofList : ∀ js : List Json, ∀ v ∈ ofList js, v.Within (Json.depthItems js)
  | [] => List.forall_mem_nil _
  | j :: js => List.forall_mem_cons.mpr ⟨(within_of j).mono (Nat.le_max_left _ _),
      fun v hv => (within_ofList js v hv).mono (Nat.le_max_right _ _)⟩

theorem within_ofMembers :
    ∀ ms : List (String × Json), ∀ v ∈ (ofMembers ms).map Prod.snd, v.Within (Json.depthMembers ms)
  | [] => List.forall_mem_nil _
  | (_, j) :: ms => List.forall_mem_cons.mpr ⟨(within_of j).mono (Nat.le_max_left _ _),
      fun v hv => (within_ofMembers ms v hv).mono (Nat.le_max_right _ _)⟩

end

end View

namespace Formula

/-- A tree needs no more depth than the value that describes it has. -/
theorem leastDepth_ofJson {j : Json} {t : Formula} (h : ofJson j = .ok t) :
    t.leastDepth ≤ j.depth := by
  obtain ⟨node, decoded, built⟩ := ofJson_eq_ok_iff.mp h
  cases j with
  | array items =>
    exact Node.within_of_madeFrom (View.within_ofList items) (Node.madeFrom_ofParts_items decoded)
      built
  | object members =>
    exact Node.within_of_madeFrom (View.within_ofMembers members)
      (Node.madeFrom_ofParts_members decoded) built
  | _ => cases decoded

theorem leastDepth_of_loaded {text : String} {t : Formula} (loaded : ofDocument text = .ok t) :
    t.leastDepth ≤ 127 := by
  obtain ⟨j, read, described⟩ := ofDocument_eq_ok_iff.mp loaded
  exact Nat.le_trans (leastDepth_ofJson described) (Json.depth_of_readAll read)

end Formula

end CellFormula
