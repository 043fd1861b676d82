import CellFormula.Proofs.LoadedDepth
import CellFormula.Proofs.Records
import CellFormula.Proofs.RereadTrees
import CellFormula.Proofs.ShortNumbers

/-!
# Trees loaded, saved and loaded again

The numbers of a tree that was loaded are finite, and so each has a text that reads as a number. A
tree that was loaded and saved can therefore be loaded again unless its document nests too deep,
which only the arguments that its first document left out can bring about.
-/

namespace CellFormula

namespace Formula

theorem exists_rereadAll {fs : List Formula} (h : ∀ f ∈ fs, ∃ g, f.reread = some g) :
    ∃ gs, rereadAll fs = some gs := by
  induction fs with
  | nil => exact ⟨[], rfl⟩
  | cons f fs ih =>
    obtain ⟨first, rest⟩ := List.forall_mem_cons.mp h
    obtain ⟨g, hg⟩ := first
    obtain ⟨gs, hgs⟩ := ih rest
    exact ⟨g :: gs, rereadAll_eq_some_iff.mpr (.cons hg (rereadAll_eq_some_iff.mp hgs))⟩

/-- Every number of a finite tree reads as some number. -/
theorem exists_reread {f : Formula} (finite : f.Finite) : ∃ g, f.reread = some g := by
  induction f using induction with
  | cell name => exact ⟨.cell name, rfl⟩
  | text value => exact ⟨.text value, rfl⟩
  | number value =>
    obtain ⟨y, hy⟩ := Binary64.exists_reread finite
    exact ⟨.number y, Option.map_eq_some_iff.mpr ⟨y, hy, rfl⟩⟩
  | chain operands operators ih =>
    have finite := everyOf_iff.mp finite.2
    obtain ⟨gs, hgs⟩ := exists_rereadAll fun x hx => ih x hx (finite x hx)
    exact ⟨.chain gs operators, Option.map_eq_some_iff.mpr ⟨gs, hgs, rfl⟩⟩
  | conditional comparator l r t f ihl ihr iht ihf =>
    obtain ⟨-, fl, fr, ft, ff⟩ := finite
    obtain ⟨l', hl⟩ := ihl fl
    obtain ⟨r', hr⟩ := ihr fr
    obtain ⟨t', ht⟩ := iht ft
    obtain ⟨f', hf⟩ := ihf ff
    exact ⟨_, reread_conditional_eq_some_iff.mpr ⟨l', r', t', f', hl, hr, ht, hf, rfl⟩⟩
  | call name arguments ih =>
    have finite := everyOf_iff.mp finite.2
    obtain ⟨gs, hgs⟩ := exists_rereadAll fun x hx => ih x hx (finite x hx)
    exact ⟨.call name gs, Option.map_eq_some_iff.mpr ⟨gs, hgs, rfl⟩⟩

/-- A tree is equal to the one its document reads as just if it keeps its numbers. -/
theorem same_reread_iff {t g : Formula} (finite : t.Finite) (read : t.reread = some g) :
    g.same t = true ↔ t.KeepsNumbers := by
  constructor
  · exact keepsNumbers_of_same read
  · intro kept
    rw [reread_eq_self kept finite] at read
    cases read
    exact same_self finite

/-- A tree that was loaded and saved nests at most one level deeper than the reader goes, and that
only if it holds a call without arguments. It is loaded again just if it nests no deeper than the
reader goes, with every number as its text reads, and so as an equal tree just if it keeps its
numbers, as it does if they are short. -/
theorem ofDocument_resaved {text : String} {t : Formula} (loaded : ofDocument text = .ok t) :
    t.documentDepth ≤ 128 ∧ (t.Every HasArguments → t.documentDepth ≤ 127) ∧
      ((∃ g, ofDocument t.toDocument = .ok g) ↔ t.documentDepth ≤ 127) ∧
      (∀ g, ofDocument t.toDocument = .ok g →
        t.reread = some g ∧ (g.same t = true ↔ t.KeepsNumbers) ∧ (t.KeepsNumbers → g = t)) ∧
      (t.Every ShortNumber → t.KeepsNumbers) := by
  obtain ⟨j, value, described⟩ := ofDocument_eq_ok_iff.mp loaded
  obtain ⟨valid, wellFormed⟩ := valid_ofJson (Json.inRange_readAll value) described
  obtain ⟨named, finite⟩ := (validate_eq_ok_iff t).mp valid
  have least := leastDepth_of_loaded loaded
  have saved (g : Formula) : ofDocument t.toDocument = .ok g ↔
      t.documentDepth ≤ Json.depthLimit ∧ t.WellFormed ∧ t.Named ∧ t.reread = some g :=
    ofDocument_eq_ok_iff_of_document (.inl rfl)
  refine ⟨?_, ?_, ⟨?_, ?_⟩, ?_, keepsNumbers_of_short⟩
  · have := t.documentDepth_le
    omega
  · intro arguments
    exact Nat.le_trans (documentDepth_le_of_hasArguments wellFormed arguments) least
  · rintro ⟨g, read⟩
    exact ((saved g).mp read).1
  · intro fits
    obtain ⟨g, read⟩ := exists_reread finite
    exact ⟨g, (saved g).mpr ⟨fits, wellFormed, named, read⟩⟩
  · intro g read
    obtain ⟨-, -, -, read⟩ := (saved g).mp read
    refine ⟨read, same_reread_iff finite read, ?_⟩
    intro kept
    rw [reread_eq_self kept finite] at read
    exact (Option.some.inj read).symm

/-- `(NOW()+0.1)` in arrays, with the arguments of the call left out. -/
def terseText : String :=
  "[\"operator\",null,\"+\",[[\"function\",\"NOW\"],[\"number\",1e-1]]]"

def terseSum : Formula :=
  .chain [.call "NOW" [], .number (.ofRatio false 1 10)] (.shared .add)

theorem ofDocument_resaved_terseText : ofDocument terseText = .ok terseSum ∧
    terseSum.toDocument = "\x7b\"type\":\"operator\",\"operator\":\"+\",\"args\":[" ++
      "\x7b\"type\":\"function\",\"name\":\"NOW\",\"args\":[]\x7d," ++
        "\x7b\"type\":\"number\",\"value\":0.1\x7d]\x7d" ∧
      ofDocument terseSum.toDocument = .ok terseSum := by
  have loaded : ofDocument terseText = .ok terseSum := by decide +kernel
  have tenth : ShortNumber (.number (.ofRatio false 1 10)) := .inr (by decide +kernel)
  have short : terseSum.Every ShortNumber := ⟨trivial, ⟨trivial, trivial⟩, tenth, trivial⟩
  obtain ⟨-, -, loads, gives, keeps⟩ := ofDocument_resaved loaded
  obtain ⟨g, read⟩ := loads.mpr (by decide)
  obtain rfl := (gives g read).2.2 (keeps short)
  exact ⟨loaded, by decide +kernel, read⟩

/-- Lookups around a call without arguments, which it leaves out. -/
def openCalls : Nat → Json
  | 0 => .object [("type", .string "function"), ("name", .string "NOW")]
  | n + 1 => .object [("type", .string "function"), ("name", .string "lookup"),
      ("args", .array [openCalls n])]

def closedCalls : Nat → Formula
  | 0 => .call "NOW" []
  | n + 1 => .call "lookup" [closedCalls n]

theorem depth_openCalls (n : Nat) : (openCalls n).depth = 2 * n + 1 := by
  induction n with
  | zero => rfl
  | succ n ih =>
    simp only [openCalls, Json.depth, Json.depthMembers, Json.depthItems, ih]
    omega

theorem documentDepth_closedCalls (n : Nat) : (closedCalls n).documentDepth = 2 * n + 2 := by
  induction n with
  | zero => rfl
  | succ n ih =>
    simp only [closedCalls, documentDepth, deepest, ih]
    omega

theorem reread_openCalls (n : Nat) : (openCalls n).reread = some (openCalls n) := by
  induction n with
  | zero => rfl
  | succ n ih => simp [openCalls, Json.reread, Json.rereadMembers, Json.rereadItems, ih]

theorem ofMembers_call (name : String) {v : View} {args : List Node} (h : v.nodes = .ok args) :
    Node.ofMembers .function [("name", View.of (.string name)), ("args", v)] =
      .ok (.function name args) := by
  obtain ⟨json, node, nodes, condition⟩ := v
  cases h
  rfl

/-- Inside another node and by itself, as its tag is a string. -/
theorem node_openCalls (n : Nat) :
    (View.of (openCalls n)).node = .ok (Node.ofFormula (closedCalls n)) ∧
      Node.ofJson (openCalls n) = .ok (Node.ofFormula (closedCalls n)) := by
  induction n with
  | zero => exact ⟨rfl, rfl⟩
  | succ n ih =>
    have inside : (View.of (.array [openCalls n])).nodes =
        .ok [Node.ofFormula (closedCalls n)] := by
      simp only [View.of, View.ofList, List.mapM_cons, List.mapM_nil, ih.1]
      rfl
    rw [openCalls, View.of]
    exact ⟨ofMembers_call "lookup" inside, ofMembers_call "lookup" inside⟩

theorem wellFormed_closedCalls (n : Nat) : (closedCalls n).WellFormed := by
  induction n with
  | zero => trivial
  | succ n ih => exact ⟨ih, trivial⟩

theorem named_closedCalls (n : Nat) : (closedCalls n).Named := by
  induction n with
  | zero => exact ⟨nofun, trivial⟩
  | succ n ih => exact ⟨nofun, ih, trivial⟩

theorem ofDocument_openCalls {n : Nat} (few : n ≤ 63) :
    ofDocument (openCalls n).toText = .ok (closedCalls n) := by
  have fits : 2 * n + 1 ≤ Json.depthLimit := by
    rw [Json.depthLimit]
    omega
  have built : (Node.ofFormula (closedCalls n)).toFormula = .ok (closedCalls n) :=
    Node.toFormula_ofFormula_eq_ok_iff.mpr
      ⟨⟨wellFormed_closedCalls n, named_closedCalls n⟩, rfl⟩
  rw [ofDocument_eq_ok_iff, Json.toText, Json.compact_eq_styled _ 0, Json.readAll_styled,
    Json.readBack, depth_openCalls, reread_openCalls, if_pos fits]
  exact ⟨openCalls n, rfl, ofJson_eq_ok_iff.mpr ⟨_, (node_openCalls n).2, built⟩⟩

/-- Of 63 lookups around a call without arguments the document can be loaded if it leaves the
arguments out, but not once it has been saved; and `2 ^ 53 - 1` is loaded the second time as the
number before it. -/
theorem loaded_not_resaved :
    (∃ t, ofDocument (openCalls 63).toText = .ok t ∧ ∀ g, ofDocument t.toDocument ≠ .ok g) ∧
      ∃ t g, ofDocument "\x7b\"type\":\"number\",\"value\":9007199254740991\x7d" = .ok t ∧
        ofDocument t.toDocument = .ok g ∧ g.same t = false := by
  constructor
  · refine ⟨closedCalls 63, ofDocument_openCalls (Nat.le_refl 63), fun g read => ?_⟩
    have fits := ((ofDocument_eq_ok_iff_of_document (.inl rfl)).mp read).1
    rw [documentDepth_closedCalls] at fits
    exact absurd fits (by decide)
  · exact ⟨.number (.ofNat (2 ^ 53 - 1)), .number (.ofNat (2 ^ 53 - 2)), by decide +kernel⟩

end Formula

end CellFormula
