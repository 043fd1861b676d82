import CellFormula.Proofs.Outline
import Mathlib.Algebra.Group.Int.Defs
import Mathlib.Algebra.Group.Nat.Defs

/-!
# Depths in 32 bits

A scan that keeps its depths in 32 bits is everywhere where the scan with integers is, up to
multiples of 2^32. A depth is never greater than the number of characters read. So the two scans
make the same cuts in a text of fewer than 2^31 bytes, and it is read alike by both.
-/

namespace CellFormula

open Text Scan

theorem ofInt_eq_zero_iff {a : Int} (small : a.natAbs < 2 ^ 32) : Int32.ofInt a = 0 ↔ a = 0 := by
  rw [← Int32.toInt_inj, Int32.toInt_ofInt, Int32.toInt_zero]
  constructor
  · intro zero
    have multiple := Int.dvd_of_bmod_eq_zero zero
    rw [Int32.size] at multiple
    omega
  · rintro rfl
    rfl

theorem ofInt_le_zero_iff {a : Int} (low : -2 ^ 31 ≤ a) (high : a < 2 ^ 31) :
    Int32.ofInt a ≤ 0 ↔ a ≤ 0 := by
  rw [Int32.le_iff_toInt_le, Int32.toInt_ofInt_of_le low high, Int32.toInt_zero]

theorem zero_le_ofInt {a : Int} (low : 0 ≤ a) (high : a < 2 ^ 31) : 0 ≤ Int32.ofInt a := by
  rwa [Int32.le_iff_toInt_le, Int32.toInt_ofInt_of_le (by omega) high, Int32.toInt_zero]

theorem count_cons_eq (d c : Char) (cs : List Char) :
    (c :: cs).count d = [c].count d + cs.count d := by
  rw [← List.singleton_append, List.count_append]

namespace Nesting

/-- The same place with the depths in 32 bits. -/
def narrow (n : Nesting) : Nesting Int32 :=
  ⟨.ofInt n.parens, .ofInt n.brackets, n.quoted⟩

theorem narrow_step (n : Nesting) (c : Char) : n.narrow.step c = (n.step c).narrow := by
  unfold step narrow
  split_ifs <;> simp only [Int32.ofInt_add, Int32.ofInt_sub] <;> rfl

theorem narrow_run (n : Nesting) (cs : List Char) : n.narrow.run cs = (n.run cs).narrow := by
  induction cs generalizing n with
  | nil => rfl
  | cons c cs ih => rw [run_cons, run_cons, narrow_step, ih]

theorem narrow_scan (n : Nesting) (cs : List Char) :
    n.narrow.scan cs = (n.scan cs).map fun p => (p.1, p.2.narrow) := by
  induction cs generalizing n with
  | nil => rfl
  | cons c cs ih => rw [scan, scan, narrow_step, ih, List.map_cons]

theorem run_int32 (cs : List Char) : (start Int32).run cs = (start.run cs).narrow :=
  narrow_run start cs

theorem scan_int32 (cs : List Char) :
    (start Int32).scan cs = (start.scan cs).map fun p => (p.1, p.2.narrow) :=
  narrow_scan start cs

theorem depth_narrow (d : Delimiter) (n : Nesting) : d.depth n.narrow = .ofInt (d.depth n) := by
  cases d <;> rfl

theorem fst_mem_of_mem_scan {α : Type} [Depth α] {n : Nesting α} {cs : List Char}
    {p : Char × Nesting α} (h : p ∈ n.scan cs) : p.1 ∈ cs := by
  induction cs generalizing n with
  | nil => cases h
  | cons c cs ih =>
    rcases List.mem_cons.mp h with rfl | h
    · exact List.mem_cons_self
    · exact List.mem_cons_of_mem c (ih h)

/-- A scan comes to where a text leads with the last character of the text. -/
theorem run_mem_scan {α : Type} [Depth α] {n : Nesting α} {xs : List Char} (ne : xs ≠ [])
    (ys : List Char) : ∃ c, (c, n.run xs) ∈ n.scan (xs ++ ys) := by
  induction xs generalizing n with
  | nil => exact absurd rfl ne
  | cons c xs ih =>
    cases xs with
    | nil => exact ⟨c, List.mem_cons_self⟩
    | cons d xs =>
      obtain ⟨last, mem⟩ := ih (n := n.step c) (List.cons_ne_nil d xs)
      exact ⟨last, List.mem_cons_of_mem _ mem⟩

/-- One character moves a depth by one at most, and only its own delimiters do. -/
theorem depth_step (d : Delimiter) (n : Nesting) (c : Char) :
    d.depth n - [c].count d.closing ≤ d.depth (n.step c) ∧
      d.depth (n.step c) ≤ d.depth n + [c].count d.opening := by
  unfold step
  cases d <;> simp only [Delimiter.depth, Delimiter.opening, Delimiter.closing] <;>
    split_ifs <;> simp_all <;> omega

/-- A depth is bounded by the numbers of its delimiters that have been read. -/
theorem depth_of_mem_scan {d : Delimiter} {n : Nesting} {cs : List Char} {p : Char × Nesting}
    (h : p ∈ n.scan cs) : d.depth n - cs.count d.closing ≤ d.depth p.2 ∧
      d.depth p.2 ≤ d.depth n + cs.count d.opening := by
  induction cs generalizing n with
  | nil => cases h
  | cons c cs ih =>
    have here := depth_step d n c
    have closers := count_cons_eq d.closing c cs
    have openers := count_cons_eq d.opening c cs
    rcases List.mem_cons.mp h with rfl | h
    · dsimp only
      omega
    · have later := ih h
      omega

/-- A depth is never greater than the number of characters read. -/
theorem natAbs_depth_le_length {d : Delimiter} {cs : List Char} {p : Char × Nesting}
    (h : p ∈ start.scan cs) : (d.depth p.2).natAbs ≤ cs.length := by
  have bounds := depth_of_mem_scan (d := d) h
  have zero : d.depth start = 0 := by cases d <;> rfl
  have openers : cs.count d.opening ≤ cs.length := List.count_le_length
  have closers : cs.count d.closing ≤ cs.length := List.count_le_length
  omega

theorem isTopLevel_narrow {n : Nesting} (small : ∀ d : Delimiter, (d.depth n).natAbs < 2 ^ 32) :
    n.narrow.isTopLevel = n.isTopLevel := by
  have parens := ofInt_eq_zero_iff (small .paren)
  have brackets := ofInt_eq_zero_iff (small .bracket)
  rw [Bool.eq_iff_iff]
  simp only [isTopLevel, narrow, Bool.and_eq_true, beq_iff_eq]
  exact and_congr (and_congr_right' parens) brackets

end Nesting

namespace Scan

open Nesting

/-- A search within delimiters that never gets 2^31 levels deep finds the same in 32 bits. -/
theorem Delimiter.interiorFrom_narrow {d : Delimiter} {n : Nesting} {cs : List Char}
    (deep : 0 < d.depth n) (low : ∀ p ∈ n.scan cs, d.depth p.2 < 2 ^ 31) :
    d.interiorFrom n.narrow cs = d.interiorFrom n cs := by
  induction cs generalizing n with
  | nil => rfl
  | cons c cs ih =>
    obtain ⟨here, later⟩ := List.forall_mem_cons.mp low
    have moved := (depth_step d n c).1
    have once : [c].count d.closing ≤ 1 := List.count_le_length
    have closes : d.depth (n.step c).narrow ≤ 0 ↔ d.depth (n.step c) ≤ 0 := by
      rw [depth_narrow]
      exact ofInt_le_zero_iff (by omega) here
    simp only [interiorFrom, narrow_step]
    by_cases shut : d.depth (n.step c) ≤ 0
    · rw [if_pos shut, if_pos (closes.mpr shut)]
    · rw [if_neg shut, if_neg (mt closes.mp shut), ih (Int.not_le.mp shut) later]

theorem wrappedInterior_narrow {d : Delimiter} {cs : List Char}
    (low : ∀ p ∈ start.scan cs, d.depth p.2 < 2 ^ 31) :
    wrappedInterior d cs Int32 = wrappedInterior d cs := by
  cases cs with
  | nil => rfl
  | cons c cs =>
    simp only [wrappedInterior]
    by_cases ends : c = d.opening ∧ cs.getLast? = some d.closing
    · obtain ⟨rfl, -⟩ := id ends
      have deep : 0 < d.depth (start.step d.opening) := by cases d <;> decide
      have opened : (start Int32).step d.opening = (start.step d.opening).narrow :=
        narrow_step start d.opening
      rw [if_pos ends, if_pos ends, opened]
      exact Delimiter.interiorFrom_narrow deep (List.forall_mem_cons.mp low).2
    · rw [if_neg ends, if_neg ends]

/-- A count of parentheses that never gets 2^32 levels deep stops at the same one in 32 bits. -/
theorem closing?_narrow {depth : Int} {cs : List Char} (deep : 0 < depth)
    (low : ∀ p, p <+: cs → depth + p.count '(' < p.count ')' + 2 ^ 32) :
    closing? (Int32.ofInt depth) cs = closing? depth cs := by
  induction cs generalizing depth with
  | nil => rfl
  | cons c cs ih =>
    have onward : ∀ e : Int, 0 < e → e = depth + [c].count '(' - [c].count ')' →
        closing? (Int32.ofInt e) cs = closing? e cs := by
      intro e positive moved
      refine ih positive fun p prefixed => ?_
      have longer := low (c :: p) (List.cons_prefix_cons.mpr ⟨rfl, prefixed⟩)
      rw [count_cons_eq _ c p, count_cons_eq _ c p] at longer
      omega
    have up : Int32.ofInt depth + 1 = .ofInt (depth + 1) := (Int32.ofInt_add depth 1).symm
    have down : Int32.ofInt depth - 1 = .ofInt (depth - 1) := (Int32.ofInt_sub depth 1).symm
    simp only [closing?, up, down]
    split
    · next opens => rw [onward (depth + 1) (by omega) (by simp [opens])]
    · next other =>
      split
      · next shuts =>
        have room := low [] List.nil_prefix
        rw [List.count_nil, List.count_nil] at room
        have last : Int32.ofInt (depth - 1) = 0 ↔ depth - 1 = 0 :=
          ofInt_eq_zero_iff (by omega)
        by_cases zero : depth - 1 = 0
        · rw [if_pos zero, if_pos (last.mpr zero)]
        · rw [if_neg zero, if_neg (mt last.mp zero),
            onward (depth - 1) (by omega) (by simp [shuts])]
      · next neither => rw [onward depth deep (by simp [other, neither])]

/-- No stretch of the text opens `k` parentheses more than it closes. -/
def OpensBelow (k : Nat) (cs : List Char) : Prop :=
  ∀ part, part <:+: cs → part.count '(' < part.count ')' + k

theorem opensBelow_of_count_lt {k : Nat} {cs : List Char} (h : cs.count '(' < k) :
    OpensBelow k cs := by
  intro part infixed
  have fewer : part.count '(' ≤ cs.count '(' := infixed.sublist.count_le '('
  omega

theorem OpensBelow.mono {j k : Nat} {cs : List Char} (h : OpensBelow j cs) (le : j ≤ k) :
    OpensBelow k cs :=
  fun part infixed => Nat.lt_of_lt_of_le (h part infixed) (Nat.add_le_add_left le _)

theorem OpensBelow.of_infix {k : Nat} {xs ys : List Char} (h : OpensBelow k ys)
    (infixed : xs <:+: ys) : OpensBelow k xs :=
  fun part within => h part (within.trans infixed)

/-- Past an opening parenthesis one is open, and what begins there opens less than `k - 1` more. -/
theorem OpensBelow.prefix_lt {k : Nat} {cs p : List Char} (h : OpensBelow k ('(' :: cs))
    (prefixed : p <+: cs) : (1 + p.count '(' : Int) < p.count ')' + k := by
  have stretch := h ('(' :: p) (List.cons_prefix_cons.mpr ⟨rfl, prefixed⟩).isInfix
  have open_one : ('(' :: p).count '(' = p.count '(' + 1 := List.count_cons_self
  have close_none : ('(' :: p).count ')' = p.count ')' := List.count_cons_of_ne (by decide)
  omega

/-- Calls end at the same parenthesis unless 2^32 parentheses are open at once. -/
theorem splitCall_narrow {cs : List Char} (opens : OpensBelow (2 ^ 32) cs) :
    splitCall cs Int32 = splitCall cs := by
  induction cs with
  | nil => rfl
  | cons c cs ih =>
    simp only [splitCall]
    split
    · next paren =>
      subst paren
      exact closing?_narrow Int.one_pos fun p prefixed => opens.prefix_lt prefixed
    · exact ih (opens.of_infix (List.suffix_cons c cs).isInfix)

section

variable {n : Nesting} {cs : List Char}
  (alike : ∀ p ∈ n.scan cs, p.2.narrow.isTopLevel = p.2.isTopLevel)

include alike

theorem rawPieces_narrow (separator : Char) :
    rawPieces separator n.narrow cs = rawPieces separator n cs := by
  induction cs generalizing n with
  | nil => rfl
  | cons c cs ih =>
    obtain ⟨here, later⟩ := List.forall_mem_cons.mp alike
    simp only [rawPieces, narrow_step, ih later, here]

theorem findFrom_narrow (needle : List Char) :
    findFrom needle n.narrow cs = findFrom needle n cs := by
  induction cs generalizing n with
  | nil => rfl
  | cons c cs ih =>
    obtain ⟨here, later⟩ := List.forall_mem_cons.mp alike
    simp only [findFrom, narrow_step, ih later, here]

theorem rawSegments_narrow (blank : Bool) :
    rawSegments n.narrow blank cs = rawSegments n blank cs := by
  induction cs generalizing n blank with
  | nil => rfl
  | cons c cs ih =>
    obtain ⟨here, later⟩ := List.forall_mem_cons.mp alike
    simp only [rawSegments, narrow_step, ih later, here]

end

section

variable {cs : List Char} (short : byteLength cs < 2 ^ 31)

include short

theorem natAbs_depth_lt (d : Delimiter) {p : Char × Nesting} (mem : p ∈ start.scan cs) :
    (d.depth p.2).natAbs < 2 ^ 31 := by
  have depth := natAbs_depth_le_length (d := d) mem
  have := length_le_byteLength cs
  omega

theorem isTopLevel_narrow_of_mem_scan :
    ∀ p ∈ start.scan cs, p.2.narrow.isTopLevel = p.2.isTopLevel := by
  intro p mem
  refine isTopLevel_narrow fun d => ?_
  exact Nat.lt_trans (natAbs_depth_lt short d mem) (by decide)

theorem hasTopLevelOperator_int32 : hasTopLevelOperator cs Int32 = hasTopLevelOperator cs := by
  rw [hasTopLevelOperator, hasTopLevelOperator, scan_int32, List.any_map, Bool.eq_iff_iff,
    List.any_eq_true, List.any_eq_true]
  refine exists_congr fun p => and_congr_right fun mem => ?_
  dsimp only [Function.comp_apply]
  rw [isTopLevel_narrow_of_mem_scan short p mem]

theorem splitTopLevel_int32 (separator : Char) :
    splitTopLevel separator cs Int32 = splitTopLevel separator cs := by
  have pieces := rawPieces_narrow (isTopLevel_narrow_of_mem_scan short) separator
  exact congrArg (fun ps => dropEmptyLast (ps.map trim)) pieces

theorem findTopLevel_int32 (needle : List Char) :
    findTopLevel needle cs Int32 = findTopLevel needle cs :=
  findFrom_narrow (isTopLevel_narrow_of_mem_scan short) needle

theorem Segments.ofText_int32 : Segments.ofText cs Int32 = Segments.ofText cs := by
  have segments := rawSegments_narrow (isTopLevel_narrow_of_mem_scan short) true
  rw [ofText, ofText, ← segments]
  rfl

theorem wrappedInterior_int32 (d : Delimiter) :
    wrappedInterior d cs Int32 = wrappedInterior d cs := by
  apply wrappedInterior_narrow
  intro p mem
  have depth := natAbs_depth_lt short d mem
  omega

theorem splitCall_int32 : splitCall cs Int32 = splitCall cs := by
  apply splitCall_narrow
  apply opensBelow_of_count_lt
  have openers : cs.count '(' ≤ cs.length := List.count_le_length
  have := length_le_byteLength cs
  omega

end

end Scan

namespace Reading

open Scan

section

variable {cs : List Char} (short : byteLength cs < 2 ^ 31)

include short

theorem quotedInterior_int32 : quotedInterior cs Int32 = quotedInterior cs := by
  simp only [quotedInterior, hasTopLevelOperator_int32 short]

theorem leaf?_int32 (known : Registry) : leaf? known cs Int32 = leaf? known cs := by
  simp only [leaf?, quotedInterior_int32 short, wrappedInterior_int32 short]

theorem comparison?_int32 : comparison? cs Int32 = comparison? cs := by
  simp only [comparison?, findTopLevel_int32 short]

theorem condition_int32 (inner : Reader) : condition inner cs Int32 = condition inner cs := by
  simp only [condition, comparison?_int32 short]

theorem chain_int32 (inner : Reader) : chain inner cs Int32 = chain inner cs := by
  simp only [chain, Segments.ofText_int32 short]

theorem grouping_int32 (inner : Reader) : grouping inner cs Int32 = grouping inner cs := by
  simp only [grouping, wrappedInterior_int32 short]

theorem callArguments_int32 (keyword : Keyword) :
    callArguments keyword cs Int32 = callArguments keyword cs := by
  simp only [callArguments, splitCall_int32 short]
  cases cut : splitCall cs with
  | none => rfl
  | some sides =>
    have shorter := byteLength_splitCall cut
    simp only [splitTopLevel_int32 (Nat.lt_trans shorter short)]

theorem conditional_int32 (inner : Reader) :
    conditional inner cs Int32 = conditional inner cs := by
  simp only [conditional, callArguments_int32 short]
  cases found : callArguments .conditional cs with
  | error e => rfl
  | ok arguments =>
    match arguments with
    | [] | [_] | [_, _] => rfl
    | c :: t :: f :: more =>
      have piece : byteLength c < byteLength cs := by
        cases cut : splitCall cs with
        | none => simp [callArguments, cut] at found
        | some sides =>
          rw [callArguments, cut] at found
          have mem : c ∈ splitTopLevel ',' sides.1 :=
            Except.ok.inj found ▸ List.mem_cons_self
          exact byteLength_lt_of_mem_splitTopLevel cut mem
      dsimp only [bind, Except.bind]
      rw [condition_int32 (Nat.lt_trans piece short)]

theorem lookup_int32 (inner : Reader) : lookup inner cs Int32 = lookup inner cs := by
  simp only [lookup, callArguments_int32 short]

theorem rules_int32 (known : Registry) (inner : Reader) :
    rules known inner cs Int32 = rules known inner cs := by
  simp only [rules, conditional_int32 short, lookup_int32 short, leaf?_int32 short,
    hasTopLevelOperator_int32 short, chain_int32 short, grouping_int32 short]

end

theorem mapM_congr {inner other : Reader} {texts : List (List Char)}
    (h : ∀ t ∈ texts, inner t = other t) : texts.mapM inner = texts.mapM other := by
  induction texts with
  | nil => rfl
  | cons t texts ih =>
    obtain ⟨here, later⟩ := List.forall_mem_cons.mp h
    rw [List.mapM_cons, List.mapM_cons, here, ih later]

theorem Outline.read_congr {o : Outline} {inner other : Reader}
    (h : ∀ t ∈ o.parts, inner t = other t) : o.read inner = o.read other := by
  cases o with
  | leaf | refused => rfl
  | inside text => exact h text List.mem_cons_self
  | chain operands operators =>
    have same : operands.mapM inner = operands.mapM other := mapM_congr h
    simp only [read, same]
  | conditional comparator left right whenTrue whenFalse =>
    cases right <;>
      simp only [parts, Option.toList_none, Option.toList_some, List.cons_append, List.nil_append,
        List.forall_mem_cons] at h <;>
      simp only [read, h]
  | lookup arguments =>
    have same : arguments.mapM inner = arguments.mapM other := mapM_congr h
    simp only [read, same]

/-- A text of fewer than 2^31 bytes is read alike with depths in 32 bits and with integers. -/
theorem expressionIn_int32 (options : ParseOptions) (n : Nat) {cs : List Char}
    (short : byteLength cs < 2 ^ 31) :
    expressionIn Int32 options n cs = expression options n cs := by
  induction n generalizing cs with
  | zero => rfl
  | succ n ih =>
    have trimmed := Nat.lt_of_le_of_lt (byteLength_trim_le cs) short
    rw [expressionIn, rules_int32 trimmed, expression_succ, rules_eq_read, rules_eq_read]
    refine Outline.read_congr fun t part => ih ?_
    exact Nat.lt_trans (byteLength_lt_of_mem_parts part) trimmed

end Reading

end CellFormula
