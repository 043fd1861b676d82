import CellFormula.Proofs.Blanks
import CellFormula.Text.LowerCase

/-!
# Lower-casing within a text

Of all characters only the capital sigma has a lower-case form that depends on the text around it,
and of that text only the nearest character on each side counts that is not case-ignorable: whether
it is cased. A text is lower-cased alike wherever it occurs if and only if it decides the form of
each of its capital sigmas itself.
-/

namespace CellFormula.Text

/-- Whether the first character that is not case-ignorable is cased; if there is none, the answer is
given from outside. -/
def meetsCasedOr (outside : Bool) (cs : List Char) : Bool :=
  match cs.dropWhile isCaseIgnorable with
  | c :: _ => isCased c
  | [] => outside

theorem meetsCased_eq (cs : List Char) : meetsCased cs = meetsCasedOr false cs := rfl

theorem meetsCasedOr_cons (outside : Bool) (c : Char) (cs : List Char) :
    meetsCasedOr outside (c :: cs) =
      if isCaseIgnorable c then meetsCasedOr outside cs else isCased c := by
  unfold meetsCasedOr
  rw [List.dropWhile_cons]
  by_cases ignorable : isCaseIgnorable c = true <;> simp [ignorable]

theorem meetsCasedOr_append (outside : Bool) (xs ys : List Char) :
    meetsCasedOr outside (xs ++ ys) = meetsCasedOr (meetsCasedOr outside ys) xs := by
  induction xs with
  | nil => rfl
  | cons c xs ih => rw [List.cons_append, meetsCasedOr_cons, meetsCasedOr_cons, ih]

theorem meetsCasedOr_of_all {cs : List Char} (h : cs.all isCaseIgnorable = true) (outside : Bool) :
    meetsCasedOr outside cs = outside := by
  unfold meetsCasedOr
  rw [List.dropWhile_eq_nil_iff.mpr (List.all_eq_true.mp h)]

theorem meetsCasedOr_of_not_all {cs : List Char} (h : cs.all isCaseIgnorable = false)
    (outside : Bool) : meetsCasedOr outside cs = meetsCased cs := by
  unfold meetsCased meetsCasedOr
  cases rest : cs.dropWhile isCaseIgnorable with
  | cons c _ => rfl
  | nil =>
    rw [List.all_eq_true.mpr (List.dropWhile_eq_nil_iff.mp rest)] at h
    cases h

theorem isCaseIgnorable_sigma : isCaseIgnorable 'Σ' = false := by decide +kernel

theorem isCased_sigma : isCased 'Σ' = true := by decide +kernel

/-- The lower-case form of a capital sigma with or without something cased on either side. -/
def lowerSigma (before after : Bool) : Char :=
  if before && !after then 'ς' else 'σ'

/-- The lower-case form of a text within another one, given whether something cased is met before
and after it. -/
def lowerWithin (before after : Bool) : List Char → List Char
  | [] => []
  | c :: cs =>
    (if c = 'Σ' then [lowerSigma before (meetsCasedOr after cs)] else lowerChar c) ++
      lowerWithin (meetsCasedOr before [c]) after cs

theorem lowerFrom_eq (before cs : List Char) :
    lowerFrom before cs = lowerWithin (meetsCased before) false cs := by
  induction cs generalizing before with
  | nil => rfl
  | cons c cs ih =>
    have next : meetsCased (c :: before) = meetsCasedOr (meetsCased before) [c] :=
      meetsCasedOr_append false [c] before
    rw [lowerFrom, lowerWithin, ih, next, lowerSigma, meetsCased_eq cs]
    split
    · split <;> rfl
    · rfl

theorem lower_eq (cs : List Char) : lower cs = lowerWithin false false cs :=
  lowerFrom_eq [] cs

theorem lowerWithin_append (before after : Bool) (xs ys : List Char) :
    lowerWithin before after (xs ++ ys) = lowerWithin before (meetsCasedOr after ys) xs ++
      lowerWithin (meetsCasedOr before xs.reverse) after ys := by
  induction xs generalizing before with
  | nil => rfl
  | cons c xs ih =>
    rw [List.cons_append, lowerWithin, lowerWithin, ih, meetsCasedOr_append after,
      List.reverse_cons, meetsCasedOr_append before, List.append_assoc]

/-- What stands around a text counts for the forms of its sigmas only. -/
theorem lowerWithin_congr {b b' a a' : Bool} {cs : List Char}
    (h : ∀ x y, cs = x ++ 'Σ' :: y →
      lowerSigma (meetsCasedOr b x.reverse) (meetsCasedOr a y) =
        lowerSigma (meetsCasedOr b' x.reverse) (meetsCasedOr a' y)) :
    lowerWithin b a cs = lowerWithin b' a' cs := by
  induction cs generalizing b b' with
  | nil => rfl
  | cons c cs ih =>
    have tail := @ih (meetsCasedOr b [c]) (meetsCasedOr b' [c]) fun x y split => by
      have whole := h (c :: x) y (by rw [split]; rfl)
      rwa [List.reverse_cons, meetsCasedOr_append, meetsCasedOr_append b'] at whole
    rw [lowerWithin, lowerWithin, tail]
    split
    · next sigma =>
      subst sigma
      have here : lowerSigma b (meetsCasedOr a cs) = lowerSigma b' (meetsCasedOr a' cs) :=
        h [] cs rfl
      rw [here]
    · rfl

theorem lowerWithin_of_all {cs : List Char} (h : cs.all isCaseIgnorable = true)
    (b b' a a' : Bool) : lowerWithin b a cs = lowerWithin b' a' cs := by
  apply lowerWithin_congr
  rintro x y rfl
  have ignorable := List.all_eq_true.mp h 'Σ' (by simp)
  rw [isCaseIgnorable_sigma] at ignorable
  cases ignorable

/-- A capital sigma decides the forms of those before it apart from those after it. -/
theorem lowerWithin_sigma (b a : Bool) (x y : List Char) : lowerWithin b a (x ++ 'Σ' :: y) =
    lowerWithin b true x ++ lowerSigma (meetsCasedOr b x.reverse) (meetsCasedOr a y) ::
      lowerWithin true a y := by
  rw [lowerWithin_append, lowerWithin]
  simp [meetsCasedOr_cons, isCaseIgnorable_sigma, isCased_sigma]

/-- The form of a capital sigma between the two texts depends on what surrounds them: only
case-ignorable characters stand between it and one end, and the other side does not rule out the
final form. -/
def SigmaOpen (before after : List Char) : Prop :=
  (before.all isCaseIgnorable = true ∧ meetsCased after = false) ∨
    (meetsCased before.reverse = true ∧ after.all isCaseIgnorable = true)

/-- The text decides the form of each of its capital sigmas. -/
def Settled (cs : List Char) : Prop :=
  ∀ before after, cs = before ++ 'Σ' :: after → ¬ SigmaOpen before after

theorem settled_of_not_mem {cs : List Char} (h : 'Σ' ∉ cs) : Settled cs := by
  rintro before after rfl
  simp at h

theorem lowerSigma_of_not_open {before after : List Char} (h : ¬ SigmaOpen before after)
    (b a : Bool) : lowerSigma (meetsCasedOr b before.reverse) (meetsCasedOr a after) =
      lowerSigma (meetsCased before.reverse) (meetsCased after) := by
  simp only [SigmaOpen, not_or, not_and, Bool.not_eq_false, Bool.not_eq_true] at h
  cases hx : before.all isCaseIgnorable with
  | true =>
    -- Something cased follows, which rules out the final form.
    have follows := h.1 hx
    have visible : after.all isCaseIgnorable = false := by
      rw [Bool.eq_false_iff]
      intro all
      rw [meetsCased_eq, meetsCasedOr_of_all all] at follows
      cases follows
    rw [meetsCasedOr_of_not_all visible, follows]
    simp [lowerSigma]
  | false =>
    rw [meetsCasedOr_of_not_all (by simpa using hx)]
    cases hy : after.all isCaseIgnorable with
    | true =>
      have uncased : meetsCased before.reverse = false := by
        rw [Bool.eq_false_iff]
        intro cased
        rw [h.2 cased] at hy
        cases hy
      rw [uncased]
      rfl
    | false => rw [meetsCasedOr_of_not_all hy]

theorem lowerWithin_of_settled {cs : List Char} (h : Settled cs) (before after : Bool) :
    lowerWithin before after cs = lower cs := by
  rw [lower_eq]
  exact lowerWithin_congr fun x y split => lowerSigma_of_not_open (h x y split) before after

/-- A settled text keeps its lower-case form in every text. -/
theorem infix_lower_of_settled {xs cs : List Char} (h : Settled xs) (inside : xs <:+: cs) :
    lower xs <:+: lower cs := by
  obtain ⟨before, after, rfl⟩ := inside
  rw [lower_eq (before ++ xs ++ after), lowerWithin_append, lowerWithin_append,
    lowerWithin_of_settled h]
  exact List.infix_append _ _ _

/-- A character that takes part in no sigma's form but by being cased or not. -/
def IsWall (c : Char) : Prop :=
  isCaseIgnorable c = false ∧ c ≠ 'Σ'

instance (c : Char) : Decidable (IsWall c) :=
  inferInstanceAs (Decidable (_ ∧ _))

/-- Nothing beyond two walls counts for the text between them. -/
theorem lower_between {c d : Char} (hc : IsWall c) (hd : IsWall d) (cs : List Char) :
    lower (c :: cs ++ [d]) =
      lowerChar c ++ lowerWithin (isCased c) (isCased d) cs ++ lowerChar d := by
  rw [lower_eq, List.cons_append, lowerWithin, lowerWithin_append, lowerWithin]
  simp [hc.1, hc.2, hd.1, hd.2, meetsCasedOr, lowerWithin]

/-- A wall that has no other letter case. -/
def IsCaseless (c : Char) : Prop :=
  IsWall c ∧ isCased c = false ∧ lowerChar c = [c]

instance (c : Char) : Decidable (IsCaseless c) :=
  inferInstanceAs (Decidable (_ ∧ _))

theorem lower_between_caseless {c : Char} (h : IsCaseless c) (cs : List Char) :
    lower (c :: cs ++ [c]) = c :: lower cs ++ [c] := by
  obtain ⟨wall, uncased, same⟩ := h
  rw [lower_between wall wall, uncased, same, ← lower_eq]
  rfl

theorem not_infix_of_replaced {s s' c d : Char} (hs : s' ≠ s) (hc : c ≠ s) (hd : d ≠ s)
    (xs ys : List Char) : ¬ xs ++ s :: ys <:+: c :: (xs ++ s' :: ys) ++ [d] := by
  intro inside
  have count := inside.sublist.count_le s
  have shorter : (xs ++ s :: ys).count s = xs.count s + ys.count s + 1 := by
    simp [List.count_append, Nat.add_assoc]
  have longer : (c :: (xs ++ s' :: ys) ++ [d]).count s = xs.count s + ys.count s := by
    simp [List.count_append, hs, hc, hd]
  omega

/-- With an open sigma, a text loses its lower-case form between some two characters. -/
theorem exists_not_infix_lower {before after : List Char} (h : SigmaOpen before after) :
    ∃ c d, isBlank c = false ∧ isBlank d = false ∧
      ¬ lower (before ++ 'Σ' :: after) <:+: lower (c :: (before ++ 'Σ' :: after) ++ [d]) := by
  have letter : IsWall 'A' ∧ isCased 'A' = true ∧ lowerChar 'A' = ['a'] := by decide +kernel
  have digit : IsCaseless '0' := by decide +kernel
  obtain ⟨wallA, cased, lowerA⟩ := letter
  obtain ⟨wall0, uncased, lower0⟩ := digit
  rcases h with ⟨ignorable, follows⟩ | ⟨precedes, ignorable⟩
  · refine ⟨'A', '0', by decide, by decide, ?_⟩
    have reversed : before.reverse.all isCaseIgnorable = true := by simpa using ignorable
    rw [lower_eq, lower_between wallA wall0, cased, uncased, lowerA, lower0, lowerWithin_sigma,
      lowerWithin_sigma, lowerWithin_of_all ignorable true false true true,
      meetsCasedOr_of_all reversed, meetsCasedOr_of_all reversed, ← meetsCased_eq, follows]
    exact not_infix_of_replaced (by decide) (by decide) (by decide) _ _
  · refine ⟨'0', 'A', by decide, by decide, ?_⟩
    rw [lower_eq, lower_between wall0 wallA, cased, uncased, lowerA, lower0, lowerWithin_sigma,
      lowerWithin_sigma, lowerWithin_of_all ignorable true true true false,
      meetsCasedOr_of_all ignorable, meetsCasedOr_of_all ignorable, ← meetsCased_eq, precedes]
    exact not_infix_of_replaced (by decide) (by decide) (by decide) _ _

/-- The lower-case form of a text occurs in that of every text that contains it, if and only if the
text is settled. -/
theorem infix_lower_iff_settled {xs : List Char} :
    (∀ cs, xs <:+: cs → lower xs <:+: lower cs) ↔ Settled xs := by
  constructor
  · rintro all before after rfl opened
    obtain ⟨c, d, -, -, lost⟩ := exists_not_infix_lower opened
    exact lost (all _ ⟨[c], [d], by simp⟩)
  · exact fun h cs => infix_lower_of_settled h

end CellFormula.Text
