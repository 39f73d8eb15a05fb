import PrimeCover.Pattern.Basic

/-!
# Merging patterns

Two patterns are adjacent when they differ at one position only, which one of them fixes to zero and the other
one to one. Adjacent patterns merge: the position at which they differ becomes free, so that the merged pattern
stands for the minterms of both. `merge?_eq_some_iff` says this on the states of the positions.
-/

set_option autoImplicit false

namespace PrimeCover

/-- The state that allows the digits of both states. -/
def Trit.join (s t : Trit) : Trit :=
  if s = t then s else .free

namespace Pattern

/-- Whether two lists of states differ at one place only, at which they fix different digits. -/
def adjacentTrits : List Trit → List Trit → Bool
  | .zero :: first, .zero :: second => adjacentTrits first second
  | .one :: first, .one :: second => adjacentTrits first second
  | .free :: first, .free :: second => adjacentTrits first second
  | .zero :: first, .one :: second => first.isEqv second (· == ·)
  | .one :: first, .zero :: second => first.isEqv second (· == ·)
  | _, _ => false

/-- Whether two patterns differ at one position only, at which they fix different digits. -/
def adjacent (p q : Pattern) : Bool :=
  adjacentTrits p.trits q.trits

/-- The pattern that fixes what two patterns of the same length both fix to the same digit. -/
def join (p q : Pattern) : Pattern where
  trits := List.zipWith Trit.join p.trits q.trits
  length_le := by
    rw [List.length_zipWith]
    exact Nat.le_trans (Nat.min_le_left _ _) p.length_le

/-- The states of a join are joined place by place. -/
@[simp] theorem trits_join (p q : Pattern) : (p.join q).trits = List.zipWith Trit.join p.trits q.trits := rfl

/-- The pattern of two adjacent patterns together. -/
def merge? (p q : Pattern) : Option Pattern :=
  if p.adjacent q then some (p.join q) else none

/-! ## Adjacent patterns on their states -/

/-- The comparison of states place by place decides whether two lists are equal. -/
theorem isEqv_eq_true_iff {first second : List Trit} : first.isEqv second (· == ·) = true ↔ first = second := by
  rw [← List.beq_eq_isEqv]
  exact (beq_iff_eq : (first == second) = true ↔ first = second)

/-- Lists that fix opposite digits at one place and agree elsewhere pass the test. -/
theorem adjacentTrits_append (before after : List Trit) (digit : Bool) :
    adjacentTrits (before ++ Trit.ofBool digit :: after) (before ++ Trit.ofBool (!digit) :: after) = true := by
  induction before with
  | nil => cases digit <;> exact isEqv_eq_true_iff.mpr rfl
  | cons s before ih => cases s <;> exact ih

/-- Lists of states are adjacent exactly when they agree up to a single place that one of them fixes to a digit
and the other one to the opposite digit. -/
theorem adjacentTrits_iff {first second : List Trit} :
    adjacentTrits first second = true ↔
      ∃ before digit after, first = before ++ Trit.ofBool digit :: after ∧
        second = before ++ Trit.ofBool (!digit) :: after := by
  constructor
  · intro h
    fun_induction adjacentTrits first second with
    | case1 first second ih =>
      obtain ⟨before, digit, after, rfl, rfl⟩ := ih h
      exact ⟨.zero :: before, digit, after, rfl, rfl⟩
    | case2 first second ih =>
      obtain ⟨before, digit, after, rfl, rfl⟩ := ih h
      exact ⟨.one :: before, digit, after, rfl, rfl⟩
    | case3 first second ih =>
      obtain ⟨before, digit, after, rfl, rfl⟩ := ih h
      exact ⟨.free :: before, digit, after, rfl, rfl⟩
    | case4 first second =>
      cases isEqv_eq_true_iff.mp h
      exact ⟨[], false, first, rfl, rfl⟩
    | case5 first second =>
      cases isEqv_eq_true_iff.mp h
      exact ⟨[], true, first, rfl, rfl⟩
    | case6 => exact nomatch h
  · rintro ⟨before, digit, after, rfl, rfl⟩
    exact adjacentTrits_append before after digit

/-- To join such lists is to free the place at which they fix opposite digits. -/
theorem zipWith_join_append (before after : List Trit) (digit : Bool) :
    List.zipWith Trit.join (before ++ Trit.ofBool digit :: after) (before ++ Trit.ofBool (!digit) :: after) =
      before ++ .free :: after := by
  have same : ∀ states : List Trit, List.zipWith Trit.join states states = states := by
    intro states
    induction states with
    | nil => rfl
    | cons s states ih => rw [List.zipWith_cons_cons, ih, Trit.join, if_pos rfl]
  have opposite : Trit.join (Trit.ofBool digit) (Trit.ofBool (!digit)) = .free := by
    cases digit <;> rfl
  rw [List.zipWith_append rfl, List.zipWith_cons_cons, same, same, opposite]

/-- Patterns merge exactly when they are adjacent, and the merged pattern frees the place where they differ. -/
theorem merge?_eq_some_iff {p q r : Pattern} :
    p.merge? q = some r ↔
      ∃ before digit after, p.trits = before ++ Trit.ofBool digit :: after ∧
        q.trits = before ++ Trit.ofBool (!digit) :: after ∧ r.trits = before ++ .free :: after := by
  rw [merge?, Option.ite_none_right_eq_some, adjacent, adjacentTrits_iff, Option.some.injEq]
  constructor
  · rintro ⟨⟨before, digit, after, hp, hq⟩, rfl⟩
    refine ⟨before, digit, after, hp, hq, ?_⟩
    rw [trits_join, hp, hq, zipWith_join_append]
  · rintro ⟨before, digit, after, hp, hq, hr⟩
    refine ⟨⟨before, digit, after, hp, hq⟩, ext_trits ?_⟩
    rw [trits_join, hp, hq, hr, zipWith_join_append]

end Pattern

end PrimeCover
