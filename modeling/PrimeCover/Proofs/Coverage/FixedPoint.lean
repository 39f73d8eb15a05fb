import Mathlib
import PrimeCover.Proofs.Coverage.Step

/-!
# Where a reduction ends

A rule finds nothing exactly when the problem has no minterm, no pair of candidates or no pair of minterms of the
kind that the rule looks for: the search runs through all pairs, in either order. `Stalled` says this of all three
rules at once, without mentioning how they search (`step?_eq_none_iff`). Every recorded step makes the problem smaller,
so there are no more steps than minterms and candidates (`exists_steps_reduce`), and a reduction ends in a problem
that is covered or stalled. Such a problem is not touched by a further reduction (`reduce_eq_self`).

Nothing is assumed about the problem: its minterms may repeat or have no candidate, and its candidates may repeat.
-/

set_option autoImplicit false

namespace PrimeCover.Coverage

variable {c next : Coverage} {rule : Rule} {step : Step}

/-! ## Where no rule fires -/

/-- The search for a related pair is complete: it finds nothing only where nothing is related. -/
theorem firstRelated?_eq_none_iff {α : Type} {related : α → α → Bool} (hirrefl : ∀ a, related a a = false)
    {l : List α} : firstRelated? related l = none ↔ ∀ a ∈ l, ∀ b ∈ l, related a b = false := by
  induction l with
  | nil => simp [firstRelated?]
  | cons a rest ih =>
    have hfirst : (∀ b ∈ rest, ¬ (related a b || related b a) = true) ↔
        (∀ b ∈ rest, related a b = false) ∧ ∀ b ∈ rest, related b a = false := by
      rw [← forall₂_and]
      apply forall₂_congr
      intro b _
      rw [Bool.not_eq_true, Bool.or_eq_false_iff]
    rw [firstRelated?_cons, Option.or_eq_none_iff, Option.map_eq_none_iff, List.find?_eq_none, hfirst, ih]
    simp only [List.forall_mem_cons, hirrefl, true_and, forall₂_and]
    rw [and_assoc]

/-- No row step is found exactly when no candidate covers strictly more than another one. -/
theorem row?_eq_none_iff :
    c.row? = none ↔ ∀ a ∈ c.candidates, ∀ b ∈ c.candidates, ¬ b.covered ⊂ a.covered := by
  rw [row?_eq, Option.map_eq_none_iff, firstRelated?_eq_none_iff dominates_irrefl]
  simp only [decide_eq_false_iff_not]
  exact Iff.rfl

/-- No column step is found exactly when no column of an active minterm strictly contains another one. -/
theorem column?_eq_none_iff :
    c.column? = none ↔ ∀ k ∈ c.minterms, ∀ m ∈ c.minterms, ¬ c.column k ⊂ c.column m := by
  rw [column?_eq, Option.map_eq_none_iff, firstRelated?_eq_none_iff c.column_ssubset_irrefl]
  simp only [decide_eq_false_iff_not]

/-- Every active minterm has no candidate or several, no candidate covers strictly more than another one, and no
column of an active minterm strictly contains another one. -/
structure Stalled (c : Coverage) : Prop where
  candidates_ne_one : ∀ m ∈ c.minterms,
    c.candidates.countP (m ∈ ·) = 0 ∨ 2 ≤ c.candidates.countP (m ∈ ·)
  not_covered_ssubset : ∀ a ∈ c.candidates, ∀ b ∈ c.candidates, ¬ b.covered ⊂ a.covered
  not_column_ssubset : ∀ k ∈ c.minterms, ∀ m ∈ c.minterms, ¬ c.column k ⊂ c.column m

/-- No essential step is found exactly when every active minterm has no candidate or several. -/
theorem essential?_eq_none_iff_countP :
    c.essential? = none ↔
      ∀ m ∈ c.minterms, c.candidates.countP (m ∈ ·) = 0 ∨ 2 ≤ c.candidates.countP (m ∈ ·) := by
  rw [essential?_eq_none_iff]
  apply forall₂_congr
  intro m _
  have hone : (∃ t, c.candidates.filter (m ∈ ·) = [t]) ↔ c.candidates.countP (m ∈ ·) = 1 := by
    rw [List.countP_eq_length_filter, List.length_eq_one_iff]
  simp only [ne_eq]
  rw [← not_exists, hone]
  omega

/-- No rule fires exactly when the problem is stalled. -/
theorem forall_fire?_eq_none_iff : (∀ rule, c.fire? rule = none) ↔ c.Stalled := by
  constructor
  · intro h
    have hessential : c.essential? = none := Option.map_eq_none_iff.mp (h .essential)
    have hrow : c.row? = none := Option.map_eq_none_iff.mp (h .row)
    have hcolumn : c.column? = none := Option.map_eq_none_iff.mp (h .column)
    exact ⟨essential?_eq_none_iff_countP.mp hessential, row?_eq_none_iff.mp hrow, column?_eq_none_iff.mp hcolumn⟩
  · intro h rule
    cases rule with
    | essential => exact Option.map_eq_none_iff.mpr (essential?_eq_none_iff_countP.mpr h.candidates_ne_one)
    | row => exact Option.map_eq_none_iff.mpr (row?_eq_none_iff.mpr h.not_covered_ssubset)
    | column => exact Option.map_eq_none_iff.mpr (column?_eq_none_iff.mpr h.not_column_ssubset)

/-- No rule is tried with success exactly when there is nothing of the kind that a rule looks for. -/
theorem step?_eq_none_iff : c.step? = none ↔ c.Stalled := by
  rw [← forall_fire?_eq_none_iff]
  unfold step? rules
  rw [List.findSome?_eq_none_iff]
  constructor
  · intro h rule
    apply h
    cases rule <;> simp
  · intro h rule _
    exact h rule

/-! ## The steps of a reduction -/

/-- A reduction adds steps to those on record, and each of them is paid for by what it takes away. -/
theorem exists_steps_reduce (c : Coverage) :
    ∃ added, c.reduce.steps = c.steps ++ added ∧ added.length + c.reduce.size ≤ c.size := by
  fun_induction reduce c with
  | case1 c hcovered => exact ⟨[], (List.append_nil _).symm, by simp⟩
  | case2 c hactive hnone => exact ⟨[], (List.append_nil _).symm, by simp⟩
  | case3 c hactive step next hfired ih =>
    obtain ⟨added, hsteps, hsize⟩ := ih
    obtain ⟨rule, hfires⟩ := exists_fires_of_step? hfired
    have hshorter : next.size < c.size := size_step?_lt hfired
    have hrecorded : ({ next with steps := next.steps ++ [step] } : Coverage).size = next.size := rfl
    refine ⟨step :: added, ?_, ?_⟩
    · rw [hsteps, hfires.steps_eq, List.append_assoc, List.singleton_append]
    · rw [List.length_cons]
      omega

/-- Where a reduction would end, it does nothing. -/
theorem reduce_eq_self (h : c.isCovered = true ∨ c.step? = none) : c.reduce = c := by
  fun_cases reduce c with
  | case1 hcovered => rfl
  | case2 hactive hnone => rfl
  | case3 hactive step next hfired =>
    rcases h with hcovered | hnone
    · exact absurd hcovered hactive
    · rw [hnone] at hfired
      exact nomatch hfired

/-- From whatever problem it starts, a reduction adds at most as many steps as there are minterms and candidates. In
the end everything is covered, or no rule fires: every active minterm has no candidate or several, no candidate
covers strictly more than another one, and no column strictly contains another one. A further reduction changes
nothing, neither the problem nor the steps on record. -/
theorem reduce_ends_at_fixed_point (c : Coverage) :
    (∃ added, c.reduce.steps = c.steps ++ added ∧ added.length ≤ c.minterms.length + c.candidates.length) ∧
      (c.reduce.minterms = [] ∨
        (∀ rule, c.reduce.fire? rule = none) ∧
          (∀ m ∈ c.reduce.minterms,
            c.reduce.candidates.countP (m ∈ ·) = 0 ∨ 2 ≤ c.reduce.candidates.countP (m ∈ ·)) ∧
          (∀ a ∈ c.reduce.candidates, ∀ b ∈ c.reduce.candidates, ¬ b.covered ⊂ a.covered) ∧
          ∀ k ∈ c.reduce.minterms, ∀ m ∈ c.reduce.minterms, ¬ c.reduce.column k ⊂ c.reduce.column m) ∧
      c.reduce.reduce = c.reduce := by
  have hend := isCovered_or_step?_eq_none c
  refine ⟨?_, ?_, reduce_eq_self hend⟩
  · obtain ⟨added, hsteps, hsize⟩ := exists_steps_reduce c
    have hbound : added.length ≤ c.size := Nat.le_trans (Nat.le_add_right _ _) hsize
    exact ⟨added, hsteps, hbound⟩
  · rcases hend with hcovered | hnone
    · exact Or.inl (List.isEmpty_iff.mp hcovered)
    · have hstalled : c.reduce.Stalled := step?_eq_none_iff.mp hnone
      exact Or.inr ⟨forall_fire?_eq_none_iff.mpr hstalled, hstalled.candidates_ne_one, hstalled.not_covered_ssubset,
        hstalled.not_column_ssubset⟩

end PrimeCover.Coverage
