import Mathlib
import PrimeCover.Proofs.Minimization.Assembly
import PrimeCover.Proofs.Minterm.Reading

/-!
# The order of the minterms

A minimization sorts its minterms, but only after it has checked the list as it was given. What it records therefore
depends on the order of the list through the check alone. The check of a list without repeats looks at the width,
which does not depend on the order (`Minterm.width_eq_of_perm`); on a list with a repeat it fails in every order, and
names the first repeat in the order that was given (`solve_order_independent`).
-/

set_option autoImplicit false

namespace PrimeCover

variable {first second minterms : List Nat}

namespace Minterm

/-- The order of a list does not matter to its width. -/
theorem width_eq_of_perm (h : first.Perm second) : width first = width second := by
  have hbound : ∀ n, width first ≤ n ↔ width second ≤ n := by
    intro n
    rw [width_le_iff, width_le_iff]
    simp only [h.mem_iff]
  exact Nat.le_antisymm ((hbound _).mpr (Nat.le_refl _)) ((hbound _).mp (Nat.le_refl _))

/-- The order of a list does not matter once it is sorted. -/
theorem mergeSort_eq_of_perm (h : first.Perm second) : first.mergeSort = second.mergeSort := by
  have hsorted : first.mergeSort.Perm second.mergeSort :=
    (List.mergeSort_perm first _).trans (h.trans (List.mergeSort_perm second _).symm)
  exact hsorted.eq_of_pairwise' (List.pairwise_mergeSort' (· ≤ ·) first) (List.pairwise_mergeSort' (· ≤ ·) second)

/-- The order of distinct minterms does not matter to the check. -/
theorem check_eq_of_perm (h : first.Perm second) (hnodup : first.Nodup) : check first = check second := by
  rw [check_of_nodup hnodup, check_of_nodup (h.nodup_iff.mp hnodup), width_eq_of_perm h]

/-- On a list with a repeat the check fails and names a number that stands there twice. -/
theorem exists_check_eq_of_not_nodup (h : ¬ minterms.Nodup) :
    ∃ m, List.Duplicate m minterms ∧ check minterms = .error (.duplicateMinterm m) := by
  rw [← firstRepeat?_nil_eq_none_iff] at h
  obtain ⟨m, hm⟩ := Option.ne_none_iff_exists'.mp h
  obtain ⟨before, after, rfl, hnodup, -, hagain⟩ := firstRepeat?_eq_some_iff.mp hm
  have hbefore : m ∈ before := hagain.resolve_right List.not_mem_nil
  refine ⟨m, ?_, check_of_repeated hnodup hbefore⟩
  rw [List.duplicate_iff_sublist]
  exact (List.singleton_sublist.mpr hbefore).append (List.singleton_sublist.mpr List.mem_cons_self)

end Minterm

namespace Minimization

/-- The order of distinct minterms does not matter to the record. -/
theorem solve_eq_of_perm (h : first.Perm second) (hnodup : first.Nodup) : solve first = solve second := by
  unfold solve
  rw [Minterm.check_eq_of_perm h hnodup, Minterm.width_eq_of_perm h, Minterm.mergeSort_eq_of_perm h]

/-- In every order the same minterms give the same record, or fail for the same number of variables, or fail for a
repeat, which may be another one in another order. -/
theorem solve_order_independent {first second : List Nat} (h : first.Perm second) :
    (∃ record, solve first = .ok record ∧ solve second = .ok record) ∨
      (∃ required, solve first = .error (.tooManyVariables required maxVariables) ∧
        solve second = .error (.tooManyVariables required maxVariables)) ∨
      ∃ m k, List.Duplicate m first ∧ List.Duplicate k second ∧
        solve first = .error (.duplicateMinterm m) ∧ solve second = .error (.duplicateMinterm k) := by
  by_cases hnodup : first.Nodup
  · rw [← solve_eq_of_perm h hnodup]
    by_cases hwidth : Minterm.width first ≤ maxVariables
    · have hcheck : Minterm.check first = .ok () := by
        rw [Minterm.check_of_nodup hnodup, if_pos hwidth]
      obtain ⟨record, hsolve, -⟩ := exists_isRecordOf hcheck
      exact Or.inl ⟨record, hsolve, hsolve⟩
    · have hfault : solve first = .error (.tooManyVariables (Minterm.width first) maxVariables) := by
        rw [solve_eq_error_iff, Minterm.check_of_nodup hnodup, if_neg hwidth]
      exact Or.inr (Or.inl ⟨_, hfault, hfault⟩)
  · obtain ⟨m, hm, hfirst⟩ := Minterm.exists_check_eq_of_not_nodup hnodup
    obtain ⟨k, hk, hsecond⟩ := Minterm.exists_check_eq_of_not_nodup (mt h.nodup_iff.mpr hnodup)
    exact Or.inr (Or.inr ⟨m, k, hm, hk, solve_eq_error_iff.mpr hfirst, solve_eq_error_iff.mpr hsecond⟩)

/-- Four minterms, and the same ones from the third on. -/
theorem solve_order_independent_rotated :
    [5, 2, 0, 7].Perm [0, 7, 5, 2] ∧
      ((∃ record, solve [5, 2, 0, 7] = .ok record ∧ solve [0, 7, 5, 2] = .ok record) ∨
        (∃ required, solve [5, 2, 0, 7] = .error (.tooManyVariables required maxVariables) ∧
          solve [0, 7, 5, 2] = .error (.tooManyVariables required maxVariables)) ∨
        ∃ m k, List.Duplicate m [5, 2, 0, 7] ∧ List.Duplicate k [0, 7, 5, 2] ∧
          solve [5, 2, 0, 7] = .error (.duplicateMinterm m) ∧ solve [0, 7, 5, 2] = .error (.duplicateMinterm k)) :=
  ⟨by decide, solve_order_independent (by decide)⟩

/-- The repeat that is named depends on the order. -/
example : solve [1, 2, 2, 1] = .error (.duplicateMinterm 2) ∧ solve [2, 1, 1, 2] = .error (.duplicateMinterm 1) :=
  ⟨by rfl, by rfl⟩

end Minimization

end PrimeCover
