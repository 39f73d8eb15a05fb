import Mathlib
import PrimeCover.Proofs.Petrick.HittingSets

/-!
# The labels of the cheapest hitting sets

A minimal hitting set holds no label in vain: without it some sum would not be hit, and so each of its labels occurs
in a sum (`HitsMinimally.exists_mem_sum`). The sums of a coverage problem hold places of the pool only, and therefore
every label of a solution stands for a candidate (`exists_candidate?_of_mem_solve`).
-/

set_option autoImplicit false

namespace PrimeCover

namespace NatSet

variable {a b : Nat} {s : NatSet}

/-- The set without a number. -/
def erase (s : NatSet) (a : Nat) : NatSet where
  toList := s.toList.filter (· ≠ a)
  ascending := s.ascending.filter _

/-- A set without a number has all its other members. -/
@[simp] theorem mem_erase : b ∈ s.erase a ↔ b ∈ s ∧ b ≠ a := by
  show b ∈ s.toList.filter (· ≠ a) ↔ _
  rw [List.mem_filter, decide_eq_true_iff, mem_toList]

/-- A set without one of its members is strictly smaller. -/
theorem erase_ssubset (h : a ∈ s) : s.erase a ⊂ s := by
  constructor
  · intro b hb
    exact (mem_erase.mp hb).1
  · intro hsub
    exact (mem_erase.mp (hsub a h)).2 rfl

end NatSet

namespace Petrick

variable {sums : List NatSet} {labels p : NatSet} {label : Nat} {c : Coverage}

/-- A hitting set of least size has no needless label. -/
theorem HitsCheaply.hitsMinimally (h : HitsCheaply sums labels) : HitsMinimally sums labels := by
  refine ⟨h.1, ?_⟩
  intro other hother hstrict
  exact absurd (NatSet.size_lt_of_ssubset hstrict) (Nat.not_lt.mpr (h.2 other hother))

/-- Every label of a minimal hitting set stands in some sum. -/
theorem HitsMinimally.exists_mem_sum (h : HitsMinimally sums labels) (hlabel : label ∈ labels) :
    ∃ sum ∈ sums, label ∈ sum := by
  by_contra hnone
  apply h.2 (labels.erase label) _ (NatSet.erase_ssubset hlabel)
  intro sum hsum
  obtain ⟨l, hl, hlsum⟩ := h.1 sum hsum
  have hne : l ≠ label := by
    rintro rfl
    exact hnone ⟨sum, hsum, hlsum⟩
  exact ⟨l, NatSet.mem_erase.mpr ⟨hl, hne⟩, hlsum⟩

/-- Every label of a solution stands for a candidate that covers an active minterm. -/
theorem exists_candidate?_of_mem_solve (hp : p ∈ (ofCoverage c).solve) (hlabel : label ∈ p) :
    ∃ t, (ofCoverage c).candidate? label = some t ∧ ∃ m ∈ c.minterms, m ∈ t := by
  obtain ⟨sum, hsum, hmem⟩ := (mem_solve_iff.mp hp).hitsMinimally.exists_mem_sum hlabel
  obtain ⟨m, hm, rfl⟩ := List.mem_map.mp hsum
  obtain ⟨t, ht, hmt⟩ := Coverage.mem_column.mp hmem
  exact ⟨t, ht, m, hm, hmt⟩

end Petrick

end PrimeCover
