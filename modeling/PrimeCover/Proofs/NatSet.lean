import Mathlib
import PrimeCover.NatSet

/-!
# Inclusion and size of finite sets

Inclusion is a partial order, the size of a set is monotone in it, and an inclusion of sets of one size is an
equality. A union of sets without a common member has the sizes of both.
-/

set_option autoImplicit false

namespace PrimeCover.NatSet

variable {s t u : NatSet}

/-- A set lists each of its members once. -/
theorem nodup_toList (s : NatSet) : s.toList.Nodup :=
  s.ascending.imp Nat.ne_of_lt

/-- Every set is included in itself. -/
theorem subset_refl (s : NatSet) : s ⊆ s :=
  fun _ h => h

/-- Inclusion is transitive. -/
theorem subset_trans (hst : s ⊆ t) (htu : t ⊆ u) : s ⊆ u :=
  fun a h => htu a (hst a h)

/-- Sets that are included in each other are equal. -/
theorem subset_antisymm (hst : s ⊆ t) (hts : t ⊆ s) : s = t :=
  ext_mem fun a => ⟨hst a, hts a⟩

/-- No set is strictly included in itself. -/
theorem not_ssubset_self (s : NatSet) : ¬ s ⊂ s :=
  fun h => h.2 (subset_refl s)

/-- Strict inclusion is transitive. -/
theorem ssubset_trans (hst : s ⊂ t) (htu : t ⊂ u) : s ⊂ u :=
  ⟨subset_trans hst.1 htu.1, fun h => hst.2 (subset_trans htu.1 h)⟩

/-- The order of two sets does not matter to their union. -/
theorem union_comm (s t : NatSet) : s ∪ t = t ∪ s := by
  apply ext_mem
  intro a
  rw [mem_union, mem_union, or_comm]

/-- A union is included in a set exactly when both parts are. -/
theorem union_subset_iff : s ∪ t ⊆ u ↔ s ⊆ u ∧ t ⊆ u := by
  simp only [subset_iff, mem_union, or_imp, forall_and]

/-- What sets are united to one by one has the members of the first set and of all others. -/
theorem mem_foldl_union {a : Nat} {sets : List NatSet} : a ∈ sets.foldl (· ∪ ·) s ↔ a ∈ s ∨ ∃ t ∈ sets, a ∈ t := by
  induction sets generalizing s with
  | nil => simp
  | cons t sets ih => rw [List.foldl_cons, ih, mem_union, List.exists_mem_cons_iff, or_assoc]

/-- The set of one number is included where the number is a member. -/
theorem singleton_subset_iff {a : Nat} : ({a} : NatSet) ⊆ s ↔ a ∈ s := by
  simp only [subset_iff, mem_singleton, forall_eq]

/-- A set is no larger than a set that includes it. -/
theorem size_le_of_subset (h : s ⊆ t) : s.size ≤ t.size :=
  (List.subperm_of_subset s.nodup_toList fun a ha => h a ha).length_le

/-- A set that lies inside another one and is no smaller is the same set. -/
theorem eq_of_subset_of_size_le (h : s ⊆ t) (hsize : t.size ≤ s.size) : s = t := by
  have hperm : s.toList.Perm t.toList :=
    (List.subperm_of_subset s.nodup_toList fun a ha => h a ha).perm_of_length_le hsize
  exact ext_mem fun a => hperm.mem_iff

/-- A set is smaller than a set that strictly includes it. -/
theorem size_lt_of_ssubset (h : s ⊂ t) : s.size < t.size := by
  obtain ⟨hsub, hnot⟩ := ssubset_iff.mp h
  by_contra hle
  apply hnot
  rw [eq_of_subset_of_size_le hsub (Nat.le_of_not_lt hle)]
  exact subset_refl t

/-- An inclusion is strict exactly when the sizes differ. -/
theorem ssubset_iff_size_lt : s ⊂ t ↔ s.size < t.size ∧ s ⊆ t := by
  constructor
  · intro h
    exact ⟨size_lt_of_ssubset h, (ssubset_iff.mp h).1⟩
  · rintro ⟨hlt, hsub⟩
    refine ssubset_iff.mpr ⟨hsub, ?_⟩
    intro hts
    have hle := size_le_of_subset hts
    omega

/-- Without a common member, the sizes add up. -/
theorem size_union (h : ∀ a, a ∈ s → a ∉ t) : (s ∪ t).size = s.size + t.size := by
  have hnodup : (s.toList ++ t.toList).Nodup := by
    refine s.nodup_toList.append t.nodup_toList ?_
    intro a hs ht
    exact h a hs ht
  have hperm : (s ∪ t).toList.Perm (s.toList ++ t.toList) := by
    refine (List.perm_ext_iff_of_nodup (nodup_toList _) hnodup).mpr ?_
    intro a
    rw [List.mem_append]
    exact mem_union
  calc (s ∪ t).size = (s.toList ++ t.toList).length := hperm.length_eq
    _ = s.size + t.size := List.length_append

end PrimeCover.NatSet
