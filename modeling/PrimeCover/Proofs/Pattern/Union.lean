import Mathlib
import PrimeCover.Proofs.Pattern.Counting
import PrimeCover.Proofs.Pattern.Packing

/-!
# When two patterns make up a pattern

Whether patterns merge is read off their states: they differ at one position, which one of them fixes to zero and the
other one to one. Main statement: `merges_iff_union_is_pattern` says the same on their minterms. Two patterns of one
length merge exactly when they have no minterm in common and together have the minterms of a pattern of this length,
and that pattern is the result. Packing commutes with merging (`pack_merge?`), so it says the same of the words.

The hard direction starts from three patterns, the third one made up of the first two. The first one is then half of
some pattern inside the third one, and the other half has to lie in the second one (`IsUnion.exists_half`). So the
second pattern has at least as many free positions as the first one, and by symmetry both have as many; hence the
other half is all of the second pattern (`eq_of_contains_of_freeCount_le`).
-/

set_option autoImplicit false

namespace PrimeCover.Pattern

variable {a b c : Pattern}

/-- The third pattern is made up of the first two, which have no minterm in common. -/
structure IsUnion (a b c : Pattern) : Prop where
  length_left : a.length = c.length
  length_right : b.length = c.length
  disjoint : ∀ m, m ∈ a → m ∉ b
  mem_iff : ∀ m, m ∈ c ↔ m ∈ a ∨ m ∈ b

/-- The order of the two parts does not matter. -/
theorem IsUnion.symm (h : IsUnion a b c) : IsUnion b a c where
  length_left := h.length_right
  length_right := h.length_left
  disjoint := fun m hb ha => h.disjoint m ha hb
  mem_iff := fun m => (h.mem_iff m).trans or_comm

/-- A merged pattern is made up of its parts. -/
theorem isUnion_of_merge? (h : a.merge? b = some c) : IsUnion a b c where
  length_left := (length_of_merge? h).1
  length_right := (length_of_merge? h).2
  disjoint := fun _ => notMem_of_merge? h
  mem_iff := mem_iff_of_merge? h

/-- A pattern contains the first part that it is made up of. -/
theorem IsUnion.contains_left (h : IsUnion a b c) : c.contains a = true :=
  (contains_iff h.length_left.symm).mpr fun m hm => (h.mem_iff m).mpr (Or.inl hm)

/-- A pattern is not the first part that it is made up of, since the second one has a minterm too. -/
theorem IsUnion.ne_left (h : IsUnion a b c) : c ≠ a := by
  rintro rfl
  obtain ⟨m, hm⟩ := exists_mem b
  exact h.disjoint m ((h.mem_iff m).mpr (Or.inr hm)) hm

/-- The first pattern merges with some pattern inside the second one. -/
theorem IsUnion.exists_half (h : IsUnion a b c) :
    ∃ half r : Pattern, a.merge? half = some r ∧ b.contains half = true := by
  have hne : c.trits ≠ a.trits := fun htrits => h.ne_left (ext_trits htrits)
  obtain ⟨before, digit, after, htrits, hincludes⟩ := exists_freed_of_includes h.contains_left hne
  obtain ⟨half, r, hmerge, hr⟩ := exists_merge?_of_trits htrits
  have hcr : c.contains r = true := by
    unfold contains
    rw [hr]
    exact hincludes
  have hlen : b.length = half.length := by
    rw [h.length_right, length_eq_of_contains hcr, (length_of_merge? hmerge).2]
  refine ⟨half, r, hmerge, (contains_iff hlen).mpr ?_⟩
  intro m hm
  have hmc : m ∈ c := mem_of_contains hcr ((mem_iff_of_merge? hmerge m).mpr (Or.inr hm))
  exact ((h.mem_iff m).mp hmc).resolve_left fun hma => notMem_of_merge? hmerge hma hm

/-- The first part has no more free positions than the second one. -/
theorem IsUnion.freeCount_le (h : IsUnion a b c) : a.freeCount ≤ b.freeCount := by
  obtain ⟨half, r, hmerge, hcontains⟩ := h.exists_half
  have hcount := freeCount_of_merge? hmerge
  have hle := freeCount_le_of_contains hcontains
  omega

/-- Patterns that make up a pattern merge to it. -/
theorem IsUnion.merge? (h : IsUnion a b c) : a.merge? b = some c := by
  obtain ⟨half, r, hmerge, hcontains⟩ := h.exists_half
  have hhalf : b = half := by
    apply eq_of_contains_of_freeCount_le hcontains
    have hcount := freeCount_of_merge? hmerge
    have hle := h.symm.freeCount_le
    omega
  rw [← hhalf] at hmerge
  have hsame : r = c := by
    apply eq_of_mem_iff ((length_of_merge? hmerge).1.symm.trans h.length_left)
    intro m
    rw [mem_iff_of_merge? hmerge, h.mem_iff]
  rw [hmerge, hsame]

/-- Two patterns merge exactly when they have the same length, no minterm in common, and together the minterms of a
pattern of this length. They merge to that pattern, which has one more free position than either of them, in
whichever order they are taken. Their words merge under the same conditions, to the words of that pattern. -/
theorem merges_iff_union_is_pattern (a b c : Pattern) :
    (a.merge? b = some c ↔
      a.length = b.length ∧ (∀ m, ¬ (m ∈ a ∧ m ∈ b)) ∧ c.length = a.length ∧ ∀ m, m ∈ c ↔ m ∈ a ∨ m ∈ b) ∧
    (a.merge? b = some c → c.freeCount = a.freeCount + 1 ∧ c.freeCount = b.freeCount + 1) ∧
    b.merge? a = a.merge? b ∧
    a.pack.merge? b.pack = (a.merge? b).map pack := by
  refine ⟨?_, freeCount_of_merge?, merge?_comm b a, pack_merge? a b⟩
  constructor
  · intro h
    have hunion := isUnion_of_merge? h
    refine ⟨hunion.length_left.trans hunion.length_right.symm, ?_, hunion.length_left.symm, hunion.mem_iff⟩
    rintro m ⟨hma, hmb⟩
    exact hunion.disjoint m hma hmb
  · rintro ⟨hlen, hdisjoint, hlength, hmem⟩
    have hunion : IsUnion a b c := by
      refine ⟨hlength.symm, hlen.symm.trans hlength.symm, ?_, hmem⟩
      intro m hma hmb
      exact hdisjoint m ⟨hma, hmb⟩
    exact hunion.merge?

end PrimeCover.Pattern
