import Mathlib
import PrimeCover.Proofs.NatSet
import PrimeCover.Proofs.Pattern.Merging

/-!
# How many minterms a pattern has

A pattern without free positions has a single minterm, whose pattern it is (`ofMinterm_of_freeCount_eq_zero`). Each
further free position doubles the number, since a pattern with a free position is merged from two patterns that have
no minterm in common (`size_minterms`). The number of free positions is therefore monotone in inclusion, and it
tells a pattern from those that it lies strictly inside of (`eq_of_contains_of_freeCount_le`).
-/

set_option autoImplicit false

namespace PrimeCover.Pattern

/-! ## Patterns of one minterm -/

/-- States that are all fixed admit only the digits that they fix. -/
theorem admits_map_ofBool (bits digits : List Bool) :
    admits (bits.map Trit.ofBool) digits = true ↔ digits = bits := by
  induction bits generalizing digits with
  | nil => cases digits <;> simp [admits]
  | cons b bits ih =>
    cases digits with
    | nil => simp [admits]
    | cons digit digits =>
      rw [List.map_cons, admits, Bool.and_eq_true, ih, List.cons.injEq]
      apply and_congr_left
      intro _
      cases b <;> cases digit <;> decide

/-- The pattern of a number exists when the number fits into an allowed length, and its states are the digits. -/
theorem ofMinterm_eq_ok_iff {value length : Nat} {p : Pattern} :
    ofMinterm value length = .ok p ↔ length ≤ maxVariables ∧ value < Binary.capacity length ∧
      p.trits = (Binary.digits length value).map Trit.ofBool := by
  unfold ofMinterm
  by_cases hlen : length ≤ maxVariables
  · by_cases hvalue : value < Binary.capacity length
    · simp only [hlen, hvalue, dite_true, if_true, Except.ok.injEq, true_and]
      constructor
      · rintro rfl
        rfl
      · intro h
        exact ext_trits h.symm
    · simp [hlen, hvalue]
  · simp [hlen]

/-- The pattern of a number has the length that was asked for. -/
theorem length_of_ofMinterm {value length : Nat} {p : Pattern} (h : ofMinterm value length = .ok p) :
    p.length = length := by
  obtain ⟨-, -, htrits⟩ := ofMinterm_eq_ok_iff.mp h
  unfold Pattern.length
  rw [htrits, List.length_map, Binary.length_digits]

/-- The pattern of a number has this number as its only minterm. -/
theorem mem_iff_of_ofMinterm {value length : Nat} {p : Pattern} (h : ofMinterm value length = .ok p) (m : Nat) :
    m ∈ p ↔ m = value := by
  obtain ⟨-, hvalue, htrits⟩ := ofMinterm_eq_ok_iff.mp h
  rw [mem_def, length_of_ofMinterm h, htrits, admits_map_ofBool]
  constructor
  · rintro ⟨hm, hdigits⟩
    rw [← Binary.ofDigits_digits hm, hdigits, Binary.ofDigits_digits hvalue]
  · rintro rfl
    exact ⟨hvalue, rfl⟩

/-- The pattern of a number has no free position. -/
theorem freeCount_of_ofMinterm {value length : Nat} {p : Pattern} (h : ofMinterm value length = .ok p) :
    p.freeCount = 0 := by
  obtain ⟨-, -, htrits⟩ := ofMinterm_eq_ok_iff.mp h
  rw [freeCount_eq_zero_iff, htrits]
  intro t ht
  obtain ⟨b, -, rfl⟩ := List.mem_map.mp ht
  exact ofBool_ne_free b

/-- A pattern without free positions is the pattern of each of its minterms. -/
theorem ofMinterm_of_freeCount_eq_zero {p : Pattern} (h : p.freeCount = 0) {m : Nat} (hm : m ∈ p) :
    ofMinterm m p.length = .ok p := by
  rw [ofMinterm_eq_ok_iff]
  refine ⟨p.length_le, hm.1, ?_⟩
  have hlen : p.trits.length = ((Binary.digits p.length m).map Trit.ofBool).length := by
    rw [List.length_map, Binary.length_digits]
    rfl
  have hincl : includes p.trits ((Binary.digits p.length m).map Trit.ofBool) = true := by
    rw [includes_iff hlen]
    intro digits hdigits
    rw [(admits_map_ofBool _ _).mp hdigits]
    exact hm.2
  exact eq_of_includes_of_fixed hincl (freeCount_eq_zero_iff.mp h)

/-! ## Counting minterms -/

variable {p q : Pattern}

/-- A pattern without free positions has a single minterm. -/
theorem size_minterms_of_freeCount_eq_zero (h : p.freeCount = 0) : p.minterms.size = 1 := by
  obtain ⟨m, hm⟩ := exists_mem p
  have honly := mem_iff_of_ofMinterm (ofMinterm_of_freeCount_eq_zero h hm)
  have hsingleton : p.minterms = {m} := by
    apply NatSet.ext_mem
    intro k
    rw [mem_minterms, honly, NatSet.mem_singleton]
  rw [hsingleton]
  rfl

/-- A merged pattern has as many minterms as both parts together. -/
theorem size_minterms_of_merge? {r : Pattern} (h : p.merge? q = some r) :
    r.minterms.size = p.minterms.size + q.minterms.size := by
  have hunion : r.minterms = p.minterms ∪ q.minterms := by
    apply NatSet.ext_mem
    intro m
    rw [NatSet.mem_union, mem_minterms, mem_minterms, mem_minterms, mem_iff_of_merge? h]
  rw [hunion]
  apply NatSet.size_union
  intro m hp hq
  exact notMem_of_merge? h (mem_minterms.mp hp) (mem_minterms.mp hq)

/-- Every free position doubles the number of minterms. -/
theorem size_minterms (p : Pattern) : p.minterms.size = 2 ^ p.freeCount := by
  induction hfree : p.freeCount generalizing p with
  | zero => exact size_minterms_of_freeCount_eq_zero hfree
  | succ k ih =>
    obtain ⟨low, high, hmerge, -⟩ := exists_merge?_of_free (by omega : p.freeCount ≠ 0)
    have hcount := freeCount_of_merge? hmerge
    have hlow : low.minterms.size = 2 ^ k := ih low (by omega)
    have hhigh : high.minterms.size = 2 ^ k := ih high (by omega)
    rw [size_minterms_of_merge? hmerge, hlow, hhigh, pow_succ, mul_two]

/-- The minterms of a pattern belong to every pattern that contains it. -/
theorem minterms_subset_of_contains (h : p.contains q = true) : q.minterms ⊆ p.minterms := by
  intro m hm
  exact mem_minterms.mpr (mem_of_contains h (mem_minterms.mp hm))

/-- A pattern has no more free positions than a pattern that contains it. -/
theorem freeCount_le_of_contains (h : p.contains q = true) : q.freeCount ≤ p.freeCount := by
  have hsize := NatSet.size_le_of_subset (minterms_subset_of_contains h)
  rw [size_minterms, size_minterms] at hsize
  exact (Nat.pow_le_pow_iff_right Nat.one_lt_two).mp hsize

/-- A pattern that lies inside another one and has no fewer free positions is the same pattern. -/
theorem eq_of_contains_of_freeCount_le (h : p.contains q = true) (hfree : p.freeCount ≤ q.freeCount) : p = q := by
  have hsize : p.minterms.size ≤ q.minterms.size := by
    rw [size_minterms, size_minterms]
    exact Nat.pow_le_pow_right Nat.two_pos hfree
  have hsame : q.minterms = p.minterms := NatSet.eq_of_subset_of_size_le (minterms_subset_of_contains h) hsize
  apply eq_of_mem_iff (length_eq_of_contains h)
  intro m
  rw [← mem_minterms, ← hsame, mem_minterms]

end PrimeCover.Pattern
