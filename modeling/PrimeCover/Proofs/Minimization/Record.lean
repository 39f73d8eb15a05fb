import Mathlib
import PrimeCover.Minimization
import PrimeCover.Proofs.Tabulation.Primes

/-!
# The record of a minimization

A list is accepted exactly when its minterms are distinct and have at most ten digits
(`check_eq_ok_iff`). For an accepted list nothing else can fail: `solve_eq_ok` gives the record, whose
candidates are the prime implicants (`listsPrimes_candidates`). Whether or not something is left to choose,
the solutions are those of Petrick's product for the reduced problem (`solutions_ofLeaves`).
-/

set_option autoImplicit false

namespace PrimeCover

/-! ## The width of a list of minterms -/

namespace Minterm

variable {minterms : List Nat} {m n : Nat}

/-- A larger number has no fewer binary digits. -/
theorem length_mono (h : m ≤ n) : Binary.length m ≤ Binary.length n := by
  unfold Binary.length
  have hlog : m.log2 ≤ n.log2 := by
    rw [Nat.log2_eq_log_two, Nat.log2_eq_log_two]
    exact Nat.log_mono_right h
  omega

/-- A number fits into its own digits. -/
theorem lt_capacity_length (m : Nat) : m < Binary.capacity (Binary.length m) := by
  by_cases h : m = 0
  · rw [h]
    exact Nat.two_pow_pos _
  · exact (Binary.length_le_iff h).mp (Nat.le_refl _)

/-- The width of a list is the most digits that one of its numbers has. -/
theorem width_le_iff : width minterms ≤ n ↔ ∀ m ∈ minterms, Binary.length m ≤ n := by
  unfold width
  rw [Level.foldl_max_le_iff, List.forall_mem_map]

/-- No number of a list has more digits than the width. -/
theorem length_le_width (h : m ∈ minterms) : Binary.length m ≤ width minterms :=
  width_le_iff.mp (Nat.le_refl _) m h

/-- Every number of a list fits into the width. -/
theorem lt_capacity_width (h : m ∈ minterms) : m < Binary.capacity (width minterms) :=
  Nat.lt_of_lt_of_le (lt_capacity_length m) (Nat.pow_le_pow_right Nat.two_pos (length_le_width h))

/-- The width is bounded by a positive number of digits exactly when no minterm needs more. -/
theorem width_le_iff_lt (hpos : 0 < n) : width minterms ≤ n ↔ ∀ m ∈ minterms, m < 2 ^ n := by
  rw [width_le_iff]
  apply forall₂_congr
  intro m _
  by_cases hm : m = 0
  · rw [hm]
    exact iff_of_true hpos (Nat.two_pow_pos n)
  · exact Binary.length_le_iff hm

/-- The width of a list is the number of digits of its largest minterm. -/
theorem width_eq_length_of_max? {top : Nat} (h : minterms.max? = some top) :
    width minterms = Binary.length top := by
  obtain ⟨hmem, hle⟩ := List.max?_eq_some_iff.mp h
  apply Nat.le_antisymm
  · exact width_le_iff.mpr fun m hm => length_mono (hle m hm)
  · exact length_le_width hmem

/-- No repeat is found exactly when the numbers are distinct. -/
theorem firstRepeat?_nil_eq_none_iff : firstRepeat? [] minterms = none ↔ minterms.Nodup := by
  rw [firstRepeat?_eq_none_iff]
  exact and_iff_left fun m _ => List.not_mem_nil

/-- Distinct minterms are checked for their width only. -/
theorem check_of_nodup (h : minterms.Nodup) :
    check minterms = if width minterms ≤ maxVariables then .ok ()
      else .error (.tooManyVariables (width minterms) maxVariables) := by
  unfold check
  rw [firstRepeat?_nil_eq_none_iff.mpr h]

/-- A list is accepted exactly when its minterms are distinct and have at most ten digits. -/
theorem check_eq_ok_iff : check minterms = .ok () ↔ minterms.Nodup ∧ ∀ m ∈ minterms, m < 2 ^ maxVariables := by
  rw [← firstRepeat?_nil_eq_none_iff, ← width_le_iff_lt (by decide)]
  unfold check
  cases firstRepeat? [] minterms with
  | some m => simp
  | none =>
    by_cases hle : width minterms ≤ maxVariables
    · simp [hle]
    · simp [hle]

end Minterm

namespace Pattern

variable {length : Nat} {first second : List Nat} {p : Pattern}

/-- Implicants depend on which minterms are listed, not on how. -/
theorem isImplicant_congr (h : ∀ m, m ∈ first ↔ m ∈ second) :
    p.IsImplicant length first ↔ p.IsImplicant length second := by
  unfold IsImplicant
  simp only [h]

/-- Prime implicants depend on which minterms are listed only, not on their order. -/
theorem isPrime_congr (h : ∀ m, m ∈ first ↔ m ∈ second) :
    p.IsPrime length first ↔ p.IsPrime length second := by
  unfold IsPrime
  simp only [isImplicant_congr h]

end Pattern

namespace Minimization

variable {minterms : List Nat} {leaves : List Term}

/-- An accepted list of minterms has a record. -/
theorem solve_eq_ok (hcheck : Minterm.check minterms = .ok ()) :
    ∃ leaves, (minterms.mergeSort.mapM fun m => Term.leaf m (Minterm.width minterms)) = .ok leaves ∧
      solve minterms = .ok (ofLeaves (Minterm.width minterms) minterms.mergeSort leaves) := by
  obtain ⟨-, hbound⟩ := Minterm.check_eq_ok_iff.mp hcheck
  have hwidth : Minterm.width minterms ≤ maxVariables := (Minterm.width_le_iff_lt (by decide)).mpr hbound
  have hfits : ∀ m ∈ minterms.mergeSort, m < Binary.capacity (Minterm.width minterms) := by
    intro m hm
    exact Minterm.lt_capacity_width (List.mem_mergeSort.mp hm)
  obtain ⟨leaves, hleaves⟩ := Term.exists_mapM_leaf hwidth hfits
  refine ⟨leaves, hleaves, ?_⟩
  unfold solve
  rw [hcheck]
  simp only [hleaves, bind, Except.bind, pure, Except.pure]

/-- The tabulation of a list of distinct minterms lists their prime implicants. -/
theorem listsPrimes_candidates (hnodup : minterms.Nodup)
    (hleaves : (minterms.mergeSort.mapM fun m => Term.leaf m (Minterm.width minterms)) = .ok leaves) :
    Tabulation.ListsPrimes (Minterm.width minterms) minterms (Tabulation.ofTerms leaves).candidates := by
  have hsorted : minterms.mergeSort.Nodup := (List.mergeSort_perm minterms _).nodup_iff.mpr hnodup
  have hprimes := Tabulation.listsPrimes_ofTerms hsorted (Term.mapM_leaf_eq_ok_iff.mp hleaves)
  refine ⟨?_, hprimes.nodup, hprimes.exact⟩
  intro p
  rw [hprimes.mem_patterns p]
  exact Pattern.isPrime_congr fun m => List.mem_mergeSort

/-- The solutions come from Petrick's product for the reduced problem, also when nothing is left to cover. -/
theorem solutions_ofLeaves (n : Nat) (minterms : List Nat) (leaves : List Term) :
    (ofLeaves n minterms leaves).solutions =
      (Petrick.ofCoverage (ofLeaves n minterms leaves).coverage).solve.map
        (assemble (Petrick.ofCoverage (ofLeaves n minterms leaves).coverage)
          (ofLeaves n minterms leaves).coverage.primes) := by
  unfold ofLeaves
  simp only
  split
  · next hcovered =>
    -- no sum is left, so the only product is the empty one
    have hnone : ((Coverage.start minterms (Tabulation.ofTerms leaves).candidates).reduce).minterms = [] :=
      List.isEmpty_iff.mp hcovered
    have hsums : (Petrick.ofCoverage
        (Coverage.start minterms (Tabulation.ofTerms leaves).candidates).reduce).sums = [] := by
      unfold Petrick.ofCoverage Coverage.table
      rw [hnone, List.map_nil]
    unfold Petrick.solve
    rw [hsums]
    rfl
  · rfl

/-- The record keeps the tabulation of the leaves. -/
theorem tabulation_ofLeaves (n : Nat) (minterms : List Nat) (leaves : List Term) :
    (ofLeaves n minterms leaves).tabulation = Tabulation.ofTerms leaves := by
  unfold ofLeaves
  simp only
  split
  · rfl
  · rfl

/-- The record keeps the reduced problem of covering the minterms with the candidates. -/
theorem coverage_ofLeaves (n : Nat) (minterms : List Nat) (leaves : List Term) :
    (ofLeaves n minterms leaves).coverage =
      (Coverage.start minterms (Tabulation.ofTerms leaves).candidates).reduce := by
  unfold ofLeaves
  simp only
  split
  · rfl
  · rfl

/-- The record has a product of sums exactly when the reduction left minterms. -/
theorem petrick?_ofLeaves (n : Nat) (minterms : List Nat) (leaves : List Term) :
    (ofLeaves n minterms leaves).petrick? =
      if (ofLeaves n minterms leaves).coverage.isCovered then none
      else some (Petrick.ofCoverage (ofLeaves n minterms leaves).coverage) := by
  rw [coverage_ofLeaves]
  unfold ofLeaves
  simp only
  split
  · rfl
  · rfl

/-! ## The stages of a record -/

/-- The minterms of a problem are sorted anyway. -/
theorem start_mergeSort (minterms : List Nat) (pool : List Term) :
    Coverage.start minterms.mergeSort pool = Coverage.start minterms pool := by
  unfold Coverage.start
  rw [List.mergeSort_eq_self (· ≤ ·) (List.pairwise_mergeSort' (· ≤ ·) minterms)]

/-- Each stage of the record starts from the one before it, and the first one from the minterms. -/
structure IsRecordOf (record : Minimization) (minterms : List Nat) : Prop where
  listsPrimes : Tabulation.ListsPrimes (Minterm.width minterms) minterms record.tabulation.candidates
  coverage_eq : record.coverage = (Coverage.start minterms record.tabulation.candidates).reduce
  petrick?_eq : record.petrick? =
    if record.coverage.isCovered then none else some (Petrick.ofCoverage record.coverage)
  solutions_eq : record.solutions =
    (Petrick.ofCoverage record.coverage).solve.map
      (assemble (Petrick.ofCoverage record.coverage) record.coverage.primes)

/-- A record has no product of sums exactly when the reduction left no minterm. -/
theorem IsRecordOf.petrick?_eq_none_iff {record : Minimization} (h : record.IsRecordOf minterms) :
    record.petrick? = none ↔ record.coverage.minterms = [] := by
  rw [h.petrick?_eq, ← List.isEmpty_iff]
  exact ite_eq_left_iff.trans (by simp [Coverage.isCovered])

/-- The product of sums of a record is that of what the reduction left. -/
theorem IsRecordOf.petrick_eq {record : Minimization} {petrick : Petrick} (h : record.IsRecordOf minterms)
    (hpetrick : record.petrick? = some petrick) : petrick = Petrick.ofCoverage record.coverage := by
  rw [h.petrick?_eq, Option.ite_none_left_eq_some] at hpetrick
  exact (Option.some.inj hpetrick.2).symm

/-- A list of minterms that passes the check has a record. -/
theorem exists_isRecordOf (hcheck : Minterm.check minterms = .ok ()) :
    ∃ record : Minimization, solve minterms = .ok record ∧ record.IsRecordOf minterms := by
  obtain ⟨leaves, hleaves, hsolve⟩ := solve_eq_ok hcheck
  have hprimes := listsPrimes_candidates (Minterm.check_eq_ok_iff.mp hcheck).1 hleaves
  refine ⟨_, hsolve, ⟨?_, ?_, petrick?_ofLeaves _ _ _, solutions_ofLeaves _ _ _⟩⟩
  · rw [tabulation_ofLeaves]
    exact hprimes
  · rw [coverage_ofLeaves, tabulation_ofLeaves, start_mergeSort]

end Minimization

/-- To minimize is to solve and to take the solutions. -/
theorem minimize_eq_map (minterms : List Nat) :
    minimize minterms = (Minimization.solve minterms).map Minimization.solutions := by
  unfold minimize
  cases Minimization.solve minterms with
  | error fault => rfl
  | ok record => rfl

end PrimeCover
