import Mathlib
import PrimeCover.Proofs.Coverage.Columns
import PrimeCover.Proofs.Minimization.Trace

/-!
# What a minimization leaves to choose

The essential prime implicants settle the minterms that they stand for. When they do not settle all of them, a
choice is left, and it can be described without running the reduction: its candidates are the other prime
implicants, and its minterms are those that are not settled and whose prime implicants do not strictly include
those of another such minterm (`solve_leaves_minimal_columns`). The tabulation lists the prime implicants and the
primes of the reduction are the essential ones, so the columns of unsettled minterms compare as the sets of their
prime implicants do (`IsRecordOf.column_ssubset_iff`). A column that is left has two labels at least, since with
one alone its prime implicant would be essential.
-/

set_option autoImplicit false

namespace PrimeCover

open Coverage (Drops uncovered mem_uncovered)

namespace Pattern

/-- The prime implicants that stand for a minterm. -/
def primesOver (length : Nat) (minterms : List Nat) (m : Nat) : Set Pattern :=
  {p | p.IsPrime length minterms ∧ m ∈ p}

/-- A listed minterm for which no essential prime implicant stands. -/
def IsUnsettled (length : Nat) (minterms : List Nat) (m : Nat) : Prop :=
  m ∈ minterms ∧ ∀ p : Pattern, p.IsEssential length minterms → m ∉ p

end Pattern

namespace NatSet

/-- A property has as many positions in a list as there are entries with it. -/
theorem size_positions {α : Type} (p : α → Bool) (l : List α) : (positions p l).size = (l.filter p).length := by
  have hentries : l.filter p = (l.zipIdx.filter fun entry => p entry.1).map Prod.fst := by
    conv_lhs => rw [← List.zipIdx_map_fst 0 l, List.filter_map]
    rfl
  unfold positions size
  rw [hentries, List.length_map, List.length_map]

end NatSet

namespace Minimization

variable {minterms : List Nat} {record : Minimization} {k m : Nat} {t : Term} (h : record.IsRecordOf minterms)

include h

/-! ## Primes and candidates -/

/-- No candidate of the tabulation dominates another one. -/
theorem IsRecordOf.incomparable : Coverage.Incomparable record.tabulation.candidates :=
  incomparable_of_listsPrimes h.listsPrimes

/-- The reduction of a record ends in its second phase. -/
theorem IsRecordOf.exists_drops :
    ∃ chosen dropped, Drops minterms.mergeSort record.tabulation.candidates chosen dropped record.coverage := by
  rw [h.coverage_eq]
  exact Coverage.exists_drops_reduce minterms h.incomparable

/-- The candidates that are left are those of the tabulation that were not chosen. -/
theorem IsRecordOf.candidates_eq :
    record.coverage.candidates = record.tabulation.candidates.filter (· ∉ record.coverage.primes) := by
  obtain ⟨chosen, dropped, hdrops⟩ := h.exists_drops
  exact hdrops.candidates_eq

/-- A candidate of the tabulation is left exactly when it was not chosen. -/
theorem IsRecordOf.mem_candidates_iff :
    t ∈ record.coverage.candidates ↔ t ∈ record.tabulation.candidates ∧ t ∉ record.coverage.primes := by
  rw [h.candidates_eq, List.mem_filter, decide_eq_true_iff]

/-- The chosen primes are candidates of the tabulation. -/
theorem IsRecordOf.mem_tabulation_of_mem_primes (ht : t ∈ record.coverage.primes) :
    t ∈ record.tabulation.candidates := by
  obtain ⟨chosen, dropped, hdrops⟩ := h.exists_drops
  exact hdrops.mem_pool ht

/-- The chosen primes are the essential prime implicants. -/
theorem IsRecordOf.mem_patterns_primes_iff (p : Pattern) :
    p ∈ record.coverage.primes.map Term.pattern ↔ p.IsEssential (Minterm.width minterms) minterms := by
  obtain ⟨chosen, dropped, hdrops⟩ := h.exists_drops
  exact Minimization.mem_patterns_primes_iff h.listsPrimes (fun m => List.mem_mergeSort) hdrops p

/-- The remaining candidates are the prime implicants that are not essential. -/
theorem IsRecordOf.mem_patterns_candidates_iff (p : Pattern) :
    p ∈ record.coverage.candidates.map Term.pattern ↔
      p.IsPrime (Minterm.width minterms) minterms ∧ ¬ p.IsEssential (Minterm.width minterms) minterms := by
  have hexact := h.listsPrimes.exact
  rw [← h.listsPrimes.mem_patterns, ← h.mem_patterns_primes_iff]
  constructor
  · intro hp
    obtain ⟨t, ht, rfl⟩ := List.mem_map.mp hp
    obtain ⟨ht, hrest⟩ := h.mem_candidates_iff.mp ht
    refine ⟨List.mem_map_of_mem ht, ?_⟩
    intro hprime
    obtain ⟨u, hu, heq⟩ := List.mem_map.mp hprime
    have hsame : u = t := (hexact u (h.mem_tabulation_of_mem_primes hu)).eq_of_pattern (hexact t ht) heq
    exact hrest (hsame ▸ hu)
  · rintro ⟨hp, hrest⟩
    obtain ⟨t, ht, rfl⟩ := List.mem_map.mp hp
    exact List.mem_map_of_mem (h.mem_candidates_iff.mpr ⟨ht, fun hprime => hrest (List.mem_map_of_mem hprime)⟩)

/-! ## Unsettled minterms and their columns -/

/-- The minterms that no prime of the reduction covers are those that no essential prime implicant stands for. -/
theorem IsRecordOf.mem_uncovered_iff :
    m ∈ uncovered record.coverage.primes minterms ↔ Pattern.IsUnsettled (Minterm.width minterms) minterms m := by
  rw [mem_uncovered]
  unfold Pattern.IsUnsettled
  apply and_congr_right
  intro _
  simp only [← h.mem_patterns_primes_iff, List.forall_mem_map]
  apply forall₂_congr
  intro t ht
  exact not_congr (h.listsPrimes.exact t (h.mem_tabulation_of_mem_primes ht) m)

/-- An unsettled minterm has all its prime implicants among the candidates. -/
theorem IsRecordOf.mem_candidates (hm : m ∈ uncovered record.coverage.primes minterms)
    (ht : t ∈ record.tabulation.candidates) (hmt : m ∈ t) : t ∈ record.coverage.candidates :=
  h.mem_candidates_iff.mpr ⟨ht, fun hprime => (mem_uncovered.mp hm).2 t hprime hmt⟩

/-- Columns of uncovered minterms include each other as their prime implicants do. -/
theorem IsRecordOf.column_subset_iff (hk : k ∈ uncovered record.coverage.primes minterms) :
    record.coverage.column k ⊆ record.coverage.column m ↔
      Pattern.primesOver (Minterm.width minterms) minterms k ⊆
        Pattern.primesOver (Minterm.width minterms) minterms m := by
  have hexact : ∀ t ∈ record.tabulation.candidates, ∀ m, (m ∈ t ↔ m ∈ t.pattern) :=
    fun t ht m => h.listsPrimes.exact t ht m
  rw [Coverage.column_subset_iff]
  constructor
  · rintro hsub p ⟨hp, hkp⟩
    obtain ⟨t, ht, rfl⟩ := List.mem_map.mp ((h.listsPrimes.mem_patterns p).mpr hp)
    have hkt : k ∈ t := (hexact t ht k).mpr hkp
    exact ⟨hp, (hexact t ht m).mp (hsub t (h.mem_candidates hk ht hkt) hkt)⟩
  · intro hsub t ht hkt
    have hlisted : t ∈ record.tabulation.candidates := (h.mem_candidates_iff.mp ht).1
    have hprime := (h.listsPrimes.mem_patterns t.pattern).mp (List.mem_map_of_mem hlisted)
    exact (hexact t hlisted m).mpr (hsub ⟨hprime, (hexact t hlisted k).mp hkt⟩).2

/-- Columns of uncovered minterms strictly include each other as their prime implicants do. -/
theorem IsRecordOf.column_ssubset_iff (hk : k ∈ uncovered record.coverage.primes minterms)
    (hm : m ∈ uncovered record.coverage.primes minterms) :
    record.coverage.column k ⊂ record.coverage.column m ↔
      Pattern.primesOver (Minterm.width minterms) minterms k ⊂
        Pattern.primesOver (Minterm.width minterms) minterms m := by
  rw [NatSet.ssubset_iff, h.column_subset_iff hk, h.column_subset_iff hm]
  exact Iff.rfl

/-! ## What is left -/

/-- The minterms that are left, told by their prime implicants. -/
theorem IsRecordOf.mem_minterms_iff :
    m ∈ record.coverage.minterms ↔
      Pattern.IsUnsettled (Minterm.width minterms) minterms m ∧
        ∀ k, Pattern.IsUnsettled (Minterm.width minterms) minterms k →
          ¬ Pattern.primesOver (Minterm.width minterms) minterms k ⊂
            Pattern.primesOver (Minterm.width minterms) minterms m := by
  rw [Coverage.mem_minterms_reduce_iff h.incomparable h.coverage_eq]
  simp only [← h.mem_uncovered_iff]
  apply and_congr_right
  intro hm
  apply forall₂_congr
  intro k hk
  exact not_congr (h.column_ssubset_iff hk hm)

/-- The minterms that are left are strictly ascending. -/
theorem IsRecordOf.pairwise_minterms (hnodup : minterms.Nodup) : record.coverage.minterms.Pairwise (· < ·) := by
  obtain ⟨chosen, dropped, hdrops⟩ := h.exists_drops
  have hsorted : minterms.mergeSort.Pairwise (· ≤ ·) := List.pairwise_mergeSort' (· ≤ ·) minterms
  have hdistinct : minterms.mergeSort.Nodup := (List.mergeSort_perm minterms _).nodup_iff.mpr hnodup
  have hascending : minterms.mergeSort.Pairwise (· < ·) :=
    hsorted.imp₂ (fun _ _ hle hne => lt_of_le_of_ne hle hne) hdistinct
  exact hascending.sublist (hdrops.minterms_sublist.trans List.filter_sublist)

/-- A minterm belongs to some prime implicant, and if it belonged to one only, this would be essential. -/
theorem IsRecordOf.two_le_size_column (hbound : ∀ m ∈ minterms, m < 1024) (hm : m ∈ record.coverage.minterms) :
    2 ≤ (record.coverage.column m).size := by
  have hopen := Coverage.mem_uncovered_of_mem_minterms h.coverage_eq hm
  have hwidth : Minterm.width minterms ≤ maxVariables := (Minterm.width_le_iff_lt (by decide)).mpr hbound
  obtain ⟨cover, hcover⟩ := exists_isPrimeCover hwidth fun m hm => Minterm.lt_capacity_width hm
  obtain ⟨p, hp, hmp⟩ := hcover.covers m (mem_uncovered.mp hopen).1
  obtain ⟨t, ht, rfl⟩ := List.mem_map.mp ((h.listsPrimes.mem_patterns p).mpr (hcover.isPrime p hp))
  have hmt : m ∈ t := (h.listsPrimes.exact t ht m).mpr hmp
  have hsome : t ∈ record.coverage.candidates.filter (m ∈ ·) :=
    List.mem_filter.mpr ⟨h.mem_candidates hopen ht hmt, decide_eq_true hmt⟩
  have hmany : (record.coverage.candidates.filter (m ∈ ·)).length ≠ 1 := by
    intro hone
    obtain ⟨chosen, dropped, hdrops⟩ := h.exists_drops
    obtain ⟨u, hu⟩ := List.length_eq_one_iff.mp hone
    exact hdrops.exhausted m (hdrops.minterms_sublist.subset hm) u ((hdrops.isSole_iff hm).mp hu)
  have hpos := List.length_pos_of_mem hsome
  unfold Coverage.column
  rw [NatSet.size_positions]
  omega

/-- The columns list the labels of the patterns that stand for a minterm. -/
theorem IsRecordOf.column_eq (m : Nat) :
    record.coverage.column m = NatSet.positions (fun t : Term => m ∈ t.pattern) record.coverage.candidates := by
  apply NatSet.ext_mem
  intro label
  rw [Coverage.mem_column, NatSet.mem_positions]
  apply exists_congr
  intro t
  rw [decide_eq_true_iff]
  apply and_congr_right
  intro ht
  exact h.listsPrimes.exact t (h.mem_candidates_iff.mp (List.mem_of_getElem? ht)).1 m

end Minimization

/-- Petrick's product is needed unless the essential prime implicants settle every minterm. Its candidates are then
the other prime implicants, in the order of the tabulation, and its sums are the columns of the unsettled minterms
whose prime implicants do not strictly include those of another unsettled one. Each sum has two labels at least, and
none strictly contains another one. -/
theorem solve_leaves_minimal_columns {minterms : List Nat} {top : Nat} (hnodup : minterms.Nodup)
    (hbound : ∀ m ∈ minterms, m < 1024) (htop : minterms.max? = some top) :
    ∃ record, Minimization.solve minterms = .ok record ∧
      (record.petrick? = none ↔
        ∀ m ∈ minterms, ∃ p : Pattern, p.IsEssential (Binary.length top) minterms ∧ m ∈ p) ∧
      ∀ petrick, record.petrick? = some petrick →
        (record.coverage.candidates.Sublist record.tabulation.candidates ∧
          (record.coverage.candidates.map Term.pattern).Nodup ∧
          ∀ p : Pattern, p ∈ record.coverage.candidates.map Term.pattern ↔
            p.IsPrime (Binary.length top) minterms ∧ ¬ p.IsEssential (Binary.length top) minterms) ∧
        (record.coverage.minterms.Pairwise (· < ·) ∧
          ∀ m, m ∈ record.coverage.minterms ↔
            Pattern.IsUnsettled (Binary.length top) minterms m ∧
              ∀ k, Pattern.IsUnsettled (Binary.length top) minterms k →
                ¬ Pattern.primesOver (Binary.length top) minterms k ⊂
                  Pattern.primesOver (Binary.length top) minterms m) ∧
        petrick.candidates = record.coverage.candidates ∧
        petrick.sums = record.coverage.minterms.map (fun m =>
          NatSet.positions (fun t : Term => m ∈ t.pattern) record.coverage.candidates) ∧
        (∀ sum ∈ petrick.sums, 2 ≤ sum.size) ∧
        ∀ sum ∈ petrick.sums, ∀ other ∈ petrick.sums, ¬ other ⊂ sum := by
  have hcheck : Minterm.check minterms = .ok () := Minterm.check_eq_ok_iff.mpr ⟨hnodup, hbound⟩
  obtain ⟨record, hsolve, hrecord⟩ := Minimization.exists_isRecordOf hcheck
  rw [← Minterm.width_eq_length_of_max? htop]
  refine ⟨record, hsolve, ?_, ?_⟩
  · rw [hrecord.petrick?_eq_none_iff, Coverage.minterms_reduce_eq_nil_iff hrecord.incomparable hrecord.coverage_eq,
      List.eq_nil_iff_forall_not_mem]
    simp only [hrecord.mem_uncovered_iff, Pattern.IsUnsettled, not_and, not_forall, not_not, exists_prop]
  · intro petrick hpetrick
    obtain rfl := hrecord.petrick_eq hpetrick
    have hpool := hrecord.candidates_eq
    refine ⟨⟨?_, ?_, hrecord.mem_patterns_candidates_iff⟩,
      ⟨hrecord.pairwise_minterms hnodup, fun m => hrecord.mem_minterms_iff⟩, rfl, ?_, ?_, ?_⟩
    · rw [hpool]
      exact List.filter_sublist
    · rw [hpool]
      exact hrecord.listsPrimes.nodup.sublist (List.filter_sublist.map _)
    · exact List.map_congr_left fun m _ => hrecord.column_eq m
    · intro sum hsum
      obtain ⟨m, hm, rfl⟩ := List.mem_map.mp hsum
      exact hrecord.two_le_size_column hbound hm
    · intro sum hsum other hother
      obtain ⟨m, hm, rfl⟩ := List.mem_map.mp hsum
      obtain ⟨k, hk, rfl⟩ := List.mem_map.mp hother
      exact Coverage.not_ssubset_of_mem_minterms hrecord.coverage_eq hk hm

/-- Two essential prime implicants leave the minterms 0, 1 and 2 unsettled, and the prime implicants of minterm 0 include
those of the other two. -/
theorem solve_leaves_minimal_columns_partly :
    ([9, 4, 0, 11, 7, 2, 5, 10, 1, 6, 8].Nodup ∧ (∀ m ∈ [9, 4, 0, 11, 7, 2, 5, 10, 1, 6, 8], m < 1024) ∧
        [9, 4, 0, 11, 7, 2, 5, 10, 1, 6, 8].max? = some 11) ∧
      ∃ record, Minimization.solve [9, 4, 0, 11, 7, 2, 5, 10, 1, 6, 8] = .ok record ∧
        (record.petrick? = none ↔
          ∀ m ∈ [9, 4, 0, 11, 7, 2, 5, 10, 1, 6, 8],
            ∃ p : Pattern, p.IsEssential (Binary.length 11) [9, 4, 0, 11, 7, 2, 5, 10, 1, 6, 8] ∧ m ∈ p) ∧
        ∀ petrick, record.petrick? = some petrick →
          (record.coverage.candidates.Sublist record.tabulation.candidates ∧
            (record.coverage.candidates.map Term.pattern).Nodup ∧
            ∀ p : Pattern, p ∈ record.coverage.candidates.map Term.pattern ↔
              p.IsPrime (Binary.length 11) [9, 4, 0, 11, 7, 2, 5, 10, 1, 6, 8] ∧
                ¬ p.IsEssential (Binary.length 11) [9, 4, 0, 11, 7, 2, 5, 10, 1, 6, 8]) ∧
          (record.coverage.minterms.Pairwise (· < ·) ∧
            ∀ m, m ∈ record.coverage.minterms ↔
              Pattern.IsUnsettled (Binary.length 11) [9, 4, 0, 11, 7, 2, 5, 10, 1, 6, 8] m ∧
                ∀ k, Pattern.IsUnsettled (Binary.length 11) [9, 4, 0, 11, 7, 2, 5, 10, 1, 6, 8] k →
                  ¬ Pattern.primesOver (Binary.length 11) [9, 4, 0, 11, 7, 2, 5, 10, 1, 6, 8] k ⊂
                    Pattern.primesOver (Binary.length 11) [9, 4, 0, 11, 7, 2, 5, 10, 1, 6, 8] m) ∧
          petrick.candidates = record.coverage.candidates ∧
          petrick.sums = record.coverage.minterms.map (fun m =>
            NatSet.positions (fun t : Term => m ∈ t.pattern) record.coverage.candidates) ∧
          (∀ sum ∈ petrick.sums, 2 ≤ sum.size) ∧
          ∀ sum ∈ petrick.sums, ∀ other ∈ petrick.sums, ¬ other ⊂ sum :=
  ⟨⟨by decide, by decide, by decide⟩, solve_leaves_minimal_columns (by decide) (by decide) (by decide)⟩

end PrimeCover
