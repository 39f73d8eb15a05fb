import Mathlib
import PrimeCover.Proofs.Coverage.Phases
import PrimeCover.Proofs.Minimization.Covers

/-!
# The steps of a minimization

The pool of a minimization lists the prime implicants, none of which dominates another one, so its reduction goes
through the two phases of `Drops`. A term is the one entry of this pool for a minterm exactly when its pattern is
the only prime implicant there (`isSole_iff_isOnlyCover`). What the first phase chooses is therefore known
without running it: the essential prime implicants, in the order of the first minterms that ask for them
(`solve_steps_essential_then_column`).
-/

set_option autoImplicit false

namespace PrimeCover

open Coverage (IsSole Drops)

variable {length : Nat} {minterms active : List Nat} {pool : List Term} {chosen : List (Nat × Term)}
  {dropped : List (Nat × Nat)} {c : Coverage} {t : Term} {m : Nat}

namespace Minimization

/-- A candidate is the only one to cover a minterm exactly when its pattern is the only prime implicant to do so. -/
theorem isSole_iff_isOnlyCover (hpool : Tabulation.ListsPrimes length minterms pool) (ht : t ∈ pool) :
    IsSole pool t m ↔ t.pattern.IsOnlyCover length minterms m := by
  have hexact : ∀ u ∈ pool, (m ∈ u ↔ m ∈ u.pattern) := fun u hu => hpool.exact u hu m
  constructor
  · intro hsole
    refine ⟨(hpool.mem_patterns t.pattern).mp (List.mem_map_of_mem ht), (hexact t ht).mp hsole.covers, ?_⟩
    intro q hq hmq
    obtain ⟨u, hu, rfl⟩ := List.mem_map.mp ((hpool.mem_patterns q).mpr hq)
    rw [hsole.eq hu ((hexact u hu).mpr hmq)]
  · rintro ⟨-, hmt, honly⟩
    have hmem : ∀ u, u ∈ pool.filter (m ∈ ·) ↔ u ∈ [t] := by
      intro u
      rw [List.mem_filter, List.mem_singleton, decide_eq_true_iff]
      constructor
      · rintro ⟨hu, hmu⟩
        have hprime := (hpool.mem_patterns u.pattern).mp (List.mem_map_of_mem hu)
        exact (hpool.exact u hu).eq_of_pattern (hpool.exact t ht) (honly u.pattern hprime ((hexact u hu).mp hmu))
      · rintro rfl
        exact ⟨ht, (hexact u ht).mpr hmt⟩
    have hnodup : (pool.filter (m ∈ ·)).Nodup := (List.Nodup.of_map _ hpool.nodup).filter _
    exact List.perm_singleton.mp ((List.perm_ext_iff_of_nodup hnodup (List.nodup_singleton t)).mpr hmem)

/-! ## What the first phase chooses -/

/-- A term is chosen for the first of the minterms that it alone covers. -/
theorem isOnlyCover_of_mem_chosen (hpool : Tabulation.ListsPrimes length minterms pool)
    (hactive : ∀ m, m ∈ active ↔ m ∈ minterms) (hdrops : Drops active pool chosen dropped c) {e : Nat × Term}
    (he : e ∈ chosen) :
    e.1 ∈ minterms ∧ e.2.pattern.IsOnlyCover length minterms e.1 ∧
      ∀ m ∈ minterms, e.2.pattern.IsOnlyCover length minterms m → e.1 ≤ m := by
  obtain ⟨hmem, hsole, hle⟩ := hdrops.isFirstSole e he
  have hpattern : ∀ m, IsSole pool e.2 m ↔ e.2.pattern.IsOnlyCover length minterms m :=
    fun m => isSole_iff_isOnlyCover hpool hsole.mem_pool
  refine ⟨(hactive e.1).mp hmem, (hpattern e.1).mp hsole, ?_⟩
  intro m hm honly
  exact hle m ((hactive m).mpr hm) ((hpattern m).mpr honly)

/-- No pattern was chosen twice. -/
theorem nodup_patterns_primes (hpool : Tabulation.ListsPrimes length minterms pool)
    (hdrops : Drops active pool chosen dropped c) : (c.primes.map Term.pattern).Nodup := by
  refine List.Nodup.map_on ?_ hdrops.nodup_primes
  intro t ht u hu heq
  exact (hpool.exact t (hdrops.mem_pool ht)).eq_of_pattern (hpool.exact u (hdrops.mem_pool hu)) heq

/-- The patterns that were chosen are the essential prime implicants. -/
theorem mem_patterns_primes_iff (hpool : Tabulation.ListsPrimes length minterms pool)
    (hactive : ∀ m, m ∈ active ↔ m ∈ minterms) (hdrops : Drops active pool chosen dropped c) (p : Pattern) :
    p ∈ c.primes.map Term.pattern ↔ p.IsEssential length minterms := by
  constructor
  · intro hp
    obtain ⟨t, ht, rfl⟩ := List.mem_map.mp hp
    rw [hdrops.primes_eq] at ht
    obtain ⟨e, he, rfl⟩ := List.mem_map.mp ht
    obtain ⟨hmem, honly, -⟩ := isOnlyCover_of_mem_chosen hpool hactive hdrops he
    exact ⟨e.1, hmem, honly⟩
  · rintro ⟨m, hm, honly⟩
    obtain ⟨t, ht, rfl⟩ := List.mem_map.mp ((hpool.mem_patterns p).mpr honly.1)
    have hsole : IsSole pool t m := (isSole_iff_isOnlyCover hpool ht).mpr honly
    exact List.mem_map_of_mem (hdrops.mem_primes ((hactive m).mpr hm) hsole)

/-- The reduction of a minimization goes through two phases, on the pool of the prime implicants. -/
theorem exists_drops_solve (hnodup : minterms.Nodup) (hbound : ∀ m ∈ minterms, m < 1024) :
    ∃ record pool chosen dropped, solve minterms = .ok record ∧
      Tabulation.ListsPrimes (Minterm.width minterms) minterms pool ∧
      Drops minterms.mergeSort.mergeSort pool chosen dropped record.coverage := by
  have hcheck : Minterm.check minterms = .ok () := Minterm.check_eq_ok_iff.mpr ⟨hnodup, hbound⟩
  obtain ⟨leaves, hleaves, hsolve⟩ := solve_eq_ok hcheck
  have hpool := listsPrimes_candidates hnodup hleaves
  obtain ⟨chosen, dropped, hdrops⟩ :=
    Coverage.exists_drops_reduce minterms.mergeSort (incomparable_of_listsPrimes hpool)
  refine ⟨_, _, chosen, dropped, hsolve, hpool, ?_⟩
  rw [coverage_ofLeaves]
  exact hdrops

end Minimization

/-- The steps of a minimization are essential steps and after them column steps. The essential steps choose the
essential prime implicants, each once. Every one of them is recorded with the smallest minterm that belongs to no
other prime implicant, and these minterms ascend. -/
theorem solve_steps_essential_then_column {top : Nat} (hnodup : minterms.Nodup)
    (hbound : ∀ m ∈ minterms, m < 1024) (htop : minterms.max? = some top) :
    ∃ record, Minimization.solve minterms = .ok record ∧
      (∃ (chosen : List (Nat × Pattern)) (dropped : List (Nat × Nat)),
        record.coverage.steps =
          chosen.map (fun e => .essential e.1 e.2) ++ dropped.map (fun e => .column e.1 e.2) ∧
        record.coverage.primes.map Term.pattern = chosen.map Prod.snd ∧
        (∀ e ∈ chosen, e.1 ∈ minterms ∧ e.2.IsOnlyCover (Binary.length top) minterms e.1 ∧
          ∀ m ∈ minterms, e.2.IsOnlyCover (Binary.length top) minterms m → e.1 ≤ m) ∧
        chosen.Pairwise fun e f => e.1 < f.1) ∧
      (∀ kept discarded, Step.row kept discarded ∉ record.coverage.steps) ∧
      (record.coverage.primes.map Term.pattern).Nodup ∧
      ∀ p : Pattern, p ∈ record.coverage.primes.map Term.pattern ↔ p.IsEssential (Binary.length top) minterms := by
  obtain ⟨record, pool, chosen, dropped, hsolve, hpool, hdrops⟩ :=
    Minimization.exists_drops_solve hnodup hbound
  rw [Minterm.width_eq_length_of_max? htop] at hpool
  have hactive : ∀ m, m ∈ minterms.mergeSort.mergeSort ↔ m ∈ minterms := by
    intro m
    rw [List.mem_mergeSort, List.mem_mergeSort]
  refine ⟨record, hsolve, ⟨chosen.map fun e => (e.1, e.2.pattern), dropped, ?_, ?_, ?_, ?_⟩, ?_,
    Minimization.nodup_patterns_primes hpool hdrops, Minimization.mem_patterns_primes_iff hpool hactive hdrops⟩
  · rw [hdrops.steps_eq, List.map_map]
    rfl
  · rw [hdrops.primes_eq, List.map_map, List.map_map]
    rfl
  · rw [List.forall_mem_map]
    intro e he
    exact Minimization.isOnlyCover_of_mem_chosen hpool hactive hdrops he
  · exact List.pairwise_map.mpr hdrops.ascending
  · intro kept discarded
    rw [hdrops.steps_eq]
    simp

/-- In this minimization the minterms 7 and 11 each ask for a term, and then the column of minterm 0 is dropped. -/
theorem solve_steps_essential_then_column_both :
    ([9, 4, 0, 11, 7, 2, 5, 10, 1, 6, 8].Nodup ∧ (∀ m ∈ [9, 4, 0, 11, 7, 2, 5, 10, 1, 6, 8], m < 1024) ∧
        [9, 4, 0, 11, 7, 2, 5, 10, 1, 6, 8].max? = some 11) ∧
      ∃ record, Minimization.solve [9, 4, 0, 11, 7, 2, 5, 10, 1, 6, 8] = .ok record ∧
        (∃ (chosen : List (Nat × Pattern)) (dropped : List (Nat × Nat)),
          record.coverage.steps =
            chosen.map (fun e => .essential e.1 e.2) ++ dropped.map (fun e => .column e.1 e.2) ∧
          record.coverage.primes.map Term.pattern = chosen.map Prod.snd ∧
          (∀ e ∈ chosen, e.1 ∈ [9, 4, 0, 11, 7, 2, 5, 10, 1, 6, 8] ∧
            e.2.IsOnlyCover (Binary.length 11) [9, 4, 0, 11, 7, 2, 5, 10, 1, 6, 8] e.1 ∧
            ∀ m ∈ [9, 4, 0, 11, 7, 2, 5, 10, 1, 6, 8],
              e.2.IsOnlyCover (Binary.length 11) [9, 4, 0, 11, 7, 2, 5, 10, 1, 6, 8] m → e.1 ≤ m) ∧
          chosen.Pairwise fun e f => e.1 < f.1) ∧
        (∀ kept discarded, Step.row kept discarded ∉ record.coverage.steps) ∧
        (record.coverage.primes.map Term.pattern).Nodup ∧
        ∀ p : Pattern, p ∈ record.coverage.primes.map Term.pattern ↔
          p.IsEssential (Binary.length 11) [9, 4, 0, 11, 7, 2, 5, 10, 1, 6, 8] :=
  ⟨⟨by decide, by decide, by decide⟩, solve_steps_essential_then_column (by decide) (by decide) (by decide)⟩

end PrimeCover
