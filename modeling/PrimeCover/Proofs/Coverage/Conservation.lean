import Mathlib
import PrimeCover.Proofs.Coverage.Selection

/-!
# No minterm is lost

A step only takes away: active minterms and candidates get fewer, and a candidate that leaves the pool for the
primes does so once. What is taken away stays accounted for. A minterm that leaves with an essential prime is
covered by it, and a minterm that is dropped is covered by whatever covers the one that was kept; so a
selection of the remaining candidates covers what is active exactly when it covers, with the primes chosen
since, what was active before (`Fires.exists_added`). The kept minterm may be dropped or covered later on: the
invariant `Conserves` therefore speaks of the minterms of the start and of all remaining selections, and never
of the minterm for which another one was dropped.

No assumption is made on the pool: it may hold a term more than once, terms that dominate each other, and terms
of different lengths, and some minterms may not be covered by any of them.
-/

set_option autoImplicit false

namespace PrimeCover.Coverage

variable {c next : Coverage} {rule : Rule} {step : Step} {selection : List Term} {minterms : List Nat}
  {pool : List Term}

/-! ## One step -/

/-- No entry of the pool is used twice. -/
theorem Fires.subperm (h : Fires c rule step next) :
    (next.primes ++ next.candidates).Subperm (c.primes ++ c.candidates) := by
  cases h with
  | essential active single =>
    have hperm := (candidates_perm_of_single single).append_left c.primes
    simp only [List.append_assoc, List.singleton_append]
    exact hperm.symm.subperm
  | row kept_mem discarded_mem dominates => exact (List.erase_sublist.append_left c.primes).subperm
  | column kept_mem discarded_mem strict => exact List.Subperm.refl _

/-- Terms that cover none of the minterms add nothing to a selection. -/
theorem covers_append_iff_of_forall_notMem {added : List Term}
    (h : ∀ m ∈ minterms, ∀ t ∈ added, m ∉ t) : Covers (selection ++ added) minterms ↔ Covers selection minterms := by
  apply forall₂_congr
  intro m hm
  constructor
  · rintro ⟨t, ht, hmt⟩
    have hnot : t ∉ added := fun hadded => h m hm t hadded hmt
    exact ⟨t, (List.mem_append.mp ht).resolve_right hnot, hmt⟩
  · rintro ⟨t, ht, hmt⟩
    exact ⟨t, List.mem_append_left _ ht, hmt⟩

/-- A step adds to the primes what makes up for the minterms that it takes away. -/
theorem Fires.exists_added (h : Fires c rule step next) :
    ∃ added, next.primes = c.primes ++ added ∧ (∀ t ∈ added, t ∈ c.candidates) ∧
      ∀ selection : List Term, (∀ t ∈ selection, t ∈ next.candidates) →
        (Covers selection next.minterms ↔ Covers (selection ++ added) c.minterms) := by
  have hremaining := h.candidates_sublist.subset
  cases h with
  | @essential m prime active single =>
    have hprime : prime ∈ c.candidates :=
      (candidates_perm_of_single single).mem_iff.mpr List.mem_cons_self
    refine ⟨[prime], rfl, by simpa using hprime, ?_⟩
    intro selection hsel
    have hpool : ∀ t ∈ selection ++ [prime], t ∈ c.candidates := by
      intro t ht
      rcases List.mem_append.mp ht with ht | ht
      · exact hremaining (hsel t ht)
      · rw [List.mem_singleton.mp ht]
        exact hprime
    have hleft : ∀ k ∈ c.minterms.filter (· ∉ prime), ∀ t ∈ [prime], k ∉ t := by
      intro k hk t ht
      rw [List.mem_singleton.mp ht]
      exact of_decide_eq_true (List.mem_filter.mp hk).2
    rw [covers_iff_of_single active single hpool, covers_append_iff_of_forall_notMem hleft]
    exact (and_iff_right (List.mem_append_right _ (List.mem_singleton_self prime))).symm
  | row kept_mem discarded_mem dominates =>
    refine ⟨[], (List.append_nil _).symm, fun t ht => absurd ht List.not_mem_nil, ?_⟩
    intro selection _
    rw [List.append_nil]
  | column kept_mem discarded_mem strict =>
    refine ⟨[], (List.append_nil _).symm, fun t ht => absurd ht List.not_mem_nil, ?_⟩
    intro selection hsel
    rw [List.append_nil]
    exact (covers_erase_iff kept_mem strict hsel).symm

/-! ## Along a run -/

/-- What is left of a problem accounts for all minterms of the start. -/
structure Conserves (minterms : List Nat) (pool : List Term) (c : Coverage) : Prop where
  minterms_sublist : c.minterms.Sublist minterms.mergeSort
  candidates_sublist : c.candidates.Sublist pool
  subperm : (c.primes ++ c.candidates).Subperm pool
  fresh : Fresh c
  covers_iff : ∀ selection : List Term, (∀ t ∈ selection, t ∈ c.candidates) →
    (Covers selection c.minterms ↔ Covers (selection ++ c.primes) minterms)

/-- The start accounts for all its minterms. -/
theorem conserves_start (minterms : List Nat) (pool : List Term) :
    Conserves minterms pool (start minterms pool) where
  minterms_sublist := List.Sublist.refl _
  candidates_sublist := List.Sublist.refl _
  subperm := List.Subperm.refl _
  fresh := fun _ _ _ ht => absurd ht List.not_mem_nil
  covers_iff := by
    intro selection _
    unfold Covers start
    simp only [List.mem_mergeSort, List.append_nil]

/-- What a step leaves still accounts for all minterms of the start. -/
theorem Conserves.fires (h : Conserves minterms pool c) (hfires : Fires c rule step next) :
    Conserves minterms pool next where
  minterms_sublist := hfires.minterms_sublist.trans h.minterms_sublist
  candidates_sublist := hfires.candidates_sublist.trans h.candidates_sublist
  subperm := hfires.subperm.trans h.subperm
  fresh := h.fresh.fires hfires
  covers_iff := by
    intro selection hsel
    obtain ⟨added, hprimes, hadded, hcovers⟩ := hfires.exists_added
    have hpool : ∀ t ∈ selection ++ added, t ∈ c.candidates := by
      intro t ht
      rcases List.mem_append.mp ht with ht | ht
      · exact hfires.candidates_sublist.subset (hsel t ht)
      · exact hadded t ht
    have hmem : ∀ t, t ∈ selection ++ added ++ c.primes ↔ t ∈ selection ++ next.primes := by
      intro t
      rw [hprimes]
      simp only [List.mem_append]
      tauto
    calc Covers selection next.minterms ↔ Covers (selection ++ added) c.minterms := hcovers selection hsel
      _ ↔ Covers (selection ++ added ++ c.primes) minterms := h.covers_iff _ hpool
      _ ↔ Covers (selection ++ next.primes) minterms := by
        unfold Covers
        simp only [hmem]

/-- However rules are applied, what is left accounts for all minterms of the start. -/
theorem Reaches.conserves (h : Reaches (start minterms pool) c) : Conserves minterms pool c := by
  refine h.invariant ?_ ?_ (conserves_start minterms pool)
  · intro c rule step next hc hfires
    exact hc.fires hfires
  · intro c steps hc
    exact ⟨hc.minterms_sublist, hc.candidates_sublist, hc.subperm, hc.fresh, hc.covers_iff⟩

/-- However rules are applied, singly or until they come to an end, and whatever the pool holds: the active
minterms are among those of the start and stay in order, the primes and the remaining candidates are entries of
the pool, no prime covers an active minterm, and a selection of the remaining candidates covers what is active
exactly when together with the primes it covers everything. When nothing is active, the primes do so alone. -/
theorem covers_active_iff_covers_start (h : Reaches (start minterms pool) c) :
    c.minterms.Sublist minterms.mergeSort ∧ c.minterms.Pairwise (· ≤ ·) ∧ c.candidates.Sublist pool ∧
      (c.primes ++ c.candidates).Subperm pool ∧ (∀ m ∈ c.minterms, ∀ t ∈ c.primes, m ∉ t) ∧
      (∀ selection : List Term, (∀ t ∈ selection, t ∈ c.candidates) →
        (Covers selection c.minterms ↔ Covers (selection ++ c.primes) minterms)) ∧
      (c.isCovered = true → Covers c.primes minterms) := by
  have hc := h.conserves
  have hsorted : minterms.mergeSort.Pairwise (· ≤ ·) := List.pairwise_mergeSort' (· ≤ ·) minterms
  refine ⟨hc.minterms_sublist, hsorted.sublist hc.minterms_sublist, hc.candidates_sublist, hc.subperm, hc.fresh,
    hc.covers_iff, ?_⟩
  intro hcovered
  have hnone : Covers [] c.minterms := by
    intro m hm
    rw [List.isEmpty_iff.mp hcovered] at hm
    exact absurd hm List.not_mem_nil
  exact (hc.covers_iff [] fun t ht => absurd ht List.not_mem_nil).mp hnone

/-! ### A run in which every rule fires -/

/-- Two equal terms, terms of two lengths, and a minterm that every step has to keep track of twice. -/
def mixedPool : List Term :=
  [.ofPattern ⟨[.free, .zero], by decide⟩, .ofPattern ⟨[.one, .free], by decide⟩,
    .ofPattern ⟨[.zero, .free], by decide⟩, .ofPattern ⟨[.zero, .free], by decide⟩,
    .ofPattern ⟨[.one], by decide⟩]

/-- What is left of the mixed pool: minterm 1 twice, which the two equal terms cover. -/
def mixedRest : Coverage where
  minterms := [1, 1]
  candidates :=
    [.ofPattern ⟨[.free, .zero], by decide⟩, .ofPattern ⟨[.zero, .free], by decide⟩,
      .ofPattern ⟨[.zero, .free], by decide⟩]
  primes := [.ofPattern ⟨[.one, .free], by decide⟩]
  steps :=
    [.essential 3 ⟨[.one, .free], by decide⟩, .row ⟨[.zero, .free], by decide⟩ ⟨[.one], by decide⟩,
      .column 1 0]

/-- First minterm 2 is dropped, since whatever covers minterm 3 covers it; the reduction then fires each rule once,
and the candidate for minterm 3 becomes a prime. -/
theorem mixedPool_reaches : Reaches (start [1, 0, 2, 3, 1] mixedPool) mixedRest := by
  have hfire : (start [1, 0, 2, 3, 1] mixedPool).fire? .column =
      some (.column 3 2, ⟨[0, 1, 1, 3], mixedPool, [], []⟩) := by cbv
  have hreduce : (⟨[0, 1, 1, 3], mixedPool, [], []⟩ : Coverage).reduce = mixedRest := by cbv
  rw [← hreduce]
  exact Reaches.reduce (Reaches.fire Reaches.refl hfire)

/-- A single step and a reduction lead to the mixed rest, in which a minterm is active twice. -/
theorem covers_active_iff_covers_start_mixed :
    Reaches (start [1, 0, 2, 3, 1] mixedPool) mixedRest ∧
      mixedRest.minterms.Sublist [1, 0, 2, 3, 1].mergeSort ∧ mixedRest.minterms.Pairwise (· ≤ ·) ∧
      mixedRest.candidates.Sublist mixedPool ∧ (mixedRest.primes ++ mixedRest.candidates).Subperm mixedPool ∧
      (∀ m ∈ mixedRest.minterms, ∀ t ∈ mixedRest.primes, m ∉ t) ∧
      (∀ selection : List Term, (∀ t ∈ selection, t ∈ mixedRest.candidates) →
        (Covers selection mixedRest.minterms ↔ Covers (selection ++ mixedRest.primes) [1, 0, 2, 3, 1])) ∧
      (mixedRest.isCovered = true → Covers mixedRest.primes [1, 0, 2, 3, 1]) :=
  ⟨mixedPool_reaches, covers_active_iff_covers_start mixedPool_reaches⟩

end PrimeCover.Coverage
