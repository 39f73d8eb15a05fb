import Mathlib
import PrimeCover.Proofs.Coverage.Selection

/-!
# The two phases of a reduction

Take a pool in which no term dominates another one. A reduction of it first chooses all essential terms, and
drops minterms only after that. While terms are chosen, an active minterm keeps all entries of the pool that
cover it, for a chosen one that covers it would have taken it along. So whether a single candidate covers an active
minterm can be read off the pool at the start (`Chooses.isSole_iff`), and the candidate that is found belongs to
the first such minterm (`Promotes.essential`). Once no active minterm has a single candidate, dropping minterms
changes no column, and so none will have one later (`Drops.column`). Rows never fire, since the candidates
are terms of the pool.
-/

set_option autoImplicit false

namespace PrimeCover.Coverage

/-- The term is the one entry of the pool that covers the minterm. -/
def IsSole (pool : List Term) (t : Term) (m : Nat) : Prop :=
  pool.filter (m ∈ ·) = [t]

/-- The minterms that none of the terms covers. -/
def uncovered (terms : List Term) (minterms : List Nat) : List Nat :=
  minterms.filter fun m => ∀ t ∈ terms, m ∉ t

variable {minterms : List Nat} {pool : List Term} {chosen : List (Nat × Term)} {dropped : List (Nat × Nat)}
  {c next : Coverage} {step : Step} {m : Nat} {t u : Term}

/-- The sole term is among those that cover the minterm. -/
theorem IsSole.mem_filter (h : IsSole pool t m) : t ∈ pool.filter (m ∈ ·) := by
  rw [h]
  exact List.mem_singleton_self t

/-- The sole term is in the pool. -/
theorem IsSole.mem_pool (h : IsSole pool t m) : t ∈ pool :=
  List.mem_of_mem_filter h.mem_filter

/-- The sole term covers the minterm. -/
theorem IsSole.covers (h : IsSole pool t m) : m ∈ t :=
  of_decide_eq_true (List.mem_filter.mp h.mem_filter).2

/-- Any entry that covers the minterm is the sole term. -/
theorem IsSole.eq (h : IsSole pool t m) (hu : u ∈ pool) (hm : m ∈ u) : u = t := by
  have hmem : u ∈ pool.filter (m ∈ ·) := List.mem_filter.mpr ⟨hu, decide_eq_true hm⟩
  rw [h] at hmem
  exact List.mem_singleton.mp hmem

/-- A minterm is uncovered when it is listed and none of the terms covers it. -/
theorem mem_uncovered {terms : List Term} : m ∈ uncovered terms minterms ↔ m ∈ minterms ∧ ∀ t ∈ terms, m ∉ t := by
  unfold uncovered
  rw [List.mem_filter, decide_eq_true_iff]

/-- One more term takes its minterms from the uncovered ones. -/
theorem uncovered_append_singleton (terms : List Term) (t : Term) (minterms : List Nat) :
    uncovered (terms ++ [t]) minterms = (uncovered terms minterms).filter (· ∉ t) := by
  unfold uncovered
  rw [List.filter_filter]
  apply List.filter_congr
  intro m _
  simp [forall_and, or_imp, and_comm]

/-! ## What is chosen -/

/-- The minterm is the first one for which the term is the one entry of the pool. -/
structure IsFirstSole (minterms : List Nat) (pool : List Term) (t : Term) (m : Nat) : Prop where
  mem : m ∈ minterms
  isSole : IsSole pool t m
  le : ∀ k ∈ minterms, IsSole pool t k → m ≤ k

/-- The chosen terms, each with the first minterm that asks for it, these minterms ascending. What is left are the
other terms and minterms that no chosen term covers. -/
structure Chooses (minterms : List Nat) (pool : List Term) (chosen : List (Nat × Term)) (c : Coverage) : Prop where
  primes_eq : c.primes = chosen.map Prod.snd
  candidates_eq : c.candidates = pool.filter (· ∉ c.primes)
  minterms_sublist : c.minterms.Sublist (uncovered c.primes minterms)
  isFirstSole : ∀ e ∈ chosen, IsFirstSole minterms pool e.2 e.1
  ascending : chosen.Pairwise fun e f => e.1 < f.1

/-- What was chosen comes from the pool. -/
theorem Chooses.mem_pool (h : Chooses minterms pool chosen c) (ht : t ∈ c.primes) : t ∈ pool := by
  rw [h.primes_eq] at ht
  obtain ⟨e, he, rfl⟩ := List.mem_map.mp ht
  exact (h.isFirstSole e he).isSole.mem_pool

/-- No term was chosen twice, since each belongs to the first minterm that asks for it. -/
theorem Chooses.nodup_primes (h : Chooses minterms pool chosen c) : c.primes.Nodup := by
  rw [h.primes_eq]
  refine List.pairwise_map.mpr (h.ascending.imp_of_mem ?_)
  intro e f he hf hlt heq
  have hfirst := (h.isFirstSole f hf).le e.1 (h.isFirstSole e he).mem (heq ▸ (h.isFirstSole e he).isSole)
  exact absurd hlt (Nat.not_lt.mpr hfirst)

/-- An active minterm still has all entries of the pool that cover it. -/
theorem Chooses.isSole_iff (h : Chooses minterms pool chosen c) (hm : m ∈ c.minterms) :
    IsSole c.candidates t m ↔ IsSole pool t m := by
  have hcolumn : c.candidates.filter (m ∈ ·) = pool.filter (m ∈ ·) := by
    rw [h.candidates_eq, List.filter_filter]
    apply List.filter_congr
    intro u _
    have hfresh : m ∈ u → u ∉ c.primes := by
      intro hmu hu
      exact (mem_uncovered.mp (h.minterms_sublist.subset hm)).2 u hu hmu
    simpa using hfresh
  unfold IsSole
  rw [hcolumn]

/-- No row step can follow, since no term of the pool dominates another one. -/
theorem Chooses.not_row (hpool : Incomparable pool) (h : Chooses minterms pool chosen c) :
    ¬ Fires c .row step next := by
  intro hfires
  cases hfires with
  | row kept_mem discarded_mem dominates =>
    rw [h.candidates_eq] at kept_mem discarded_mem
    exact hpool _ (List.mem_of_mem_filter kept_mem) _ (List.mem_of_mem_filter discarded_mem) dominates

/-! ## The first phase -/

/-- Only essential steps were made so far. All minterms that no chosen term covers are active, and those of them
with a single candidate come after the minterms of the steps. -/
structure Promotes (minterms : List Nat) (pool : List Term) (chosen : List (Nat × Term)) (c : Coverage) : Prop
    extends Chooses minterms pool chosen c where
  steps_eq : c.steps = chosen.map fun e => .essential e.1 e.2.pattern
  minterms_eq : c.minterms = uncovered c.primes minterms
  lt_of_isSole : ∀ e ∈ chosen, ∀ m ∈ c.minterms, ∀ t, IsSole pool t m → e.1 < m

/-- The first phase starts with nothing chosen. -/
theorem promotes_start (minterms : List Nat) (pool : List Term) :
    Promotes minterms.mergeSort pool [] (start minterms pool) := by
  have hall : minterms.mergeSort = uncovered [] minterms.mergeSort := by
    unfold uncovered
    simp
  refine ⟨⟨rfl, ?_, ?_, ?_, List.Pairwise.nil⟩, rfl, hall, ?_⟩
  · show pool = pool.filter (· ∉ [])
    simp
  · exact hall ▸ List.Sublist.refl _
  · intro e he
    exact absurd he List.not_mem_nil
  · intro e he
    exact absurd he List.not_mem_nil

/-- The next choice is the first of the minterms that still ask for one. -/
theorem Promotes.essential (hsorted : minterms.Pairwise (· ≤ ·)) (h : Promotes minterms pool chosen c)
    {prime : Term} {place : Nat} (hfound : c.essential? = some (m, prime, place)) :
    Promotes minterms pool (chosen ++ [(m, prime)]) { c with
      minterms := c.minterms.filter (· ∉ prime)
      candidates := c.candidates.filter (m ∉ ·)
      primes := c.primes ++ [prime]
      steps := c.steps ++ [.essential m prime.pattern] } := by
  obtain ⟨hm, hplace⟩ := mem_of_essential? hfound
  have hsole : IsSole pool prime m := (h.isSole_iff hm).mp (exists_single_place_iff.mp ⟨place, hplace⟩)
  have hnotprime : prime ∉ c.primes := by
    intro hprime
    rw [h.minterms_eq] at hm
    exact (mem_uncovered.mp hm).2 prime hprime hsole.covers
  have hle : ∀ k ∈ c.minterms, ∀ t, IsSole pool t k → m ≤ k := by
    intro k hk t hkt
    refine le_of_essential? ?_ hfound hk ((h.isSole_iff hk).mpr hkt)
    rw [h.minterms_eq]
    exact hsorted.sublist List.filter_sublist
  have hactive : c.minterms.filter (· ∉ prime) = uncovered (c.primes ++ [prime]) minterms := by
    rw [h.minterms_eq, uncovered_append_singleton]
  have hfirst : IsFirstSole minterms pool prime m := by
    refine ⟨?_, hsole, ?_⟩
    · rw [h.minterms_eq] at hm
      exact (mem_uncovered.mp hm).1
    · -- a minterm that only this term covers is active, for the terms chosen before are others
      intro k hk hkprime
      refine hle k ?_ prime hkprime
      rw [h.minterms_eq, mem_uncovered]
      refine ⟨hk, ?_⟩
      intro t ht hkt
      have heq : t = prime := hkprime.eq (h.mem_pool ht) hkt
      exact hnotprime (heq ▸ ht)
  refine ⟨⟨?_, ?_, hactive ▸ List.Sublist.refl _, ?_, ?_⟩, ?_, hactive, ?_⟩
  · simp [h.primes_eq]
  · show c.candidates.filter (m ∉ ·) = pool.filter (· ∉ c.primes ++ [prime])
    rw [h.candidates_eq, List.filter_filter]
    apply List.filter_congr
    intro t ht
    have hiff : m ∈ t ↔ t = prime := ⟨hsole.eq ht, fun heq => heq ▸ hsole.covers⟩
    simp [hiff, and_comm]
  · intro e he
    rcases List.mem_append.mp he with he | he
    · exact h.isFirstSole e he
    · rw [List.mem_singleton.mp he]
      exact hfirst
  · rw [List.pairwise_append]
    refine ⟨h.ascending, List.pairwise_singleton _ _, ?_⟩
    intro e he f hf
    rw [List.mem_singleton.mp hf]
    exact h.lt_of_isSole e he m hm prime hsole
  · simp [h.steps_eq]
  · intro e he k hk t hkt
    obtain ⟨hk, hkprime⟩ := List.mem_filter.mp hk
    rcases List.mem_append.mp he with he | he
    · exact h.lt_of_isSole e he k hk t hkt
    · rw [List.mem_singleton.mp he]
      refine lt_of_le_of_ne (hle k hk t hkt) ?_
      rintro rfl
      exact of_decide_eq_true hkprime hsole.covers

/-! ## The second phase -/

/-- Essential steps were made as long as there were any, and then minterms were dropped. -/
structure Drops (minterms : List Nat) (pool : List Term) (chosen : List (Nat × Term)) (dropped : List (Nat × Nat))
    (c : Coverage) : Prop extends Chooses minterms pool chosen c where
  steps_eq : c.steps =
    chosen.map (fun e => .essential e.1 e.2.pattern) ++ dropped.map fun e => .column e.1 e.2
  exhausted : ∀ m ∈ uncovered c.primes minterms, ∀ t, ¬ IsSole pool t m

/-- The first phase ends when no active minterm has a single candidate. -/
theorem Promotes.drops (h : Promotes minterms pool chosen c)
    (hnone : ∀ m ∈ c.minterms, ∀ t, ¬ IsSole c.candidates t m) : Drops minterms pool chosen [] c := by
  refine ⟨h.toChooses, ?_, ?_⟩
  · rw [h.steps_eq, List.map_nil, List.append_nil]
  · intro m hm t hsole
    rw [← h.minterms_eq] at hm
    exact hnone m hm t ((h.isSole_iff hm).mpr hsole)

/-- In the second phase no essential step is found any more. -/
theorem Drops.essential?_eq_none (h : Drops minterms pool chosen dropped c) : c.essential? = none := by
  rw [essential?_eq_none_iff]
  intro m hm t hsingle
  exact h.exhausted m (h.minterms_sublist.subset hm) t ((h.isSole_iff hm).mp hsingle)

/-- A column step stays in the second phase. -/
theorem Drops.column (h : Drops minterms pool chosen dropped c) (hfires : Fires c .column step next) :
    ∃ e, Drops minterms pool chosen (dropped ++ [e]) { next with steps := next.steps ++ [step] } := by
  cases hfires with
  | @column kept discarded kept_mem discarded_mem strict =>
    have hsublist : (c.minterms.erase discarded).Sublist (uncovered c.primes minterms) :=
      List.erase_sublist.trans h.minterms_sublist
    refine ⟨(kept, discarded), ⟨h.primes_eq, h.candidates_eq, hsublist, h.isFirstSole, h.ascending⟩, ?_, h.exhausted⟩
    simp [h.steps_eq]

/-- In the end every term that alone covers some minterm was chosen. -/
theorem Drops.mem_primes (h : Drops minterms pool chosen dropped c) (hm : m ∈ minterms) (hsole : IsSole pool t m) :
    t ∈ c.primes := by
  by_contra hnot
  refine h.exhausted m (mem_uncovered.mpr ⟨hm, ?_⟩) t hsole
  intro u hu hmu
  have heq : u = t := hsole.eq (h.mem_pool hu) hmu
  exact hnot (heq ▸ hu)

/-! ## The whole reduction -/

/-- A reduction is in its first phase or in its second one. -/
def InPhase (minterms : List Nat) (pool : List Term) (c : Coverage) : Prop :=
  (∃ chosen, Promotes minterms pool chosen c) ∨ ∃ chosen dropped, Drops minterms pool chosen dropped c

/-- Every recorded step stays in its phase or leads from the first one to the second. -/
theorem InPhase.of_step? (hpool : Incomparable pool) (hsorted : minterms.Pairwise (· ≤ ·))
    (h : InPhase minterms pool c) (hfired : c.step? = some (step, next)) :
    InPhase minterms pool { next with steps := next.steps ++ [step] } := by
  rcases step?_cases hfired with ⟨m, prime, place, hfound, rfl, rfl⟩ | ⟨hnone, hrow | hcolumn⟩
  · rcases h with ⟨chosen, h⟩ | ⟨chosen, dropped, h⟩
    · exact Or.inl ⟨_, h.essential hsorted hfound⟩
    · rw [h.essential?_eq_none] at hfound
      exact nomatch hfound
  · rcases h with ⟨chosen, h⟩ | ⟨chosen, dropped, h⟩
    · exact absurd hrow (h.not_row hpool)
    · exact absurd hrow (h.not_row hpool)
  · -- the first minterm that is dropped ends the first phase
    have hdrops : ∃ chosen dropped, Drops minterms pool chosen dropped c := by
      rcases h with ⟨chosen, h⟩ | h
      · exact ⟨chosen, [], h.drops (essential?_eq_none_iff.mp hnone)⟩
      · exact h
    obtain ⟨chosen, dropped, h⟩ := hdrops
    obtain ⟨e, he⟩ := h.column hcolumn
    exact Or.inr ⟨chosen, dropped ++ [e], he⟩

/-- A reduction of a pool in which no term dominates another one chooses terms, as long as there is one that alone
covers an active minterm, and then drops minterms. -/
theorem exists_drops_reduce (minterms : List Nat) (hpool : Incomparable pool) :
    ∃ chosen dropped, Drops minterms.mergeSort pool chosen dropped (start minterms pool).reduce := by
  have hsorted : minterms.mergeSort.Pairwise (· ≤ ·) := List.pairwise_mergeSort' (· ≤ ·) minterms
  have hphase : InPhase minterms.mergeSort pool (start minterms pool).reduce := by
    refine reduce_induction ?_ (Or.inl ⟨[], promotes_start minterms pool⟩)
    intro c step next hc hfired
    exact InPhase.of_step? hpool hsorted hc hfired
  rcases hphase with ⟨chosen, h⟩ | h
  · refine ⟨chosen, [], h.drops ?_⟩
    rcases isCovered_or_step?_eq_none (start minterms pool) with hcovered | hnone
    · intro m hm
      rw [List.isEmpty_iff.mp hcovered] at hm
      exact absurd hm List.not_mem_nil
    · exact essential?_eq_none_iff.mp (essential?_eq_none_of_step? hnone)
  · exact h

end PrimeCover.Coverage
