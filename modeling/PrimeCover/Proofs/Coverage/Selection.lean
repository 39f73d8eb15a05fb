import Mathlib
import PrimeCover.Proofs.Coverage.Step

/-!
# Selections of candidates

Which selections cover the active minterms, before and after a step. An essential candidate belongs to every
covering selection of the pool (`covers_iff_of_single`), and a minterm whose column contains another one is
covered by itself (`covers_erase_iff`). So as long as no candidate dominates another one, a reduction loses and
adds no cover: `KeepsCovers` states this against the problem at the start, and every step keeps it.
-/

set_option autoImplicit false

namespace PrimeCover.Coverage

variable {c next : Coverage} {rule : Rule} {step : Step} {selection : List Term} {m : Nat}

/-- A column holds the places of the candidates that cover the minterm. -/
theorem mem_column {label : Nat} : label ∈ c.column m ↔ ∃ t, c.candidates[label]? = some t ∧ m ∈ t := by
  unfold column
  rw [NatSet.mem_positions]
  simp only [decide_eq_true_eq]

/-- A column is empty when no candidate covers the minterm. -/
theorem column_eq_empty_iff : c.column m = ∅ ↔ ∀ t ∈ c.candidates, m ∉ t := by
  rw [NatSet.eq_empty_iff]
  simp only [mem_column, not_exists, not_and]
  constructor
  · intro h t ht
    obtain ⟨label, hlabel⟩ := List.mem_iff_getElem?.mp ht
    exact h label t hlabel
  · intro h label t hlabel
    exact h t (List.mem_of_getElem? hlabel)

/-- A column contains another one when every candidate that covers the minterm of the latter covers that of
the former. -/
theorem column_subset_iff {kept discarded : Nat} :
    c.column kept ⊆ c.column discarded ↔ ∀ t ∈ c.candidates, kept ∈ t → discarded ∈ t := by
  rw [NatSet.subset_iff]
  constructor
  · intro h t ht hkept
    obtain ⟨label, hlabel⟩ := List.mem_iff_getElem?.mp ht
    obtain ⟨u, hu, hdiscarded⟩ := mem_column.mp (h label (mem_column.mpr ⟨t, hlabel, hkept⟩))
    rw [hlabel, Option.some.injEq] at hu
    rw [hu]
    exact hdiscarded
  · intro h label hlabel
    obtain ⟨t, ht, hkept⟩ := mem_column.mp hlabel
    exact mem_column.mpr ⟨t, ht, h t (List.mem_of_getElem? ht) hkept⟩

/-- A column strictly contains another one when its minterm is covered with the other one, and by some candidate
alone. -/
theorem column_ssubset_iff {kept discarded : Nat} :
    c.column kept ⊂ c.column discarded ↔
      (∀ t ∈ c.candidates, kept ∈ t → discarded ∈ t) ∧ ∃ t ∈ c.candidates, discarded ∈ t ∧ kept ∉ t := by
  rw [NatSet.ssubset_iff, column_subset_iff, column_subset_iff]
  simp only [not_forall, exists_prop]

/-- The only candidate that covers an active minterm belongs to every covering selection of the pool, and
the minterms that it covers need no other one. -/
theorem covers_iff_of_single {prime : Term} (active : m ∈ c.minterms)
    (single : c.candidates.filter (m ∈ ·) = [prime]) (hsel : ∀ t ∈ selection, t ∈ c.candidates) :
    Covers selection c.minterms ↔
      prime ∈ selection ∧ Covers selection (c.minterms.filter (· ∉ prime)) := by
  constructor
  · intro h
    constructor
    · obtain ⟨t, ht, hmt⟩ := h m active
      have hmem : t ∈ c.candidates.filter (m ∈ ·) := List.mem_filter.mpr ⟨hsel t ht, decide_eq_true hmt⟩
      rw [single, List.mem_singleton] at hmem
      exact hmem ▸ ht
    · intro k hk
      exact h k (List.mem_of_mem_filter hk)
  · rintro ⟨hprime, h⟩ k hk
    by_cases hkp : k ∈ prime
    · exact ⟨prime, hprime, hkp⟩
    · exact h k (List.mem_filter.mpr ⟨hk, decide_eq_true hkp⟩)

/-- Whatever selection of the pool covers the kept minterm covers the dropped one. -/
theorem covers_erase_iff {kept discarded : Nat} (kept_mem : kept ∈ c.minterms)
    (strict : c.column kept ⊂ c.column discarded) (hsel : ∀ t ∈ selection, t ∈ c.candidates) :
    Covers selection c.minterms ↔ Covers selection (c.minterms.erase discarded) := by
  obtain ⟨hsubset, hnot⟩ := NatSet.ssubset_iff.mp strict
  constructor
  · intro h k hk
    exact h k (List.mem_of_mem_erase hk)
  · intro h k hk
    by_cases hkd : k = discarded
    · have hne : kept ≠ discarded := by
        rintro rfl
        exact hnot hsubset
      obtain ⟨t, ht, hkept⟩ := h kept ((List.mem_erase_of_ne hne).mpr kept_mem)
      rw [hkd]
      exact ⟨t, ht, column_subset_iff.mp hsubset t (hsel t ht) hkept⟩
    · exact h k ((List.mem_erase_of_ne hkd).mpr hk)

/-! ## Chosen primes and active minterms -/

/-- No chosen prime covers an active minterm. -/
def Fresh (c : Coverage) : Prop :=
  ∀ m ∈ c.minterms, ∀ t ∈ c.primes, m ∉ t

/-- A step keeps the chosen primes away from the active minterms. -/
theorem Fresh.fires (h : Fresh c) (hfires : Fires c rule step next) : Fresh next := by
  cases hfires with
  | essential active single =>
    intro k hk t ht
    obtain ⟨hactive, hkp⟩ := List.mem_filter.mp hk
    rcases List.mem_append.mp ht with ht | ht
    · exact h k hactive t ht
    · rw [List.mem_singleton.mp ht]
      exact of_decide_eq_true hkp
  | row kept_mem discarded_mem dominates => exact h
  | column kept_mem discarded_mem strict =>
    intro k hk t ht
    exact h k (List.mem_of_mem_erase hk) t ht

/-- Where the primes cover no active minterm, only the candidates of a selection count. -/
theorem Fresh.covers_filter_iff (h : Fresh c) {minterms : List Nat} (hactive : ∀ k ∈ minterms, k ∈ c.minterms)
    (hsel : ∀ t ∈ selection, t ∈ c.primes ∨ t ∈ c.candidates) :
    Covers (selection.filter (· ∈ c.candidates)) minterms ↔ Covers selection minterms := by
  constructor
  · intro hcov k hk
    obtain ⟨t, ht, hkt⟩ := hcov k hk
    exact ⟨t, List.mem_of_mem_filter ht, hkt⟩
  · intro hcov k hk
    obtain ⟨t, ht, hkt⟩ := hcov k hk
    have hcand : t ∈ c.candidates := (hsel t ht).resolve_left fun hp => h k (hactive k hk) t hp hkt
    exact ⟨t, List.mem_filter.mpr ⟨ht, decide_eq_true hcand⟩, hkt⟩

/-! ## Pools in which no candidate dominates another one -/

/-- No term of the pool dominates another one. -/
def Incomparable (pool : List Term) : Prop :=
  ∀ a ∈ pool, ∀ b ∈ pool, ¬ a.Dominates b

/-- The problem has the covers that it had at the start: the pool is divided into the primes and the
candidates, and a selection of the pool covers the minterms of the start when it has all primes and covers
what is active. -/
structure KeepsCovers (minterms : List Nat) (pool : List Term) (c : Coverage) : Prop where
  perm : pool.Perm (c.primes ++ c.candidates)
  fresh : Fresh c
  covers_iff : ∀ selection : List Term, (∀ t ∈ selection, t ∈ pool) →
    (Covers selection minterms ↔ (∀ t ∈ c.primes, t ∈ selection) ∧ Covers selection c.minterms)

variable {minterms : List Nat} {pool : List Term}

/-- The start has the covers of its minterms, however they are ordered and repeated. -/
theorem keepsCovers_start {active : List Nat} (h : ∀ m, m ∈ active ↔ m ∈ minterms) :
    KeepsCovers minterms pool (start active pool) where
  perm := List.Perm.refl pool
  fresh := fun _ _ _ ht => absurd ht List.not_mem_nil
  covers_iff := by
    intro selection _
    have hactive : Covers selection minterms ↔ Covers selection active.mergeSort := by
      unfold Covers
      simp only [List.mem_mergeSort, h]
    rw [hactive]
    exact (and_iff_right fun t ht => absurd ht List.not_mem_nil).symm

/-- Every step keeps the covers of a pool in which no term dominates another one. -/
theorem KeepsCovers.fires (hpool : Incomparable pool) (h : KeepsCovers minterms pool c)
    (hfires : Fires c rule step next) : KeepsCovers minterms pool next := by
  have hmem : ∀ t, t ∈ pool ↔ t ∈ c.primes ∨ t ∈ c.candidates := by
    intro t
    rw [h.perm.mem_iff, List.mem_append]
  have hfresh : Fresh next := h.fresh.fires hfires
  -- both problems look at the candidates of a selection only, so they can be compared there
  have hrestrict : ∀ (selection : List Term) (active : List Nat), (∀ t ∈ selection, t ∈ pool) →
      (∀ k ∈ active, k ∈ c.minterms) →
      (Covers (selection.filter (· ∈ c.candidates)) active ↔ Covers selection active) := by
    intro selection active hsel hactive
    exact h.fresh.covers_filter_iff hactive fun t ht => (hmem t).mp (hsel t ht)
  have hpicked : ∀ selection : List Term, ∀ t ∈ selection.filter (· ∈ c.candidates), t ∈ c.candidates :=
    fun selection t ht => of_decide_eq_true (List.mem_filter.mp ht).2
  cases hfires with
  | @essential m prime active single =>
    have hperm := candidates_perm_of_single single
    refine ⟨?_, hfresh, ?_⟩
    · have hmoved : (c.primes ++ c.candidates).Perm (c.primes ++ ([prime] ++ c.candidates.filter (m ∉ ·))) :=
        hperm.append_left c.primes
      rw [← List.append_assoc] at hmoved
      exact h.perm.trans hmoved
    · intro selection hsel
      have hprime : prime ∈ c.candidates := hperm.mem_iff.mpr List.mem_cons_self
      have hchosen : prime ∈ selection.filter (· ∈ c.candidates) ↔ prime ∈ selection := by
        rw [List.mem_filter]
        exact and_iff_left (decide_eq_true hprime)
      rw [h.covers_iff selection hsel, ← hrestrict selection c.minterms hsel (fun _ hk => hk),
        covers_iff_of_single active single (hpicked selection),
        hrestrict selection _ hsel (fun _ hk => List.mem_of_mem_filter hk), hchosen, ← and_assoc]
      apply and_congr_left
      intro _
      simp only [List.mem_append, List.mem_singleton, or_imp, forall_and, forall_eq]
  | @row kept discarded kept_mem discarded_mem dominates =>
    exact absurd dominates (hpool kept ((hmem kept).mpr (Or.inr kept_mem)) discarded
      ((hmem discarded).mpr (Or.inr discarded_mem)))
  | @column kept discarded kept_mem discarded_mem strict =>
    refine ⟨h.perm, hfresh, ?_⟩
    intro selection hsel
    rw [h.covers_iff selection hsel, ← hrestrict selection c.minterms hsel (fun _ hk => hk),
      covers_erase_iff kept_mem strict (hpicked selection),
      hrestrict selection _ hsel (fun _ hk => List.mem_of_mem_erase hk)]

/-- A reduction keeps the covers of a pool in which no term dominates another one. -/
theorem KeepsCovers.reduce (hpool : Incomparable pool) (h : KeepsCovers minterms pool c) :
    KeepsCovers minterms pool c.reduce := by
  refine reduce_invariant ?_ h
  intro c rule step next hc hfires
  have hnext := hc.fires hpool hfires
  exact ⟨hnext.perm, hnext.fresh, hnext.covers_iff⟩

end PrimeCover.Coverage
