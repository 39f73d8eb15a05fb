import Mathlib
import PrimeCover.Proofs.Coverage.Conservation
import PrimeCover.Proofs.Coverage.FixedPoint
import PrimeCover.Proofs.Coverage.Phases

/-!
# The minterms that a reduction leaves

Minterms are dropped one at a time, whichever pair of columns comes first, and the column for which a minterm was
dropped may be dropped itself. What is left does not depend on this: in a pool in which no term dominates another
one it is the minterms whose columns are minimal for inclusion among those that no prime covers, all of them, also
where columns are equal (`mem_minterms_reduce_iff`). While rules fire, `Bounded` holds: a minterm that is no longer
active, and that no prime covers, has an active one strictly below it. When no rule fires any more, no active
minterm lies strictly below another one (`Stalled`).
-/

set_option autoImplicit false

namespace PrimeCover.Coverage

variable {minterms : List Nat} {pool : List Term} {c next : Coverage} {rule : Rule} {step : Step} {m k : Nat}

/-! ## While rules fire -/

/-- Every minterm that no prime covers is active, or it lies strictly above an active one. -/
def Bounded (minterms : List Nat) (c : Coverage) : Prop :=
  ∀ m ∈ uncovered c.primes minterms, m ∈ c.minterms ∨ ∃ k ∈ c.minterms, c.column k ⊂ c.column m

/-- At the start every minterm is active. -/
theorem bounded_start (minterms : List Nat) (pool : List Term) : Bounded minterms (start minterms pool) := by
  intro m hm
  exact Or.inl (List.mem_mergeSort.mpr (mem_uncovered.mp hm).1)

/-- A prime that covers the lower minterm would cover the upper one, so neither leaves without the other; and the
candidate that tells the two apart stays in the pool, unless a row fires. -/
theorem Bounded.fires (hpool : Incomparable c.candidates) (h : Bounded minterms c)
    (hfires : Fires c rule step next) : Bounded minterms next := by
  cases hfires with
  | @essential e prime active single =>
    have hperm := candidates_perm_of_single single
    intro m hm
    rw [uncovered_append_singleton, List.mem_filter, decide_eq_true_iff] at hm
    obtain ⟨hm, hprime⟩ := hm
    rcases h m hm with hactive | ⟨k, hk, hkm⟩
    · exact Or.inl (List.mem_filter.mpr ⟨hactive, decide_eq_true hprime⟩)
    · right
      obtain ⟨hsubset, t, ht, hmt, hkt⟩ := column_ssubset_iff.mp hkm
      have hkprime : k ∉ prime := fun hk => hprime (hsubset prime (hperm.mem_iff.mpr List.mem_cons_self) hk)
      have hne : t ≠ prime := by
        rintro rfl
        exact hprime hmt
      refine ⟨k, List.mem_filter.mpr ⟨hk, decide_eq_true hkprime⟩, column_ssubset_iff.mpr ⟨?_, t, ?_, hmt, hkt⟩⟩
      · exact fun u hu => hsubset u (List.mem_of_mem_filter hu)
      · exact (List.mem_cons.mp (hperm.mem_iff.mp ht)).resolve_left hne
  | row kept_mem discarded_mem dominates => exact absurd dominates (hpool _ kept_mem _ discarded_mem)
  | @column kept discarded kept_mem discarded_mem strict =>
    have hne : kept ≠ discarded := by
      rintro rfl
      exact NatSet.not_ssubset_self _ strict
    have hkept : kept ∈ c.minterms.erase discarded := (List.mem_erase_of_ne hne).mpr kept_mem
    intro m hm
    rcases h m hm with hactive | ⟨k, hk, hkm⟩
    · by_cases heq : m = discarded
      · exact Or.inr ⟨kept, hkept, heq ▸ strict⟩
      · exact Or.inl ((List.mem_erase_of_ne heq).mpr hactive)
    · by_cases heq : k = discarded
      · exact Or.inr ⟨kept, hkept, NatSet.ssubset_trans strict (heq ▸ hkm)⟩
      · exact Or.inr ⟨k, (List.mem_erase_of_ne heq).mpr hk, hkm⟩

/-- A reduction of incomparable candidates keeps every uncovered minterm above an active one. -/
theorem bounded_reduce (minterms : List Nat) (hpool : Incomparable pool) :
    Bounded minterms (start minterms pool).reduce := by
  have hinv : Incomparable (start minterms pool).reduce.candidates ∧ Bounded minterms (start minterms pool).reduce := by
    refine @reduce_invariant _ (fun c => Incomparable c.candidates ∧ Bounded minterms c) ?_
      ⟨hpool, bounded_start minterms pool⟩
    rintro c rule step next ⟨hcandidates, hbounded⟩ hfires
    have hsubset := hfires.candidates_sublist.subset
    have hnext : Bounded minterms next := hbounded.fires hcandidates hfires
    exact ⟨fun a ha b hb => hcandidates a (hsubset ha) b (hsubset hb), hnext⟩
  exact hinv.2

/-! ## At the end -/

section

variable (hpool : Incomparable pool) (hc : c = (start minterms pool).reduce)

include hc

/-- A minterm that is left is covered by no chosen prime. -/
theorem mem_uncovered_of_mem_minterms (hm : m ∈ c.minterms) : m ∈ uncovered c.primes minterms := by
  have hconserves : Conserves minterms pool c := by
    rw [hc]
    exact (Reaches.reduce Reaches.refl).conserves
  exact mem_uncovered.mpr ⟨List.mem_mergeSort.mp (hconserves.minterms_sublist.subset hm), hconserves.fresh m hm⟩

/-- Among the minterms that are left, no column strictly contains another one. -/
theorem not_ssubset_of_mem_minterms (hk : k ∈ c.minterms) (hm : m ∈ c.minterms) : ¬ c.column k ⊂ c.column m := by
  rcases isCovered_or_step?_eq_none (start minterms pool) with hcovered | hnone
  · rw [← hc] at hcovered
    rw [List.isEmpty_iff.mp hcovered] at hk
    exact absurd hk List.not_mem_nil
  · rw [← hc] at hnone
    exact (step?_eq_none_iff.mp hnone).not_column_ssubset k hk m hm

include hpool

/-- Neither the order in which minterms are dropped nor the minterms for which they are dropped matter: what is left
are the minterms that no prime covers with no other such minterm strictly below. -/
theorem mem_minterms_reduce_iff :
    m ∈ c.minterms ↔ m ∈ uncovered c.primes minterms ∧
      ∀ k ∈ uncovered c.primes minterms, ¬ c.column k ⊂ c.column m := by
  have hbounded : Bounded minterms c := hc ▸ bounded_reduce minterms hpool
  constructor
  · intro hm
    refine ⟨mem_uncovered_of_mem_minterms hc hm, ?_⟩
    intro k hk hkm
    rcases hbounded k hk with hactive | ⟨l, hl, hlk⟩
    · exact not_ssubset_of_mem_minterms hc hactive hm hkm
    · exact not_ssubset_of_mem_minterms hc hl hm (NatSet.ssubset_trans hlk hkm)
  · rintro ⟨hm, hlowest⟩
    rcases hbounded m hm with hactive | ⟨k, hk, hkm⟩
    · exact hactive
    · exact absurd hkm (hlowest k (mem_uncovered_of_mem_minterms hc hk))

/-- Nothing is left exactly when the primes cover everything. -/
theorem minterms_reduce_eq_nil_iff : c.minterms = [] ↔ uncovered c.primes minterms = [] := by
  have hbounded : Bounded minterms c := hc ▸ bounded_reduce minterms hpool
  rw [List.eq_nil_iff_forall_not_mem, List.eq_nil_iff_forall_not_mem]
  constructor
  · intro hnone m hm
    rcases hbounded m hm with hactive | ⟨k, hk, -⟩
    · exact hnone m hactive
    · exact hnone k hk
  · intro hnone m hm
    exact hnone m (mem_uncovered_of_mem_minterms hc hm)

end

end PrimeCover.Coverage
