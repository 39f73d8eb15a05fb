import Mathlib
import PrimeCover.Proofs.Coverage.Conservation

/-!
# Every rule keeps the optimum

The least number of candidates that cover the active minterms, together with the number of chosen primes, stays
the same under every rule. A cover of what is left makes up a cover of the start with the primes
(`Reaches.conserves`), so only the other direction is left to show: from a cover before a step there is one
after it that is no larger, the primes counted in. Each rule has an argument of its own for this. An essential
candidate belongs to the cover, and the rest of the cover is left (`exists_covers_of_single`); a dominated
candidate is replaced by the one that dominates it (`exists_covers_erase_of_dominates`); for a dropped minterm
nothing has to be covered. The arguments look at one state of the problem only, and so they follow each other in
every order.

A selection may use an entry of the pool as often as the pool holds it, which `List.Subperm` expresses.
-/

set_option autoImplicit false

namespace PrimeCover.Coverage

variable {c next : Coverage} {rule : Rule} {step : Step} {selection : List Term} {minterms : List Nat}
  {pool : List Term} {m n : Nat}

/-- The numbers of entries of a pool with which a list of minterms can be covered. -/
def coverSizes (pool : List Term) (minterms : List Nat) : Set Nat :=
  {n | ∃ selection : List Term, selection.Subperm pool ∧ Covers selection minterms ∧ selection.length = n}

/-- There is a size of a cover exactly when some selection covers the minterms. -/
theorem coverSizes_nonempty_iff :
    (coverSizes pool minterms).Nonempty ↔
      ∃ selection : List Term, selection.Subperm pool ∧ Covers selection minterms := by
  constructor
  · rintro ⟨n, selection, hsub, hcovers, -⟩
    exact ⟨selection, hsub, hcovers⟩
  · rintro ⟨selection, hsub, hcovers⟩
    exact ⟨selection.length, selection, hsub, hcovers, rfl⟩

/-- If there is a cover at all, there is a smallest one. -/
theorem exists_isLeast_coverSizes (h : (coverSizes pool minterms).Nonempty) :
    ∃ n, IsLeast (coverSizes pool minterms) n :=
  ⟨sInf (coverSizes pool minterms), Nat.sInf_mem h, fun _ hn => Nat.sInf_le hn⟩

/-! ## One step -/

/-- A term that covers none of the minterms is not needed. -/
theorem covers_erase {t : Term} (h : Covers selection minterms) (hnot : ∀ k ∈ minterms, k ∉ t) :
    Covers (selection.erase t) minterms := by
  intro k hk
  obtain ⟨u, hu, hku⟩ := h k hk
  have hne : u ≠ t := by
    rintro rfl
    exact hnot k hk hku
  exact ⟨u, (List.mem_erase_of_ne hne).mpr hu, hku⟩

/-- A forced choice: the only candidate that covers an active minterm is part of every cover, and without it the
cover still covers what the candidate leaves over. -/
theorem exists_covers_of_single {prime : Term} (active : m ∈ c.minterms)
    (single : c.candidates.filter (m ∈ ·) = [prime]) (hsub : selection.Subperm c.candidates)
    (hcovers : Covers selection c.minterms) :
    ∃ rest : List Term, rest.Subperm (c.candidates.filter (m ∉ ·)) ∧
      Covers rest (c.minterms.filter (· ∉ prime)) ∧ rest.length + 1 = selection.length := by
  obtain ⟨hprime, hleft⟩ := (covers_iff_of_single active single hsub.subset).mp hcovers
  refine ⟨selection.erase prime, ?_, ?_, ?_⟩
  · have hperm := (candidates_perm_of_single single).erase prime
    rw [List.erase_cons_head] at hperm
    exact (hsub.erase prime).trans hperm.subperm
  · apply covers_erase hleft
    intro k hk
    exact of_decide_eq_true (List.mem_filter.mp hk).2
  · rw [List.length_erase_of_mem hprime]
    have hpos := List.length_pos_of_mem hprime
    omega

/-- A replacement: a cover that uses up the dominated candidate takes the one that dominates it instead, or has
it already. -/
theorem exists_covers_erase_of_dominates {kept discarded : Term} (kept_mem : kept ∈ pool)
    (dominates : kept.Dominates discarded) (hsub : selection.Subperm pool) (hcovers : Covers selection minterms) :
    ∃ rest : List Term, rest.Subperm (pool.erase discarded) ∧ Covers rest minterms ∧
      rest.length ≤ selection.length := by
  obtain ⟨hsubset, hnot⟩ := NatSet.ssubset_iff.mp dominates
  have hne : kept ≠ discarded := by
    rintro rfl
    exact hnot hsubset
  have hrest : (selection.erase discarded).Subperm (pool.erase discarded) := hsub.erase discarded
  -- with the dominating candidate added, what is left of the cover covers all that it covered
  have hswap : ∀ rest : List Term, kept ∈ rest → (∀ t ∈ selection.erase discarded, t ∈ rest) →
      Covers rest minterms := by
    intro rest hkept hincluded k hk
    obtain ⟨t, ht, hkt⟩ := hcovers k hk
    by_cases heq : t = discarded
    · exact ⟨kept, hkept, hsubset k (heq ▸ hkt)⟩
    · exact ⟨t, hincluded t ((List.mem_erase_of_ne heq).mpr ht), hkt⟩
  by_cases hused : discarded ∈ selection
  · by_cases hkept : kept ∈ selection.erase discarded
    · exact ⟨_, hrest, hswap _ hkept fun t ht => ht, (List.erase_sublist).length_le⟩
    · refine ⟨kept :: selection.erase discarded, ?_, ?_, ?_⟩
      · exact List.cons_subperm_of_not_mem_of_mem hkept ((List.mem_erase_of_ne hne).mpr kept_mem) hrest
      · exact hswap _ List.mem_cons_self fun t ht => List.mem_cons_of_mem kept ht
      · rw [List.length_cons, List.length_erase_of_mem hused]
        have hpos := List.length_pos_of_mem hused
        omega
  · rw [List.erase_of_not_mem hused] at hrest
    exact ⟨selection, hrest, hcovers, le_rfl⟩

/-- With the primes counted in, at most `n` terms are needed to cover what is active. -/
def CoversWithin (n : Nat) (c : Coverage) : Prop :=
  ∃ k ∈ coverSizes c.candidates c.minterms, c.primes.length + k ≤ n

/-- A step keeps the size that suffices. -/
theorem CoversWithin.fires (h : CoversWithin n c) (hfires : Fires c rule step next) : CoversWithin n next := by
  obtain ⟨k, ⟨selection, hsub, hcovers, rfl⟩, hle⟩ := h
  cases hfires with
  | @essential m prime active single =>
    obtain ⟨rest, hrest, hleft, hlength⟩ := exists_covers_of_single active single hsub hcovers
    refine ⟨rest.length, ⟨rest, hrest, hleft, rfl⟩, ?_⟩
    simp only [List.length_append, List.length_singleton]
    omega
  | row kept_mem discarded_mem dominates =>
    obtain ⟨rest, hrest, hleft, hlength⟩ := exists_covers_erase_of_dominates kept_mem dominates hsub hcovers
    exact ⟨rest.length, ⟨rest, hrest, hleft, rfl⟩, (Nat.add_le_add_left hlength _).trans hle⟩
  | column kept_mem discarded_mem strict =>
    refine ⟨selection.length, ⟨selection, hsub, ?_, rfl⟩, hle⟩
    intro k hk
    exact hcovers k (List.mem_of_mem_erase hk)

/-! ## Along a run -/

/-- At the start the size of a cover suffices. -/
theorem coversWithin_start (h : n ∈ coverSizes pool minterms) : CoversWithin n (start minterms pool) := by
  obtain ⟨selection, hsub, hcovers, rfl⟩ := h
  refine ⟨selection.length, ⟨selection, hsub, ?_, rfl⟩, (Nat.zero_add _).le⟩
  intro k hk
  exact hcovers k (List.mem_mergeSort.mp hk)

/-- However rules are applied, the size of a cover of the start suffices. -/
theorem Reaches.coversWithin (h : Reaches (start minterms pool) c) (hn : n ∈ coverSizes pool minterms) :
    CoversWithin n c := by
  refine h.invariant ?_ ?_ (coversWithin_start hn)
  · intro c rule step next hc hfires
    exact hc.fires hfires
  · intro c steps hc
    exact hc

/-- A cover of what is left and the chosen primes are together a cover of the start. -/
theorem Reaches.add_mem_coverSizes (h : Reaches (start minterms pool) c)
    (hn : n ∈ coverSizes c.candidates c.minterms) : c.primes.length + n ∈ coverSizes pool minterms := by
  obtain ⟨selection, hsub, hcovers, rfl⟩ := hn
  have hc := h.conserves
  refine ⟨selection ++ c.primes, ?_, (hc.covers_iff selection hsub.subset).mp hcovers, ?_⟩
  · have hswap : (selection ++ c.primes).Subperm (c.primes ++ c.candidates) :=
      List.perm_append_comm.subperm.trans ((List.subperm_append_left c.primes).mpr hsub)
    exact hswap.trans hc.subperm
  · rw [List.length_append, Nat.add_comm]

/-- However rules are applied, singly or until they come to an end, and whatever the pool holds: the pool can
cover the minterms of the start exactly when the remaining candidates can cover the active ones, and if so, the
least number of entries that it takes is the number of primes and the least number of remaining candidates. -/
theorem isLeast_coverSizes_of_reaches (h : Reaches (start minterms pool) c) :
    ((∃ selection : List Term, selection.Subperm pool ∧ Covers selection minterms) ↔
      ∃ selection : List Term, selection.Subperm c.candidates ∧ Covers selection c.minterms) ∧
    ((∃ selection : List Term, selection.Subperm pool ∧ Covers selection minterms) →
      ∃ k, IsLeast (coverSizes c.candidates c.minterms) k ∧
        IsLeast (coverSizes pool minterms) (c.primes.length + k)) := by
  rw [← coverSizes_nonempty_iff, ← coverSizes_nonempty_iff]
  have hiff : (coverSizes pool minterms).Nonempty ↔ (coverSizes c.candidates c.minterms).Nonempty := by
    constructor
    · rintro ⟨n, hn⟩
      obtain ⟨k, hk, -⟩ := h.coversWithin hn
      exact ⟨k, hk⟩
    · rintro ⟨k, hk⟩
      exact ⟨c.primes.length + k, h.add_mem_coverSizes hk⟩
  refine ⟨hiff, ?_⟩
  intro hnonempty
  obtain ⟨k, hk, hleast⟩ := exists_isLeast_coverSizes (hiff.mp hnonempty)
  refine ⟨k, ⟨hk, hleast⟩, h.add_mem_coverSizes hk, ?_⟩
  intro n hn
  obtain ⟨j, hj, hle⟩ := h.coversWithin hn
  exact (Nat.add_le_add_left (hleast hj) _).trans hle

/-- Of the mixed pool two entries are needed: the prime, and one more for the minterm that is left. -/
theorem isLeast_coverSizes_of_reaches_mixed :
    Reaches (start [1, 0, 2, 3, 1] mixedPool) mixedRest ∧
      IsLeast (coverSizes mixedRest.candidates mixedRest.minterms) 1 ∧
      IsLeast (coverSizes mixedPool [1, 0, 2, 3, 1]) 2 := by
  let term : Term := .ofPattern ⟨[.zero, .free], by decide⟩
  have hsub : [term].Subperm mixedRest.candidates := List.singleton_subperm_iff.mpr (by decide)
  have hcovers : Covers [term] mixedRest.minterms := by
    unfold Covers
    decide
  have hone : IsLeast (coverSizes mixedRest.candidates mixedRest.minterms) 1 := by
    refine ⟨⟨[term], hsub, hcovers, rfl⟩, ?_⟩
    rintro n ⟨selection, -, hselection, rfl⟩
    obtain ⟨t, ht, -⟩ := hselection 1 List.mem_cons_self
    exact List.length_pos_of_mem ht
  obtain ⟨hiff, hleast⟩ := isLeast_coverSizes_of_reaches mixedPool_reaches
  obtain ⟨k, hk, hpool⟩ := hleast (hiff.mpr ⟨[term], hsub, hcovers⟩)
  rw [hk.unique hone] at hpool
  exact ⟨mixedPool_reaches, hone, hpool⟩

end PrimeCover.Coverage
