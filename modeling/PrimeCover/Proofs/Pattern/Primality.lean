import Mathlib
import PrimeCover.Proofs.Pattern.Merging

/-!
# Implicants and prime implicants

Implicants of one function are closed under merging and under narrowing. From the two facts together an
implicant is prime exactly when no other implicant merges with it (`isPrime_iff_merge?_eq_none`), which is what
a tabulation can see. Since a merge loses a literal, every implicant lies inside a prime one
(`exists_isPrime_contains`).
-/

set_option autoImplicit false

namespace PrimeCover.Pattern

variable {length : Nat} {minterms : List Nat} {p q r : Pattern}

/-- Implicants merge to an implicant. -/
theorem IsImplicant.of_merge? (hp : p.IsImplicant length minterms) (hq : q.IsImplicant length minterms)
    (h : p.merge? q = some r) : r.IsImplicant length minterms := by
  refine ⟨(length_of_merge? h).1.symm.trans hp.1, ?_⟩
  intro m hm
  rcases (mem_iff_of_merge? h m).mp hm with hm | hm
  · exact hp.2 m hm
  · exact hq.2 m hm

/-- What an implicant contains is an implicant. -/
theorem IsImplicant.of_contains (hq : q.IsImplicant length minterms) (h : q.contains p = true) :
    p.IsImplicant length minterms := by
  refine ⟨(length_eq_of_contains h).symm.trans hq.1, ?_⟩
  intro m hm
  exact hq.2 m (mem_of_contains h hm)

/-- The halves of an implicant are implicants. -/
theorem IsImplicant.halves (hr : r.IsImplicant length minterms) (h : p.merge? q = some r) :
    p.IsImplicant length minterms ∧ q.IsImplicant length minterms := by
  have h' : q.merge? p = some r := by rw [merge?_comm, h]
  exact ⟨hr.of_contains (contains_of_merge? h), hr.of_contains (contains_of_merge? h')⟩

/-- Below an implicant there are implicants with every smaller number of free positions. -/
theorem IsImplicant.exists_freeCount_eq (hp : p.IsImplicant length minterms) {k : Nat} (h : k ≤ p.freeCount) :
    ∃ q : Pattern, q.IsImplicant length minterms ∧ q.freeCount = k := by
  obtain ⟨d, hd⟩ := Nat.exists_eq_add_of_le h
  induction d generalizing p with
  | zero => exact ⟨p, hp, hd⟩
  | succ d ih =>
    have hfree : p.freeCount ≠ 0 := by omega
    obtain ⟨low, high, hmerge, -⟩ := exists_merge?_of_free hfree
    have hcount := (freeCount_of_merge? hmerge).1
    exact ih (hp.halves hmerge).1 (by omega) (by omega)

/-- An implicant is prime exactly when it merges with no other implicant. -/
theorem isPrime_iff_merge?_eq_none (hp : p.IsImplicant length minterms) :
    p.IsPrime length minterms ↔ ∀ q : Pattern, q.IsImplicant length minterms → p.merge? q = none := by
  constructor
  · rintro ⟨-, hmax⟩ q hq
    by_contra hsome
    obtain ⟨r, hr⟩ := Option.ne_none_iff_exists'.mp hsome
    have heq : r = p := hmax r (hp.of_merge? hq hr) (contains_of_merge? hr)
    have hcount := (literalCount_of_merge? hr).1
    rw [heq] at hcount
    omega
  · intro hnone
    refine ⟨hp, ?_⟩
    intro q hq hqp
    by_contra hne
    -- inside a strictly larger implicant a position of `p` can be freed, and `p` merges with the other half
    have htrits : q.trits ≠ p.trits := fun heq => hne (ext_trits heq)
    obtain ⟨before, digit, after, hpt, hincl⟩ := exists_freed_of_includes hqp htrits
    obtain ⟨u, r, hmerge, hrt⟩ := exists_merge?_of_trits hpt
    have hqr : q.contains r = true := by
      unfold contains
      rw [hrt]
      exact hincl
    have hu : u.IsImplicant length minterms := ((hq.of_contains hqr).halves hmerge).2
    have habsurd := hnone u hu
    rw [hmerge] at habsurd
    exact absurd habsurd (Option.some_ne_none r)

/-- Every implicant lies inside a prime implicant. -/
theorem exists_isPrime_contains (hp : p.IsImplicant length minterms) :
    ∃ q : Pattern, q.IsPrime length minterms ∧ q.contains p = true := by
  induction hn : p.literalCount using Nat.strong_induction_on generalizing p with
  | _ n ih =>
    by_cases hprime : p.IsPrime length minterms
    · exact ⟨p, hprime, contains_refl p⟩
    · rw [isPrime_iff_merge?_eq_none hp] at hprime
      push Not at hprime
      obtain ⟨u, hu, hsome⟩ := hprime
      obtain ⟨r, hr⟩ := Option.ne_none_iff_exists'.mp hsome
      have hfewer : r.literalCount < n := by
        have := (literalCount_of_merge? hr).1
        omega
      obtain ⟨q, hq, hqr⟩ := ih r.literalCount hfewer (hp.of_merge? hu hr) rfl
      exact ⟨q, hq, contains_trans hqr (contains_of_merge? hr)⟩

end PrimeCover.Pattern
