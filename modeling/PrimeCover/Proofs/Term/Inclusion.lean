import Mathlib
import PrimeCover.Term
import PrimeCover.Proofs.Pattern.Spelling
import PrimeCover.Proofs.Term.Exactness

/-!
# Inclusion of terms

There are three ways to compare terms of one length: by what their patterns fix, by their patterns as they are written
or stored, and by the minterms folded into them. For exact terms a dominating term is one whose pattern strictly
contains the other one (`Exact.dominates_iff`). Main statement: `inclusions_agree` says this for all terms that can be
built, together with the tests by which each comparison can be made: on words, on texts, and on the sizes of sets.
-/

set_option autoImplicit false

namespace PrimeCover.Term

variable {a b : Term}

/-- Covered sets of exact terms are included in each other as the minterms of the patterns are. -/
theorem Exact.covered_subset_iff (ha : a.Exact) (hb : b.Exact) :
    b.covered ⊆ a.covered ↔ ∀ m, m ∈ b.pattern → m ∈ a.pattern := by
  simp only [NatSet.subset_iff, ha _, hb _]

/-- Of two exact terms with patterns of one length, one dominates the other exactly when its pattern strictly contains
the other pattern. -/
theorem Exact.dominates_iff (ha : a.Exact) (hb : b.Exact) (hlen : a.pattern.length = b.pattern.length) :
    a.Dominates b ↔ a.pattern.contains b.pattern = true ∧ a.pattern ≠ b.pattern := by
  unfold Dominates
  rw [NatSet.ssubset_iff, ha.covered_subset_iff hb, hb.covered_subset_iff ha, ← Pattern.contains_iff hlen,
    ← Pattern.contains_iff hlen.symm]
  constructor
  · rintro ⟨hab, hba⟩
    refine ⟨hab, ?_⟩
    intro heq
    exact hba (heq ▸ hab)
  · rintro ⟨hab, hne⟩
    refine ⟨hab, ?_⟩
    intro hba
    exact hne (Pattern.eq_of_contains hab hba)

end PrimeCover.Term

namespace PrimeCover.Pattern

variable {p q : Pattern}

/-- Patterns of one length are equal exactly when they have the same minterms. -/
theorem eq_iff_mem_iff (hlen : p.length = q.length) : p = q ↔ ∀ m, m ∈ p ↔ m ∈ q := by
  constructor
  · rintro rfl m
    exact Iff.rfl
  · exact eq_of_mem_iff hlen

/-- Patterns are equal exactly when they contain each other. -/
theorem eq_iff_contains : p = q ↔ p.contains q = true ∧ q.contains p = true := by
  constructor
  · rintro rfl
    exact ⟨contains_refl p, contains_refl p⟩
  · rintro ⟨hpq, hqp⟩
    exact eq_of_contains hpq hqp

/-- No pattern contains a pattern of another length. -/
theorem contains_eq_false (hlen : p.length ≠ q.length) : p.contains q = false := by
  rw [Bool.eq_false_iff]
  intro h
  exact hlen (length_eq_of_contains h)

end PrimeCover.Pattern

namespace PrimeCover.Term

variable {a b : Term}

/-- Inclusion of patterns, equality of patterns and dominance of terms say the same about terms of one length that can
be built. A pattern contains another one exactly when it has all its minterms; two patterns are equal exactly when they
have the same minterms, when each contains the other one, and when they have the same text; and a term dominates another
one exactly when its pattern contains the other pattern and differs from it. Between patterns of different lengths there
is no inclusion. Inclusion and equality can be tested on words, and dominance on the size of the covered sets. -/
theorem inclusions_agree (ha : Built a) (hb : Built b) :
    (a.pattern.length = b.pattern.length →
      (a.pattern.contains b.pattern = true ↔ ∀ m, m ∈ b.pattern → m ∈ a.pattern) ∧
      (a.pattern = b.pattern ↔ ∀ m, m ∈ a.pattern ↔ m ∈ b.pattern) ∧
      (a.pattern = b.pattern ↔ a.pattern.contains b.pattern = true ∧ b.pattern.contains a.pattern = true) ∧
      (a.pattern = b.pattern ↔ toString a.pattern = toString b.pattern) ∧
      (a.Dominates b ↔ a.pattern.contains b.pattern = true ∧ a.pattern ≠ b.pattern)) ∧
    (a.pattern.length ≠ b.pattern.length →
      a.pattern.contains b.pattern = false ∧ b.pattern.contains a.pattern = false) ∧
    a.pattern.pack.contains b.pattern.pack = a.pattern.contains b.pattern ∧
    (a.pattern.pack = b.pattern.pack ↔ a.pattern = b.pattern) ∧
    (a.Dominates b ↔ b.covered.size < a.covered.size ∧ b.covered ⊆ a.covered) := by
  refine ⟨?_, ?_, Pattern.contains_pack _ _, Pattern.pack_inj, NatSet.ssubset_iff_size_lt⟩
  · intro hlen
    exact ⟨Pattern.contains_iff hlen, Pattern.eq_iff_mem_iff hlen, Pattern.eq_iff_contains, Pattern.toString_inj.symm,
      ha.exact.dominates_iff hb.exact hlen⟩
  · intro hlen
    exact ⟨Pattern.contains_eq_false hlen, Pattern.contains_eq_false hlen.symm⟩

/-- The term of the pattern `-01`, a half of the square. -/
def edge : Term :=
  .ofPattern ⟨[.free, .zero, .one], by decide⟩

/-- The square contains its edge and dominates it. -/
theorem inclusions_agree_square :
    Built square ∧ Built edge ∧ square.pattern.contains edge.pattern = true ∧ square.Dominates edge ∧
      ¬ edge.Dominates square ∧ toString square.pattern ≠ toString edge.pattern := by
  have hedge : Built edge := .ofPattern _
  have hlen : square.pattern.length = edge.pattern.length := rfl
  have hcontains : square.pattern.contains edge.pattern = true := by decide
  have hne : square.pattern ≠ edge.pattern := by decide
  obtain ⟨-, -, -, htext, hdominates⟩ := (inclusions_agree built_square hedge).1 hlen
  obtain ⟨-, -, -, -, hreverse⟩ := (inclusions_agree hedge built_square).1 hlen.symm
  refine ⟨built_square, hedge, hcontains, hdominates.mpr ⟨hcontains, hne⟩, ?_, mt htext.mpr hne⟩
  intro h
  exact absurd (hreverse.mp h).1 (by decide)

end PrimeCover.Term
