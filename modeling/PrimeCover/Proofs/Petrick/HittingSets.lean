import Mathlib
import PrimeCover.Proofs.Coverage.Selection
import PrimeCover.Proofs.Petrick.Expansion

/-!
# The cheapest hitting sets of a coverage problem

The sums of a coverage problem are its columns, whether or not the problem was reduced. They can be hit unless one
of them is empty (`exists_hits`), and a sum is empty exactly when its minterm belongs to no candidate
(`empty_mem_sums_iff`). So the solutions are the hitting sets with the fewest labels, and there is one unless
some minterm is not covered (`solve_lists_cheapest_hitting_sets`).
-/

set_option autoImplicit false

namespace PrimeCover.Petrick

variable {sums : List NatSet} {petrick : Petrick} {c : Coverage}

/-- Whatever meets every sum has a finite hitting set inside. -/
theorem exists_hits_within {labels : Set Nat} (h : ∀ sum ∈ sums, ∃ label ∈ labels, label ∈ sum) :
    ∃ p, Hits sums p ∧ ∀ label ∈ p, label ∈ labels := by
  induction sums with
  | nil =>
    refine ⟨∅, ?_, ?_⟩
    · exact fun sum hsum => absurd hsum List.not_mem_nil
    · exact fun label hlabel => absurd hlabel NatSet.not_mem_empty
  | cons sum rest ih =>
    rw [List.forall_mem_cons] at h
    obtain ⟨⟨label, hlabel, hsum⟩, hrest⟩ := h
    obtain ⟨p, hp, hwithin⟩ := ih hrest
    refine ⟨{label} ∪ p, hits_cons.mpr ⟨⟨label, by simp, hsum⟩, ?_⟩, ?_⟩
    · intro other hother
      obtain ⟨l, hl, hlo⟩ := hp other hother
      exact ⟨l, NatSet.mem_union.mpr (Or.inr hl), hlo⟩
    · intro l hl
      rcases NatSet.mem_union.mp hl with hl | hl
      · rw [NatSet.mem_singleton.mp hl]
        exact hlabel
      · exact hwithin l hl

/-- Sums of which none is empty can be hit. -/
theorem exists_hits (h : ∅ ∉ sums) : ∃ labels, Hits sums labels := by
  have hany : ∀ sum ∈ sums, ∃ label ∈ (Set.univ : Set Nat), label ∈ sum := by
    intro sum hsum
    have hne : sum ≠ ∅ := ne_of_mem_of_not_mem hsum h
    obtain ⟨label, hlabel⟩ := not_forall_not.mp (mt NatSet.eq_empty_iff.mpr hne)
    exact ⟨label, trivial, hlabel⟩
  obtain ⟨p, hp, -⟩ := exists_hits_within hany
  exact ⟨p, hp⟩

/-- Where nothing has to be hit, the empty product is the only answer. -/
theorem solve_of_sums_eq_nil (h : petrick.sums = []) : petrick.solve = [∅] := by
  unfold solve
  rw [h]
  rfl

/-- There is no solution exactly when some sum has no label to choose. -/
theorem solve_eq_nil_iff : petrick.solve = [] ↔ ∅ ∈ petrick.sums := by
  rw [List.eq_nil_iff_forall_not_mem]
  constructor
  · intro hnone
    by_contra hempty
    obtain ⟨labels, hlabels⟩ := exists_hits hempty
    obtain ⟨p, hp⟩ := exists_mem_solve hlabels
    exact hnone p hp
  · intro hempty p hp
    obtain ⟨label, -, hlabel⟩ := (mem_solve_iff.mp hp).1 ∅ hempty
    exact NatSet.not_mem_empty hlabel

/-- A sum is empty exactly when no candidate covers its minterm. -/
theorem empty_mem_sums_iff : ∅ ∈ (ofCoverage c).sums ↔ ∃ m ∈ c.minterms, ∀ t ∈ c.candidates, m ∉ t := by
  unfold ofCoverage Coverage.table
  rw [List.mem_map]
  simp only [Coverage.column_eq_empty_iff]

/-- For every coverage problem, the solutions are the hitting sets of its sums with the fewest labels: all of them,
each once, in lexicographic order, with their labels ascending. Without sums the empty set is the only one; if a
sum is empty, that is, if a minterm is not covered, there is none. -/
theorem solve_lists_cheapest_hitting_sets (c : Coverage) :
    (∀ p ∈ (ofCoverage c).solve, p.toList.Pairwise (· < ·)) ∧
      (ofCoverage c).solve.Pairwise (fun p q => p.toList < q.toList) ∧
      (∀ labels, labels ∈ (ofCoverage c).solve ↔ HitsCheaply (ofCoverage c).sums labels) ∧
      ((ofCoverage c).sums = [] → (ofCoverage c).solve = [∅]) ∧
      ((ofCoverage c).solve = [] ↔ ∅ ∈ (ofCoverage c).sums) ∧
      (∅ ∈ (ofCoverage c).sums ↔ ∃ m ∈ c.minterms, ∀ t ∈ c.candidates, m ∉ t) :=
  ⟨fun p _ => p.ascending, pairwise_solve _, fun _ => mem_solve_iff, solve_of_sums_eq_nil, solve_eq_nil_iff,
    empty_mem_sums_iff⟩

end PrimeCover.Petrick
