import Mathlib
import PrimeCover.Proofs.Petrick.Absorption

/-!
# The expanded product of sums

Multiplying out sum by sum keeps three things (`expand_invariant` and its uses): a set contains a product of
the expansion exactly when it hits every sum, no product contains another one, and the products ascend. The
first two say that the expansion lists the minimal hitting sets (`mem_expand_iff`), and the smallest products
are then the hitting sets with the fewest labels (`mem_solve_iff`).
-/

set_option autoImplicit false

namespace PrimeCover.Petrick

variable {labels other p : NatSet} {sum : NatSet} {sums : List NatSet} {products : List NatSet}

/-! ## A single sum -/

/-- A sum of labels is the sum of the products of one label each. -/
theorem mem_singletons : p ∈ singletons sum ↔ ∃ label, label ∈ sum ∧ p = {label} := by
  unfold singletons
  rw [List.mem_map]
  simp only [NatSet.mem_toList, eq_comm]

/-- A set of labels includes a product of one label when it meets the sum. -/
theorem exists_mem_singletons_subset_iff :
    (∃ p ∈ singletons sum, p ⊆ labels) ↔ ∃ label, label ∈ labels ∧ label ∈ sum := by
  constructor
  · rintro ⟨p, hp, hsub⟩
    obtain ⟨label, hsum, rfl⟩ := mem_singletons.mp hp
    exact ⟨label, NatSet.singleton_subset_iff.mp hsub, hsum⟩
  · rintro ⟨label, hlabels, hsum⟩
    exact ⟨{label}, mem_singletons.mpr ⟨label, hsum, rfl⟩, NatSet.singleton_subset_iff.mpr hlabels⟩

/-- Products of one label do not contain each other. -/
theorem antichain_singletons (sum : NatSet) : Antichain (singletons sum) := by
  intro p hp q hq hqp
  obtain ⟨a, -, rfl⟩ := mem_singletons.mp hp
  obtain ⟨b, -, rfl⟩ := mem_singletons.mp hq
  have hlt := NatSet.size_lt_of_ssubset hqp
  exact absurd hlt (Nat.lt_irrefl 1)

/-- The products of one label are in ascending order. -/
theorem pairwise_singletons (sum : NatSet) :
    (singletons sum).Pairwise fun p q => p.toList < q.toList := by
  unfold singletons
  rw [List.pairwise_map]
  refine sum.ascending.imp ?_
  intro a b hab
  exact List.cons_lt_cons_iff.mpr (Or.inl hab)

/-! ## All sums -/

/-- What holds of the products of a single sum and is kept by a multiplication holds of an expansion, if it
holds of the empty product. -/
theorem expand_invariant {Inv : List NatSet → Prop} (hempty : Inv [∅]) (hsingle : ∀ sum, Inv (singletons sum))
    (hmultiply : ∀ left right, Inv (multiply left right)) (sums : List NatSet) : Inv (expand sums) := by
  have hfold : ∀ (rest products : List NatSet), Inv products →
      Inv (rest.foldl (fun products next => multiply products (singletons next)) products) := by
    intro rest
    induction rest with
    | nil => exact fun products h => h
    | cons next rest ih => exact fun products _ => ih _ (hmultiply products (singletons next))
  cases sums with
  | nil => exact hempty
  | cons sum rest => exact hfold rest _ (hsingle sum)

/-- No product of an expansion strictly contains another one. -/
theorem antichain_expand (sums : List NatSet) : Antichain (expand sums) := by
  apply expand_invariant
  · intro p hp q hq hqp
    rw [List.mem_singleton.mp hp, List.mem_singleton.mp hq] at hqp
    exact hqp.2 hqp.1
  · exact antichain_singletons
  · exact antichain_multiply

/-- The products of an expansion are in ascending order. -/
theorem pairwise_expand (sums : List NatSet) :
    (expand sums).Pairwise fun p q => p.toList < q.toList := by
  apply expand_invariant
  · exact List.pairwise_singleton _ _
  · exact pairwise_singletons
  · exact pairwise_multiply

/-- A set of labels hits several sums when it hits the first one and the others. -/
theorem hits_cons : Hits (sum :: sums) labels ↔ (∃ label, label ∈ labels ∧ label ∈ sum) ∧ Hits sums labels := by
  unfold Hits
  exact List.forall_mem_cons

/-- A set contains a product of the expansion exactly when it hits every sum. -/
theorem exists_mem_expand_subset_iff : (∃ p ∈ expand sums, p ⊆ labels) ↔ Hits sums labels := by
  have hfold : ∀ (rest products : List NatSet),
      (∃ p ∈ rest.foldl (fun products next => multiply products (singletons next)) products, p ⊆ labels) ↔
        (∃ p ∈ products, p ⊆ labels) ∧ Hits rest labels := by
    intro rest
    induction rest with
    | nil => simp [Hits]
    | cons next rest ih =>
      intro products
      rw [List.foldl_cons, ih, exists_mem_multiply_subset_iff, exists_mem_singletons_subset_iff, hits_cons,
        and_assoc]
  cases sums with
  | nil =>
    refine iff_of_true ⟨∅, List.mem_singleton_self ∅, ?_⟩ ?_
    · intro a ha
      exact absurd ha NatSet.not_mem_empty
    · intro sum hsum
      exact absurd hsum List.not_mem_nil
  | cons sum rest =>
    unfold expand
    rw [hfold, exists_mem_singletons_subset_iff, hits_cons]

/-- The expansion lists the minimal hitting sets. -/
theorem mem_expand_iff : p ∈ expand sums ↔ HitsMinimally sums p := by
  constructor
  · intro hp
    refine ⟨exists_mem_expand_subset_iff.mp ⟨p, hp, NatSet.subset_refl p⟩, ?_⟩
    intro other hother hstrict
    obtain ⟨q, hq, hqo⟩ := exists_mem_expand_subset_iff.mpr hother
    apply antichain_expand sums p hp q hq
    refine NatSet.ssubset_iff.mpr ⟨NatSet.subset_trans hqo hstrict.1, ?_⟩
    intro hpq
    exact hstrict.2 (NatSet.subset_trans hpq hqo)
  · rintro ⟨hhits, hmin⟩
    obtain ⟨q, hq, hqp⟩ := exists_mem_expand_subset_iff.mpr hhits
    have hqhits : Hits sums q := exists_mem_expand_subset_iff.mp ⟨q, hq, NatSet.subset_refl q⟩
    have hpq : p ⊆ q := by
      by_contra hnot
      exact hmin q hqhits ⟨hqp, hnot⟩
    rw [NatSet.subset_antisymm hpq hqp]
    exact hq

/-! ## The smallest products -/

variable {petrick : Petrick}

/-- The solutions are exactly the hitting sets with the fewest labels. -/
theorem mem_solve_iff : p ∈ petrick.solve ↔ HitsCheaply petrick.sums p := by
  have hsmallest : p ∈ petrick.solve ↔
      p ∈ expand petrick.sums ∧ ∀ q ∈ expand petrick.sums, p.size ≤ q.size := by
    unfold solve smallest
    rw [List.mem_filter, List.all_eq_true]
    simp only [decide_eq_true_eq]
  rw [hsmallest]
  constructor
  · rintro ⟨hp, hleast⟩
    refine ⟨(mem_expand_iff.mp hp).1, ?_⟩
    intro other hother
    obtain ⟨q, hq, hqo⟩ := exists_mem_expand_subset_iff.mpr hother
    exact Nat.le_trans (hleast q hq) (NatSet.size_le_of_subset hqo)
  · rintro ⟨hhits, hleast⟩
    constructor
    · refine mem_expand_iff.mpr ⟨hhits, ?_⟩
      intro other hother hstrict
      have hlt := NatSet.size_lt_of_ssubset hstrict
      exact absurd (hleast other hother) (Nat.not_le.mpr hlt)
    · intro q hq
      exact hleast q (mem_expand_iff.mp hq).1

/-- The answers are in ascending order. -/
theorem pairwise_solve (petrick : Petrick) :
    petrick.solve.Pairwise fun p q => p.toList < q.toList :=
  (pairwise_expand petrick.sums).sublist List.filter_sublist

/-- No answer is given twice. -/
theorem nodup_solve (petrick : Petrick) : petrick.solve.Nodup := by
  refine (pairwise_solve petrick).imp ?_
  rintro p q hlt rfl
  exact absurd hlt (lt_irrefl p.toList)

/-- If the sums can be hit at all, there is a solution. -/
theorem exists_mem_solve (h : Hits petrick.sums labels) : ∃ p, p ∈ petrick.solve := by
  induction hn : labels.size using Nat.strong_induction_on generalizing labels with
  | _ n ih =>
    by_cases hleast : ∀ other, Hits petrick.sums other → labels.size ≤ other.size
    · exact ⟨labels, mem_solve_iff.mpr ⟨h, hleast⟩⟩
    · push Not at hleast
      obtain ⟨other, hother, hlt⟩ := hleast
      exact ih other.size (hn ▸ hlt) hother rfl

end PrimeCover.Petrick
