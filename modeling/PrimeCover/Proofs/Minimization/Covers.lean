import Mathlib
import PrimeCover.Proofs.Coverage.Selection
import PrimeCover.Proofs.Minimization.Record
import PrimeCover.Proofs.Petrick.Expansion

/-!
# Sets of prime implicants and sets of labels

A cover of a function is a set of prime implicants (`IsPrimeCover`). After the reduction, a cover is
determined by the labels of its candidates (`labelsOf`), and a set of labels together with the chosen primes
makes up a set of patterns (`coverOf`). The two go back and forth between hitting sets and covers, and the
sizes differ by the number of primes. So the cheapest hitting sets are the smallest covers
(`isMinimumPrimeCover_coverOf`, `labelsOf_mem_solve`), each of them once (`labelsOf_coverOf`).
-/

set_option autoImplicit false

namespace PrimeCover

/-- A set of prime implicants in which every minterm belongs to some of them. -/
structure IsPrimeCover (length : Nat) (minterms : List Nat) (cover : Finset Pattern) : Prop where
  isPrime : ∀ p ∈ cover, p.IsPrime length minterms
  covers : ∀ m ∈ minterms, ∃ p ∈ cover, m ∈ p

/-- A set of prime implicants that covers the minterms and has as few patterns as such a set can have. -/
def IsMinimumPrimeCover (length : Nat) (minterms : List Nat) (cover : Finset Pattern) : Prop :=
  IsPrimeCover length minterms cover ∧
    ∀ other, IsPrimeCover length minterms other → cover.card ≤ other.card

variable {length : Nat} {minterms : List Nat}

/-- A cover by prime implicants stands for the minterms and for no other numbers. -/
theorem IsPrimeCover.exists_mem_iff {cover : Finset Pattern} (h : IsPrimeCover length minterms cover) (m : Nat) :
    (∃ p ∈ cover, m ∈ p) ↔ m ∈ minterms := by
  constructor
  · rintro ⟨p, hp, hm⟩
    exact (h.isPrime p hp).1.2 m hm
  · exact h.covers m

/-- Whatever patterns stand for the function together, no more prime implicants cover it. -/
theorem exists_isPrimeCover_card_le {patterns : List Pattern} (hlength : ∀ p ∈ patterns, p.length = length)
    (hcovered : ∀ m, (∃ p ∈ patterns, m ∈ p) ↔ m ∈ minterms) :
    ∃ cover, IsPrimeCover length minterms cover ∧ cover.card ≤ patterns.length := by
  have hextend : ∀ p ∈ patterns, ∃ q : Pattern, q.IsPrime length minterms ∧ q.contains p = true := by
    intro p hp
    exact Pattern.exists_isPrime_contains ⟨hlength p hp, fun m hm => (hcovered m).mp ⟨p, hp, hm⟩⟩
  choose! widen hprime hcontains using hextend
  refine ⟨(patterns.map widen).toFinset, ⟨?_, ?_⟩, ?_⟩
  · intro q hq
    obtain ⟨p, hp, rfl⟩ := List.mem_map.mp (List.mem_toFinset.mp hq)
    exact hprime p hp
  · intro m hm
    obtain ⟨p, hp, hmp⟩ := (hcovered m).mpr hm
    exact ⟨widen p, List.mem_toFinset.mpr (List.mem_map_of_mem hp), Pattern.mem_of_contains (hcontains p hp) hmp⟩
  · calc (patterns.map widen).toFinset.card ≤ (patterns.map widen).length := List.toFinset_card_le _
      _ = patterns.length := List.length_map _

/-- Minterms that fit into an allowed length have a prime cover. -/
theorem exists_isPrimeCover (hlength : length ≤ maxVariables)
    (hbound : ∀ m ∈ minterms, m < Binary.capacity length) : ∃ cover, IsPrimeCover length minterms cover := by
  obtain ⟨leaves, hleaves⟩ := Term.exists_mapM_leaf hlength hbound
  rw [Term.mapM_leaf_eq_ok_iff] at hleaves
  have hpattern : ∀ t ∈ leaves, ∃ v ∈ minterms, Pattern.ofMinterm v length = .ok t.pattern := by
    intro t ht
    obtain ⟨v, hv, hleaf⟩ := (Term.mem_leaves_iff hleaves).mp ht
    exact ⟨v, hv, (Term.leaf_eq_ok_iff.mp hleaf).1⟩
  have hlengths : ∀ p ∈ leaves.map Term.pattern, p.length = length := by
    intro p hp
    obtain ⟨t, ht, rfl⟩ := List.mem_map.mp hp
    obtain ⟨v, -, hv⟩ := hpattern t ht
    exact Pattern.length_of_ofMinterm hv
  have hcovered : ∀ m, (∃ p ∈ leaves.map Term.pattern, m ∈ p) ↔ m ∈ minterms := by
    intro m
    constructor
    · rintro ⟨p, hp, hm⟩
      obtain ⟨t, ht, rfl⟩ := List.mem_map.mp hp
      obtain ⟨v, hv, hvt⟩ := hpattern t ht
      rw [(Pattern.mem_iff_of_ofMinterm hvt m).mp hm]
      exact hv
    · intro hm
      obtain ⟨t, ht⟩ := Term.exists_leaf hlength (hbound m hm)
      refine ⟨t.pattern, List.mem_map_of_mem ((Term.mem_leaves_iff hleaves).mpr ⟨m, hm, ht⟩), ?_⟩
      exact (Pattern.mem_iff_of_ofMinterm (Term.leaf_eq_ok_iff.mp ht).1 m).mpr rfl
  obtain ⟨cover, hcover, -⟩ := exists_isPrimeCover_card_le hlengths hcovered
  exact ⟨cover, hcover⟩

/-! ## The choice of candidates by labels -/

namespace Petrick

/-- The candidates with the given labels, in the order of the labels. -/
def chosen (petrick : Petrick) (labels : NatSet) : List Term :=
  labels.toList.filterMap petrick.candidate?

variable {petrick : Petrick} {labels : NatSet} {c : Coverage}

/-- The chosen terms are the candidates at the labels. -/
theorem mem_chosen {t : Term} :
    t ∈ petrick.chosen labels ↔ ∃ label, label ∈ labels ∧ petrick.candidates[label]? = some t := by
  unfold chosen candidate?
  rw [List.mem_filterMap]
  simp only [NatSet.mem_toList]

/-- No more terms are chosen than there are labels. -/
theorem length_chosen_le (petrick : Petrick) (labels : NatSet) : (petrick.chosen labels).length ≤ labels.size :=
  List.length_filterMap_le _ _

/-- As many terms are chosen as there are labels that name candidates. -/
theorem length_chosen (h : ∀ label, label ∈ labels → label < petrick.candidates.length) :
    (petrick.chosen labels).length = labels.size := by
  unfold chosen NatSet.size
  rw [List.filterMap_length_eq_length]
  intro label hlabel
  unfold candidate?
  rw [List.getElem?_eq_getElem (h label hlabel)]
  rfl

/-- A set of labels hits the sums of a problem exactly when its candidates cover the active minterms. -/
theorem hits_ofCoverage_iff :
    Hits (ofCoverage c).sums labels ↔ Coverage.Covers ((ofCoverage c).chosen labels) c.minterms := by
  unfold Hits Coverage.Covers ofCoverage Coverage.table
  rw [List.forall_mem_map]
  apply forall₂_congr
  intro m _
  constructor
  · rintro ⟨label, hlabel, hcolumn⟩
    obtain ⟨t, ht, hmt⟩ := Coverage.mem_column.mp hcolumn
    exact ⟨t, mem_chosen.mpr ⟨label, hlabel, ht⟩, hmt⟩
  · rintro ⟨t, ht, hmt⟩
    obtain ⟨label, hlabel, hlt⟩ := mem_chosen.mp ht
    exact ⟨label, hlabel, Coverage.mem_column.mpr ⟨t, hlt, hmt⟩⟩

/-- Different labels choose different patterns, if the pool repeats none. -/
theorem nodup_patterns_chosen (h : (petrick.candidates.map Term.pattern).Nodup) :
    ((petrick.chosen labels).map Term.pattern).Nodup := by
  unfold chosen candidate?
  rw [List.map_filterMap]
  refine labels.nodup_toList.filterMap ?_
  intro i j p hi hj
  rw [Option.mem_def, ← List.getElem?_map] at hi hj
  have hlt : i < (petrick.candidates.map Term.pattern).length := (List.getElem?_eq_some_iff.mp hi).1
  exact (List.getElem?_inj hlt h).mp (hi.trans hj.symm)

end Petrick

/-! ## Covers and hitting sets -/

namespace Minimization

open Petrick (ofCoverage)

variable {pool : List Term} {c : Coverage} {labels : NatSet} {cover : Finset Pattern}

/-- The patterns of the candidates with the given labels and of the primes. -/
def coverOf (c : Coverage) (labels : NatSet) : Finset Pattern :=
  (assemble (ofCoverage c) c.primes labels).patterns.toFinset

/-- The labels of the candidates whose patterns belong to a set. -/
def labelsOf (c : Coverage) (cover : Finset Pattern) : NatSet :=
  NatSet.positions (fun t : Term => t.pattern ∈ cover) c.candidates

/-- A solution consists of the chosen candidates and then of the primes. -/
theorem products_assemble :
    (assemble (ofCoverage c) c.primes labels).products = (ofCoverage c).chosen labels ++ c.primes := rfl

/-- The products of a solution are the candidates at its labels and the primes. -/
theorem mem_products_assemble {t : Term} :
    t ∈ (assemble (ofCoverage c) c.primes labels).products ↔
      (∃ label, label ∈ labels ∧ c.candidates[label]? = some t) ∨ t ∈ c.primes := by
  rw [products_assemble, List.mem_append, Petrick.mem_chosen]
  rfl

/-- The cover of some labels holds the patterns of the solution. -/
theorem mem_coverOf {p : Pattern} :
    p ∈ coverOf c labels ↔ ∃ t ∈ (assemble (ofCoverage c) c.primes labels).products, t.pattern = p := by
  unfold coverOf SumOfProducts.patterns
  rw [List.mem_toFinset, List.mem_map]

/-- The labels of a cover are the places of the candidates whose patterns belong to it. -/
theorem mem_labelsOf {label : Nat} :
    label ∈ labelsOf c cover ↔ ∃ t, c.candidates[label]? = some t ∧ t.pattern ∈ cover := by
  unfold labelsOf
  rw [NatSet.mem_positions]
  simp only [decide_eq_true_eq]

/-- The cover of some labels has at most as many patterns as there are labels and primes. -/
theorem card_coverOf_le (c : Coverage) (labels : NatSet) :
    (coverOf c labels).card ≤ labels.size + c.primes.length := by
  have hlength : (assemble (ofCoverage c) c.primes labels).patterns.length ≤ labels.size + c.primes.length := by
    unfold SumOfProducts.patterns
    rw [List.length_map, products_assemble, List.length_append]
    exact Nat.add_le_add_right (Petrick.length_chosen_le _ _) _
  exact Nat.le_trans (List.toFinset_card_le _) hlength

/-- The products of a solution come from the pool. -/
theorem mem_pool_of_mem_products (hc : Coverage.KeepsCovers minterms pool c) {t : Term}
    (ht : t ∈ (assemble (ofCoverage c) c.primes labels).products) : t ∈ pool := by
  rw [hc.perm.mem_iff, List.mem_append]
  rcases mem_products_assemble.mp ht with ⟨label, -, hlabel⟩ | ht
  · exact Or.inr (List.mem_of_getElem? hlabel)
  · exact Or.inl ht

variable (hpool : Tabulation.ListsPrimes length minterms pool) (hc : Coverage.KeepsCovers minterms pool c)

include hpool

/-- No prime implicant dominates another one. -/
theorem incomparable_of_listsPrimes : Coverage.Incomparable pool := by
  intro a ha b hb hdominates
  obtain ⟨hsub, hnot⟩ := NatSet.ssubset_iff.mp hdominates
  have hprime : ∀ t ∈ pool, t.pattern.IsPrime length minterms := fun t ht =>
    (hpool.mem_patterns t.pattern).mp (List.mem_map_of_mem ht)
  have hlen : a.pattern.length = b.pattern.length := (hprime a ha).1.1.trans (hprime b hb).1.1.symm
  have hcontains : a.pattern.contains b.pattern = true := by
    rw [Pattern.contains_iff hlen]
    intro m hm
    rw [← hpool.exact a ha m]
    exact hsub m ((hpool.exact b hb m).mpr hm)
  have heq : a.pattern = b.pattern := (hprime b hb).2 a.pattern (hprime a ha).1 hcontains
  have hsame : a = b := (hpool.exact a ha).eq_of_pattern (hpool.exact b hb) heq
  rw [hsame] at hnot
  exact hnot (NatSet.subset_refl _)

include hc

/-- The cover of some labels consists of prime implicants. -/
theorem isPrime_of_mem_coverOf {p : Pattern} (hp : p ∈ coverOf c labels) : p.IsPrime length minterms := by
  obtain ⟨t, ht, rfl⟩ := mem_coverOf.mp hp
  exact (hpool.mem_patterns t.pattern).mp (List.mem_map_of_mem (mem_pool_of_mem_products hc ht))

/-- The primes and the candidates that are left have distinct patterns. -/
theorem nodup_patterns_remaining : ((c.primes ++ c.candidates).map Term.pattern).Nodup :=
  ((hc.perm.map Term.pattern).nodup_iff).mp hpool.nodup

/-- No pattern stands twice in a solution. -/
theorem nodup_patterns_assemble (labels : NatSet) :
    (assemble (ofCoverage c) c.primes labels).patterns.Nodup := by
  have hnodup := nodup_patterns_remaining hpool hc
  rw [List.map_append, List.nodup_append'] at hnodup
  obtain ⟨hprimes, hcandidates, hdisjoint⟩ := hnodup
  unfold SumOfProducts.patterns
  rw [products_assemble, List.map_append, List.nodup_append']
  refine ⟨Petrick.nodup_patterns_chosen hcandidates, hprimes, ?_⟩
  intro p hchosen hprime
  apply hdisjoint hprime
  obtain ⟨t, ht, rfl⟩ := List.mem_map.mp hchosen
  obtain ⟨label, -, hlabel⟩ := Petrick.mem_chosen.mp ht
  exact List.mem_map_of_mem (List.mem_of_getElem? hlabel)

/-- A hitting set and the primes make up a cover. -/
theorem isPrimeCover_coverOf (h : Petrick.Hits (ofCoverage c).sums labels) :
    IsPrimeCover length minterms (coverOf c labels) := by
  refine ⟨fun p hp => isPrime_of_mem_coverOf hpool hc hp, ?_⟩
  have hactive := Petrick.hits_ofCoverage_iff.mp h
  have hcovers : Coverage.Covers (assemble (ofCoverage c) c.primes labels).products minterms := by
    rw [hc.covers_iff _ fun t ht => mem_pool_of_mem_products hc ht, products_assemble]
    refine ⟨fun t ht => List.mem_append_right _ ht, ?_⟩
    intro m hm
    obtain ⟨t, ht, hmt⟩ := hactive m hm
    exact ⟨t, List.mem_append_left _ ht, hmt⟩
  intro m hm
  obtain ⟨t, ht, hmt⟩ := hcovers m hm
  refine ⟨t.pattern, mem_coverOf.mpr ⟨t, ht, rfl⟩, ?_⟩
  exact (hpool.exact t (mem_pool_of_mem_products hc ht) m).mp hmt

/-- A cover has all primes, and the labels of its candidates hit every sum. -/
theorem hits_labelsOf (h : IsPrimeCover length minterms cover) :
    (∀ t ∈ c.primes, t.pattern ∈ cover) ∧ Petrick.Hits (ofCoverage c).sums (labelsOf c cover) := by
  have hsel : ∀ t ∈ pool.filter (·.pattern ∈ cover), t ∈ pool := fun t ht => List.mem_of_mem_filter ht
  have hcovers : Coverage.Covers (pool.filter (·.pattern ∈ cover)) minterms := by
    intro m hm
    obtain ⟨p, hp, hmp⟩ := h.covers m hm
    obtain ⟨t, ht, rfl⟩ := List.mem_map.mp ((hpool.mem_patterns p).mpr (h.isPrime p hp))
    exact ⟨t, List.mem_filter.mpr ⟨ht, decide_eq_true hp⟩, (hpool.exact t ht m).mpr hmp⟩
  obtain ⟨hprimes, hactive⟩ := (hc.covers_iff _ hsel).mp hcovers
  constructor
  · intro t ht
    exact of_decide_eq_true (List.mem_filter.mp (hprimes t ht)).2
  · rw [Petrick.hits_ofCoverage_iff]
    intro m hm
    obtain ⟨t, ht, hmt⟩ := hactive m hm
    have hcandidate : t ∈ c.candidates := by
      have hmem := hsel t ht
      rw [hc.perm.mem_iff, List.mem_append] at hmem
      exact hmem.resolve_left fun hp => hc.fresh m hm t hp hmt
    obtain ⟨label, hlabel⟩ := List.mem_iff_getElem?.mp hcandidate
    have hcover : t.pattern ∈ cover := of_decide_eq_true (List.mem_filter.mp ht).2
    exact ⟨t, Petrick.mem_chosen.mpr ⟨label, mem_labelsOf.mpr ⟨t, hlabel, hcover⟩, hlabel⟩, hmt⟩

/-- A cover is made up of its labels and the primes. -/
theorem coverOf_labelsOf (h : IsPrimeCover length minterms cover) :
    coverOf c (labelsOf c cover) = cover := by
  ext p
  rw [mem_coverOf]
  constructor
  · rintro ⟨t, ht, rfl⟩
    rcases mem_products_assemble.mp ht with ⟨label, hlabel, hlt⟩ | ht
    · obtain ⟨u, hu, hcover⟩ := mem_labelsOf.mp hlabel
      rw [hlt, Option.some.injEq] at hu
      rw [hu]
      exact hcover
    · exact (hits_labelsOf hpool hc h).1 t ht
  · intro hp
    obtain ⟨t, ht, rfl⟩ := List.mem_map.mp ((hpool.mem_patterns p).mpr (h.isPrime p hp))
    refine ⟨t, mem_products_assemble.mpr ?_, rfl⟩
    rw [hc.perm.mem_iff, List.mem_append] at ht
    rcases ht with ht | ht
    · exact Or.inr ht
    · obtain ⟨label, hlabel⟩ := List.mem_iff_getElem?.mp ht
      exact Or.inl ⟨label, mem_labelsOf.mpr ⟨t, hlabel, hp⟩, hlabel⟩

/-- A prime cover has a pattern for each of its labels and for each prime. -/
theorem card_eq_size_labelsOf_add (h : IsPrimeCover length minterms cover) :
    cover.card = (labelsOf c cover).size + c.primes.length := by
  have hrange : ∀ label, label ∈ labelsOf c cover → label < (ofCoverage c).candidates.length := by
    intro label hlabel
    obtain ⟨t, ht, -⟩ := mem_labelsOf.mp hlabel
    exact (List.getElem?_eq_some_iff.mp ht).1
  have hnodup := nodup_patterns_assemble hpool hc (labelsOf c cover)
  calc cover.card = (coverOf c (labelsOf c cover)).card := by
        rw [coverOf_labelsOf hpool hc h]
    _ = (assemble (ofCoverage c) c.primes (labelsOf c cover)).patterns.length :=
        List.toFinset_card_of_nodup hnodup
    _ = (labelsOf c cover).size + c.primes.length := by
        unfold SumOfProducts.patterns
        rw [List.length_map, products_assemble, List.length_append, Petrick.length_chosen hrange]

/-- The labels of the cover of some labels are among them. -/
theorem labelsOf_coverOf_subset (labels : NatSet) : labelsOf c (coverOf c labels) ⊆ labels := by
  have hnodup := nodup_patterns_remaining hpool hc
  rw [List.map_append, List.nodup_append'] at hnodup
  obtain ⟨-, hcandidates, hdisjoint⟩ := hnodup
  intro label hlabel
  obtain ⟨t, ht, hcover⟩ := mem_labelsOf.mp hlabel
  obtain ⟨u, hu, hpattern⟩ := mem_coverOf.mp hcover
  rcases mem_products_assemble.mp hu with ⟨other, hother, hou⟩ | hu
  · -- one pattern stands at one label only
    have hlt : label < (c.candidates.map Term.pattern).length := by
      rw [List.length_map]
      exact (List.getElem?_eq_some_iff.mp ht).1
    have hsame : (c.candidates.map Term.pattern)[label]? = (c.candidates.map Term.pattern)[other]? := by
      rw [List.getElem?_map, List.getElem?_map, ht, hou, Option.map_some, Option.map_some, hpattern]
    rw [(List.getElem?_inj hlt hcandidates).mp hsame]
    exact hother
  · exfalso
    apply hdisjoint (List.mem_map_of_mem hu)
    rw [hpattern]
    exact List.mem_map_of_mem (List.mem_of_getElem? ht)

/-! ## Smallest covers -/

/-- A cheapest hitting set makes up a smallest cover. -/
theorem isMinimumPrimeCover_coverOf (h : labels ∈ (ofCoverage c).solve) :
    IsMinimumPrimeCover length minterms (coverOf c labels) := by
  obtain ⟨hhits, hleast⟩ := Petrick.mem_solve_iff.mp h
  refine ⟨isPrimeCover_coverOf hpool hc hhits, ?_⟩
  intro other hother
  have hlabels := hleast _ (hits_labelsOf hpool hc hother).2
  calc (coverOf c labels).card ≤ labels.size + c.primes.length := card_coverOf_le c labels
    _ ≤ (labelsOf c other).size + c.primes.length := Nat.add_le_add_right hlabels _
    _ = other.card := (card_eq_size_labelsOf_add hpool hc hother).symm

/-- The labels of a smallest cover are a cheapest hitting set. -/
theorem labelsOf_mem_solve (h : IsMinimumPrimeCover length minterms cover) :
    labelsOf c cover ∈ (ofCoverage c).solve := by
  obtain ⟨hcover, hleast⟩ := h
  refine Petrick.mem_solve_iff.mpr ⟨(hits_labelsOf hpool hc hcover).2, ?_⟩
  intro other hother
  have hle : (labelsOf c cover).size + c.primes.length ≤ other.size + c.primes.length := by
    calc (labelsOf c cover).size + c.primes.length = cover.card := (card_eq_size_labelsOf_add hpool hc hcover).symm
      _ ≤ (coverOf c other).card := hleast _ (isPrimeCover_coverOf hpool hc hother)
      _ ≤ other.size + c.primes.length := card_coverOf_le c other
  exact Nat.le_of_add_le_add_right hle

/-- A cheapest hitting set can be read off its cover. -/
theorem labelsOf_coverOf (h : labels ∈ (ofCoverage c).solve) : labelsOf c (coverOf c labels) = labels := by
  obtain ⟨hhits, hleast⟩ := Petrick.mem_solve_iff.mp h
  have hcover := isPrimeCover_coverOf hpool hc hhits
  apply NatSet.eq_of_subset_of_size_le (labelsOf_coverOf_subset hpool hc labels)
  exact hleast _ (hits_labelsOf hpool hc hcover).2

end Minimization

end PrimeCover
