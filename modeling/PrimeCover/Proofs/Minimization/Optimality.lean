import Mathlib
import PrimeCover.Proofs.Minimization.Covers

/-!
# The solutions are the smallest covers

For an accepted list of minterms the stages fit together: the candidates are the prime implicants, the
reduction keeps their covers, and Petrick's product lists the cheapest choices among what is left
(`exists_minimize_eq_ok`). Read as sets of patterns, the solutions are therefore exactly the smallest covers by
prime implicants, each of them once (`solutions_iff_isMinimumPrimeCover`). A solution stands for the minterms
that were given and for no others (`solutions_cover_minterms`), and no sum of products for the same function
is shorter, whatever its products (`solution_length_le`).
-/

set_option autoImplicit false

namespace PrimeCover

open Petrick (ofCoverage)
open Minimization (assemble coverOf labelsOf)

variable {minterms : List Nat}

/-! ## The stages together -/

/-- What a minimization rests on: a pool of all prime implicants, a reduced problem with the same covers, and
the cheapest hitting sets of what is left. -/
theorem exists_minimize_eq_ok (hnodup : minterms.Nodup) (hbound : ∀ m ∈ minterms, m < 1024) :
    ∃ pool c, Tabulation.ListsPrimes (Minterm.width minterms) minterms pool ∧
      Coverage.KeepsCovers minterms pool c ∧
      minimize minterms = .ok ((ofCoverage c).solve.map (assemble (ofCoverage c) c.primes)) := by
  have hcheck : Minterm.check minterms = .ok () := Minterm.check_eq_ok_iff.mpr ⟨hnodup, hbound⟩
  obtain ⟨leaves, hleaves, hsolve⟩ := Minimization.solve_eq_ok hcheck
  have hpool := Minimization.listsPrimes_candidates hnodup hleaves
  have hstart : Coverage.KeepsCovers minterms (Tabulation.ofTerms leaves).candidates
      (Coverage.start minterms.mergeSort (Tabulation.ofTerms leaves).candidates) :=
    Coverage.keepsCovers_start fun m => List.mem_mergeSort
  refine ⟨_, _, hpool, hstart.reduce (Minimization.incomparable_of_listsPrimes hpool), ?_⟩
  unfold minimize
  rw [hsolve]
  simp only [bind, Except.bind, pure, Except.pure]
  rw [Minimization.solutions_ofLeaves, Minimization.coverage_ofLeaves]

/-- The minterms of a sum of products are those of its products together. -/
theorem SumOfProducts.mem_covered {s : SumOfProducts} {m : Nat} : m ∈ s.covered ↔ ∃ t ∈ s.products, m ∈ t.covered := by
  have hfold : ∀ (terms : List Term) (start : NatSet),
      m ∈ terms.foldl (fun covered t => covered ∪ t.covered) start ↔
        m ∈ start ∨ ∃ t ∈ terms, m ∈ t.covered := by
    intro terms
    induction terms with
    | nil => simp
    | cons t terms ih =>
      intro start
      rw [List.foldl_cons, ih, NatSet.mem_union, List.exists_mem_cons_iff, or_assoc]
  unfold SumOfProducts.covered
  rw [hfold]
  exact or_iff_right NatSet.not_mem_empty

/-- A sum of exact products covers what its patterns stand for. -/
theorem SumOfProducts.mem_covered_of_exact {s : SumOfProducts} (h : ∀ t ∈ s.products, t.Exact) (m : Nat) :
    m ∈ s.covered ↔ ∃ p ∈ s.patterns, m ∈ p := by
  rw [SumOfProducts.mem_covered]
  unfold SumOfProducts.patterns
  constructor
  · rintro ⟨t, ht, hm⟩
    exact ⟨t.pattern, List.mem_map_of_mem ht, (h t ht m).mp hm⟩
  · rintro ⟨p, hp, hm⟩
    obtain ⟨t, ht, rfl⟩ := List.mem_map.mp hp
    exact ⟨t, ht, (h t ht m).mpr hm⟩

/-- The length of the patterns of a function is the number of digits of its largest minterm; a function
without minterms has no prime implicants of any length. -/
theorem isPrime_iff_width {n : Nat} (hn : ∀ top, minterms.max? = some top → n = Binary.length top)
    {p : Pattern} : p.IsPrime n minterms ↔ p.IsPrime (Minterm.width minterms) minterms := by
  cases hmax : minterms.max? with
  | none =>
    have hnil : minterms = [] := List.max?_eq_none_iff.mp hmax
    have hnone : ∀ length, ¬ p.IsPrime length minterms := by
      intro length hp
      obtain ⟨m, hm⟩ := p.exists_mem
      have hlisted := hp.1.2 m hm
      rw [hnil] at hlisted
      exact List.not_mem_nil hlisted
    exact iff_of_false (hnone n) (hnone _)
  | some top => rw [hn top hmax, Minterm.width_eq_length_of_max? hmax]

/-- To be a prime cover at the length of the largest minterm is to be one at the width of the list. -/
theorem isPrimeCover_iff_width {n : Nat} (hn : ∀ top, minterms.max? = some top → n = Binary.length top)
    {cover : Finset Pattern} :
    IsPrimeCover n minterms cover ↔ IsPrimeCover (Minterm.width minterms) minterms cover := by
  constructor
  · intro h
    exact ⟨fun p hp => (isPrime_iff_width hn).mp (h.isPrime p hp), h.covers⟩
  · intro h
    exact ⟨fun p hp => (isPrime_iff_width hn).mpr (h.isPrime p hp), h.covers⟩

/-! ## Coverage -/

/-- The function without minterms has the empty sum as its only solution. -/
theorem minimize_nil : minimize [] = .ok [⟨[]⟩] := by cbv

/-- An accepted list has at least one solution, and every solution stands for exactly the listed minterms, both
by the patterns of its products and by what they were folded from. The patterns have as many positions as the
largest minterm has digits. The empty list has the empty sum as its only solution. -/
theorem solutions_cover_minterms (hnodup : minterms.Nodup) (hbound : ∀ m ∈ minterms, m < 1024) :
    ∃ solutions, minimize minterms = .ok solutions ∧ solutions ≠ [] ∧
      (∀ s ∈ solutions,
        (∀ m, (∃ p ∈ s.patterns, m ∈ p) ↔ m ∈ minterms) ∧
        (∀ m, m ∈ s.covered ↔ m ∈ minterms) ∧
        ∀ top, minterms.max? = some top → ∀ p ∈ s.patterns, p.length = Binary.length top) ∧
      (minterms = [] → solutions = [⟨[]⟩]) := by
  obtain ⟨pool, c, hpool, hc, hminimize⟩ := exists_minimize_eq_ok hnodup hbound
  refine ⟨_, hminimize, ?_, ?_, ?_⟩
  · have hwidth : Minterm.width minterms ≤ maxVariables := (Minterm.width_le_iff_lt (by decide)).mpr hbound
    obtain ⟨cover, hcover⟩ := exists_isPrimeCover hwidth fun m hm => Minterm.lt_capacity_width hm
    obtain ⟨labels, hlabels⟩ := Petrick.exists_mem_solve (Minimization.hits_labelsOf hpool hc hcover).2
    exact List.ne_nil_of_mem (List.mem_map_of_mem hlabels)
  · intro s hs
    obtain ⟨labels, hlabels, rfl⟩ := List.mem_map.mp hs
    have hcover := (Minimization.isMinimumPrimeCover_coverOf hpool hc hlabels).1
    have hpatterns : ∀ p, p ∈ (assemble (ofCoverage c) c.primes labels).patterns ↔ p ∈ coverOf c labels :=
      fun p => List.mem_toFinset.symm
    have hmeaning : ∀ m, (∃ p ∈ (assemble (ofCoverage c) c.primes labels).patterns, m ∈ p) ↔ m ∈ minterms := by
      intro m
      simp only [hpatterns]
      exact hcover.exists_mem_iff m
    have hexact : ∀ t ∈ (assemble (ofCoverage c) c.primes labels).products, t.Exact :=
      fun t ht => hpool.exact t (Minimization.mem_pool_of_mem_products hc ht)
    refine ⟨hmeaning, ?_, ?_⟩
    · intro m
      rw [SumOfProducts.mem_covered_of_exact hexact m]
      exact hmeaning m
    · intro top htop p hp
      rw [← Minterm.width_eq_length_of_max? htop]
      exact (hcover.isPrime p ((hpatterns p).mp hp)).1.1
  · rintro rfl
    exact Except.ok.inj (hminimize.symm.trans minimize_nil)

/-- The six minterms of the cyclic function are distinct and small enough. -/
theorem solutions_cover_minterms_cyclic :
    ([6, 0, 5, 1, 7, 2].Nodup ∧ ∀ m ∈ [6, 0, 5, 1, 7, 2], m < 1024) ∧
      ∃ solutions, minimize [6, 0, 5, 1, 7, 2] = .ok solutions ∧ solutions ≠ [] ∧
        (∀ s ∈ solutions,
          (∀ m, (∃ p ∈ s.patterns, m ∈ p) ↔ m ∈ [6, 0, 5, 1, 7, 2]) ∧
          (∀ m, m ∈ s.covered ↔ m ∈ [6, 0, 5, 1, 7, 2]) ∧
          ∀ top, [6, 0, 5, 1, 7, 2].max? = some top → ∀ p ∈ s.patterns, p.length = Binary.length top) ∧
        ([6, 0, 5, 1, 7, 2] = [] → solutions = [⟨[]⟩]) :=
  ⟨⟨by decide, by decide⟩, solutions_cover_minterms (by decide) (by decide)⟩

/-! ## Minimality -/

/-- No list of patterns that stands for the function is shorter than a solution. -/
theorem solution_length_le {n : Nat} {patterns : List Pattern} (hnodup : minterms.Nodup)
    (hbound : ∀ m ∈ minterms, m < 1024) (hn : ∀ top, minterms.max? = some top → n = Binary.length top)
    (hlength : ∀ p ∈ patterns, p.length = n) (hcovered : ∀ m, (∃ p ∈ patterns, m ∈ p) ↔ m ∈ minterms) :
    ∃ solutions, minimize minterms = .ok solutions ∧ ∀ s ∈ solutions, s.length ≤ patterns.length := by
  obtain ⟨pool, c, hpool, hc, hminimize⟩ := exists_minimize_eq_ok hnodup hbound
  refine ⟨_, hminimize, ?_⟩
  intro s hs
  obtain ⟨labels, hlabels, rfl⟩ := List.mem_map.mp hs
  obtain ⟨cover, hcover, hcard⟩ := exists_isPrimeCover_card_le hlength hcovered
  have hleast := (Minimization.isMinimumPrimeCover_coverOf hpool hc hlabels).2 cover
    ((isPrimeCover_iff_width hn).mp hcover)
  calc (assemble (ofCoverage c) c.primes labels).length
      = (assemble (ofCoverage c) c.primes labels).patterns.length := (List.length_map _).symm
    _ = (coverOf c labels).card :=
        (List.toFinset_card_of_nodup (Minimization.nodup_patterns_assemble hpool hc labels)).symm
    _ ≤ cover.card := hleast
    _ ≤ patterns.length := hcard

/-- Three products are enough for a function of six minterms that has no essential prime implicant. -/
theorem solution_length_le_cyclic :
    ∃ patterns : List Pattern, patterns.length = 3 ∧ (∀ p ∈ patterns, p.length = 3) ∧
      (∀ m, (∃ p ∈ patterns, m ∈ p) ↔ m ∈ [6, 0, 5, 1, 7, 2]) ∧
      ∃ solutions, minimize [6, 0, 5, 1, 7, 2] = .ok solutions ∧ ∀ s ∈ solutions, s.length ≤ patterns.length := by
  let patterns : List Pattern :=
    [⟨[.zero, .zero, .free], by decide⟩, ⟨[.free, .one, .zero], by decide⟩, ⟨[.one, .free, .one], by decide⟩]
  have hlength : ∀ p ∈ patterns, p.length = 3 := by decide
  have hlisted : ∀ m ∈ [6, 0, 5, 1, 7, 2], m < 8 := by decide
  have hsmall : ∀ m < 8, (∃ p ∈ patterns, m ∈ p) ↔ m ∈ [6, 0, 5, 1, 7, 2] := by decide
  have hcovered : ∀ m, (∃ p ∈ patterns, m ∈ p) ↔ m ∈ [6, 0, 5, 1, 7, 2] := by
    intro m
    constructor
    · rintro ⟨p, hp, hm⟩
      have hfits : m < Binary.capacity p.length := hm.1
      rw [hlength p hp] at hfits
      exact (hsmall m hfits).mp ⟨p, hp, hm⟩
    · intro hm
      exact (hsmall m (hlisted m hm)).mpr hm
  exact ⟨patterns, rfl, hlength, hcovered,
    solution_length_le (by decide) (by decide) (by decide) hlength hcovered⟩

/-! ## Completeness -/

/-- Read as sets of patterns, the solutions are the smallest covers by prime implicants: every solution lists
distinct patterns that are such a cover, no cover is given twice, and none is missing. -/
theorem solutions_iff_isMinimumPrimeCover {n : Nat} (hnodup : minterms.Nodup)
    (hbound : ∀ m ∈ minterms, m < 1024) (hn : ∀ top, minterms.max? = some top → n = Binary.length top) :
    ∃ solutions, minimize minterms = .ok solutions ∧
      (∀ s ∈ solutions, s.patterns.Nodup ∧ IsMinimumPrimeCover n minterms s.patterns.toFinset) ∧
      (solutions.map fun s => s.patterns.toFinset).Nodup ∧
      ∀ cover, IsMinimumPrimeCover n minterms cover → ∃ s ∈ solutions, s.patterns.toFinset = cover := by
  obtain ⟨pool, c, hpool, hc, hminimize⟩ := exists_minimize_eq_ok hnodup hbound
  have hwidth : ∀ cover, IsMinimumPrimeCover n minterms cover ↔
      IsMinimumPrimeCover (Minterm.width minterms) minterms cover := by
    intro cover
    unfold IsMinimumPrimeCover
    simp only [isPrimeCover_iff_width hn]
  refine ⟨_, hminimize, ?_, ?_, ?_⟩
  · intro s hs
    obtain ⟨labels, hlabels, rfl⟩ := List.mem_map.mp hs
    refine ⟨Minimization.nodup_patterns_assemble hpool hc labels, ?_⟩
    exact (hwidth _).mpr (Minimization.isMinimumPrimeCover_coverOf hpool hc hlabels)
  · rw [List.map_map]
    refine List.Nodup.map_on ?_ (Petrick.nodup_solve _)
    intro first hfirst second hsecond hsame
    calc first = labelsOf c (coverOf c first) := (Minimization.labelsOf_coverOf hpool hc hfirst).symm
      _ = labelsOf c (coverOf c second) := congrArg (labelsOf c) hsame
      _ = second := Minimization.labelsOf_coverOf hpool hc hsecond
  · intro cover hcover
    rw [hwidth] at hcover
    refine ⟨_, List.mem_map_of_mem (Minimization.labelsOf_mem_solve hpool hc hcover), ?_⟩
    exact Minimization.coverOf_labelsOf hpool hc hcover.1

/-- The minterms of the cyclic function need three digits. -/
theorem solutions_iff_isMinimumPrimeCover_cyclic :
    ([6, 0, 5, 1, 7, 2].Nodup ∧ (∀ m ∈ [6, 0, 5, 1, 7, 2], m < 1024) ∧
        ∀ top, [6, 0, 5, 1, 7, 2].max? = some top → 3 = Binary.length top) ∧
      ∃ solutions, minimize [6, 0, 5, 1, 7, 2] = .ok solutions ∧
        (∀ s ∈ solutions,
          s.patterns.Nodup ∧ IsMinimumPrimeCover 3 [6, 0, 5, 1, 7, 2] s.patterns.toFinset) ∧
        (solutions.map fun s => s.patterns.toFinset).Nodup ∧
        ∀ cover, IsMinimumPrimeCover 3 [6, 0, 5, 1, 7, 2] cover → ∃ s ∈ solutions, s.patterns.toFinset = cover :=
  ⟨⟨by decide, by decide, by decide⟩, solutions_iff_isMinimumPrimeCover (by decide) (by decide) (by decide)⟩

end PrimeCover
