import Mathlib
import PrimeCover.Proofs.Tabulation.Primes

/-!
# The levels of a tabulation of minterms

`ListsImplicants` says which implicants the level at a place lists; bucket by bucket they are told apart by their
weight (`ListsImplicants.mem_bucket_iff`). What remains for a whole account of the levels is their number and their
shape. The first level has a bucket for each number of ones up to the largest one, as the weight of the term of a
minterm is its number of ones (`Term.map_weight_leaves`). There are as many levels as numbers of free positions
(`isGreatest_freeCount`): an implicant has a level for each number up to its own, and since a level comes only from a
merge, none is without terms (`exists_mem_of_level`).
-/

set_option autoImplicit false

namespace PrimeCover

/-! ## The weight of a minterm -/

namespace Binary

/-- The digits of a number are those of its half and then the lowest one. -/
theorem digits_succ_eq_append (width n : Nat) : digits (width + 1) n = digits width (n / 2) ++ [n.testBit 0] := by
  induction width with
  | zero => rfl
  | succ width ih => rw [digits, ih, digits, List.cons_append, Nat.testBit_succ]

/-- At a width that suffices, the digits have the ones of the number. -/
theorem count_digits {width n : Nat} (h : n < capacity width) :
    (digits width n).count true = (Nat.digits 2 n).count 1 := by
  induction width generalizing n with
  | zero =>
    have hzero : n = 0 := Nat.lt_one_iff.mp h
    rw [hzero, Nat.digits_zero]
    rfl
  | succ width ih =>
    rw [capacity_succ] at h
    -- the library lists the digits from the lowest one on, so the induction takes this one off
    have hhalf := ih (Nat.div_lt_of_lt_mul h)
    rw [digits_succ_eq_append, List.count_append, hhalf]
    rcases Nat.eq_zero_or_pos n with rfl | hpos
    · simp
    · rw [Nat.digits_def' Nat.one_lt_two hpos, Nat.testBit_zero]
      simp [List.count_cons]

end Binary

/-- The pattern of a number has as many ones as the number has in binary. -/
theorem Pattern.weight_of_ofMinterm {value length : Nat} {p : Pattern} (h : Pattern.ofMinterm value length = .ok p) :
    p.weight = (Nat.digits 2 value).count 1 := by
  obtain ⟨-, hvalue, htrits⟩ := ofMinterm_eq_ok_iff.mp h
  have hinjective : Function.Injective Trit.ofBool := by decide
  unfold weight
  rw [htrits, ← Binary.count_digits hvalue]
  exact List.count_map_of_injective _ Trit.ofBool hinjective true

/-- The terms of minterms have the ones of the minterms as their weights. -/
theorem Term.map_weight_leaves {length : Nat} {values : List Nat} {leaves : List Term}
    (h : List.Forall₂ (fun v t => Term.leaf v length = .ok t) values leaves) :
    leaves.map Term.weight = values.map fun v => (Nat.digits 2 v).count 1 := by
  induction h with
  | nil => rfl
  | cons hleaf _ ih =>
    rw [List.map_cons, List.map_cons, ih, Term.weight, Pattern.weight_of_ofMinterm (leaf_eq_ok_iff.mp hleaf).1]

/-! ## The buckets of a level -/

namespace Level

variable {length k : Nat} {minterms : List Nat} {buckets : List Bucket}

/-- The bucket at a place lists the implicants of this weight. -/
theorem ListsImplicants.mem_bucket_iff (h : ListsImplicants length minterms k buckets) {i : Nat} {bucket : Bucket}
    (hbucket : buckets[i]? = some bucket) (p : Pattern) :
    p ∈ bucket.map Term.pattern ↔ p.IsImplicant length minterms ∧ p.freeCount = k ∧ p.weight = i := by
  constructor
  · intro hp
    obtain ⟨t, ht, rfl⟩ := List.mem_map.mp hp
    obtain ⟨hmem, hweight⟩ := (exists_bucket_iff h.wellWeighted).mp ⟨bucket, hbucket, ht⟩
    obtain ⟨himp, hfree⟩ := (h.mem_patterns t.pattern).mp (List.mem_map_of_mem hmem)
    exact ⟨himp, hfree, hweight⟩
  · rintro ⟨himp, hfree, hweight⟩
    obtain ⟨t, hmem, rfl⟩ := List.mem_map.mp ((h.mem_patterns p).mpr ⟨himp, hfree⟩)
    obtain ⟨other, hother, ht⟩ := (exists_bucket_iff h.wellWeighted).mpr ⟨hmem, hweight⟩
    rw [hbucket, Option.some.injEq] at hother
    rw [hother]
    exact List.mem_map_of_mem ht

/-- No bucket lists an implicant twice. -/
theorem ListsImplicants.nodup_bucket (h : ListsImplicants length minterms k buckets) {bucket : Bucket}
    (hbucket : bucket ∈ buckets) : (bucket.map Term.pattern).Nodup :=
  h.nodup.sublist ((List.sublist_flatten_of_mem hbucket).map Term.pattern)

end Level

/-! ## The number of levels -/

namespace Tabulation

variable {length : Nat} {minterms : List Nat} {buckets : List Bucket} {level : Level}

/-- No level is without terms, since a step to another level is made only where something merges. -/
theorem exists_mem_of_level (hweighted : Level.WellWeighted buckets) (hstart : ∃ t, t ∈ buckets.flatten) {i : Nat}
    (hi : (levelsFrom buckets)[i]? = some level) : ∃ t, t ∈ level.terms := by
  cases i with
  | zero =>
    rw [getElem?_levelsFrom_zero, Option.some.injEq] at hi
    rw [← hi]
    exact hstart
  | succ i =>
    obtain ⟨before, hbefore, hmerged, rfl⟩ := exists_of_getElem?_succ hi
    exact Level.exists_mem_next_of_merged (wellWeighted_levelsFrom hweighted hbefore) hmerged

/-- The last level is that of the implicants with the most free positions. -/
theorem isGreatest_freeCount (h : Level.ListsImplicants length minterms 0 buckets)
    (hstart : ∃ t, t ∈ buckets.flatten) :
    IsGreatest {k | ∃ p : Pattern, p.IsImplicant length minterms ∧ p.freeCount = k}
      ((levelsFrom buckets).length - 1) := by
  have hpos := length_levelsFrom_pos buckets
  constructor
  · have hlast := List.getElem?_eq_getElem (Nat.sub_lt hpos Nat.one_pos)
    obtain ⟨t, ht⟩ := exists_mem_of_level h.wellWeighted hstart hlast
    have hlists := listsImplicants_levelsFrom h hlast
    exact ⟨t.pattern, (hlists.mem_patterns t.pattern).mp (List.mem_map_of_mem ht)⟩
  · rintro _ ⟨p, hp, rfl⟩
    obtain ⟨level, hlevel⟩ := exists_level_of_isImplicant h hp (Nat.le_refl p.freeCount)
    exact Nat.le_sub_one_of_lt (List.getElem?_eq_some_iff.mp hlevel).1

/-- For distinct values of at most ten digits, in any order, the level at place `k` of the tabulation of their terms
lists the implicants with `k` free positions, each once, in buckets by their weight, and checks those that are not
prime. The first level has a bucket for each number of ones up to the largest one among the values, every level
one bucket less than the one before it, and there is a level for each number of free positions up to the largest
one among the implicants. -/
theorem levels_list_implicants {length : Nat} {values : List Nat} (hlength : length ≤ maxVariables)
    (hvalues : ∀ v ∈ values, v < 2 ^ length) (hnodup : values.Nodup) (hne : values ≠ []) :
    ∃ leaves, (values.mapM fun v => Term.leaf v length) = .ok leaves ∧
      ∃ most widest, (values.map fun v => (Nat.digits 2 v).count 1).max? = some most ∧
        IsGreatest {k | ∃ p : Pattern, p.IsImplicant length values ∧ p.freeCount = k} widest ∧
        (ofTerms leaves).levels.length = widest + 1 ∧
        ∀ k level, (ofTerms leaves).levels[k]? = some level →
          level.buckets.length + k = most + 1 ∧
          (∀ i bucket, level.buckets[i]? = some bucket →
            (bucket.map Term.pattern).Nodup ∧
            ∀ p : Pattern, p ∈ bucket.map Term.pattern ↔
              p.IsImplicant length values ∧ p.freeCount = k ∧ p.weight = i) ∧
          ∀ t ∈ level.terms, level.isChecked t = true ↔ ¬ t.pattern.IsPrime length values := by
  obtain ⟨leaves, hleaves⟩ := Term.exists_mapM_leaf hlength hvalues
  have hforall := Term.mapM_leaf_eq_ok_iff.mp hleaves
  have hlists := Level.listsImplicants_group hnodup hforall
  have hnonempty : leaves ≠ [] := by
    rintro rfl
    exact hne (List.forall₂_nil_right_iff.mp hforall)
  have hstart : ∃ t, t ∈ (Level.group leaves).flatten := by
    obtain ⟨t, ht⟩ := List.exists_mem_of_ne_nil leaves hnonempty
    exact ⟨t, (Level.flatten_group_perm leaves).mem_iff.mpr ht⟩
  obtain ⟨most, hmost⟩ := Option.isSome_iff_exists.mp
    (List.isSome_max?_of_mem (List.mem_map_of_mem (f := Term.weight) (List.head_mem hnonempty)))
  have hgroup : (Level.group leaves).length = most + 1 := Level.length_group hmost
  have hpos := length_levelsFrom_pos (Level.group leaves)
  rw [Term.map_weight_leaves hforall] at hmost
  refine ⟨leaves, hleaves, most, _, hmost, isGreatest_freeCount hlists hstart, ?_, ?_⟩
  · rw [ofTerms_eq hnonempty]
    exact (Nat.sub_add_cancel hpos).symm
  · intro k level hlevel
    rw [ofTerms_eq hnonempty] at hlevel
    have hk := listsImplicants_levelsFrom hlists hlevel
    refine ⟨?_, ?_, ?_⟩
    · rw [← hgroup]
      exact (length_buckets_add (List.ne_nil_of_length_eq_add_one hgroup) hlevel).2
    · intro i bucket hbucket
      exact ⟨hk.nodup_bucket (List.mem_of_getElem? hbucket), hk.mem_bucket_iff hbucket⟩
    · intro t ht
      rw [eq_levelOf_of_mem (List.mem_of_getElem? hlevel)]
      exact hk.isChecked_iff ht

/-- Minterms 7, 0 and 1 in three digits leave the bucket of weight two empty. -/
theorem levels_list_implicants_gap :
    (3 ≤ maxVariables ∧ (∀ v ∈ [7, 0, 1], v < 2 ^ 3) ∧ [7, 0, 1].Nodup ∧ [7, 0, 1] ≠ []) ∧
      ∃ leaves, ([7, 0, 1].mapM fun v => Term.leaf v 3) = .ok leaves ∧
        ∃ most widest, ([7, 0, 1].map fun v => (Nat.digits 2 v).count 1).max? = some most ∧
          IsGreatest {k | ∃ p : Pattern, p.IsImplicant 3 [7, 0, 1] ∧ p.freeCount = k} widest ∧
          (ofTerms leaves).levels.length = widest + 1 ∧
          ∀ k level, (ofTerms leaves).levels[k]? = some level →
            level.buckets.length + k = most + 1 ∧
            (∀ i bucket, level.buckets[i]? = some bucket →
              (bucket.map Term.pattern).Nodup ∧
              ∀ p : Pattern, p ∈ bucket.map Term.pattern ↔
                p.IsImplicant 3 [7, 0, 1] ∧ p.freeCount = k ∧ p.weight = i) ∧
            ∀ t ∈ level.terms, level.isChecked t = true ↔ ¬ t.pattern.IsPrime 3 [7, 0, 1] :=
  ⟨⟨by decide, by decide, by decide, by decide⟩,
    levels_list_implicants (by decide) (by decide) (by decide) (by decide)⟩

end Tabulation

end PrimeCover
