import Mathlib
import PrimeCover.Proofs.Tabulation.Conservation

/-!
# The merges of all pairs

Merges are looked for between a bucket and the next one only, with the term of the lower weight first, and repeated
patterns are dropped within one pair of buckets only. Nothing is lost by this: terms merge only if their weights differ by
one, whichever comes first. Nothing is repeated either: the merged pattern has the lower of the two weights, so that two
pairs of buckets never give the same pattern. What the next level holds are therefore the merges of all pairs of terms of
the level, and as built terms are determined by their patterns, it makes no difference which of several equal merges is
kept (`mem_flatten_next_iff`). Main statement: `next_lists_merges_of_all_pairs`.
-/

set_option autoImplicit false

namespace PrimeCover

namespace Term

variable {a b t : Term}

/-- Terms merge exactly when they are adjacent. -/
theorem exists_merge?_iff_adjacent : (∃ t, a.merge? b = some t) ↔ a.adjacent b = true := by
  unfold merge?
  simp only [Option.ite_none_right_eq_some, exists_and_left, Option.some.injEq, exists_eq', and_true]

/-- No term merges with itself. -/
theorem ne_of_merge? (h : a.merge? b = some t) : b ≠ a := by
  rintro rfl
  have hweights := Pattern.weight_of_merge? (merge?_eq_some_iff.mp h).1
  omega

end Term

namespace Level

variable {buckets : List Bucket} {p : Pattern} {t : Term}

/-- The terms of the next level are the merges of all pairs of terms of the level. -/
theorem mem_flatten_next_iff (h : WellWeighted buckets) (hbuilt : ∀ t ∈ buckets.flatten, t.Built) :
    t ∈ (next (merges buckets)).flatten ↔
      ∃ a ∈ buckets.flatten, ∃ b ∈ buckets.flatten, a.merge? b = some t := by
  refine ⟨exists_merge?_of_mem_flatten_next h, ?_⟩
  rintro ⟨a, ha, b, hb, hmerge⟩
  have hpattern := (mem_patterns_next h).mpr ⟨a, ha, b, hb, (Term.merge?_eq_some_iff.mp hmerge).1⟩
  obtain ⟨kept, hkept, hsame⟩ := List.mem_map.mp hpattern
  obtain ⟨c, hc, d, hd, hother⟩ := exists_merge?_of_mem_flatten_next h hkept
  have hexact : t.Exact := (Term.Built.merge (hbuilt a ha) (hbuilt b hb) hmerge).exact
  have hkeptExact : kept.Exact := (Term.Built.merge (hbuilt c hc) (hbuilt d hd) hother).exact
  rwa [← hkeptExact.eq_of_pattern hexact hsame]

/-- The checked patterns are those of the terms that merge with another term of the level. -/
theorem mem_checked_iff_merges (h : WellWeighted buckets) :
    p ∈ (ofMerges buckets (merges buckets)).checked ↔
      ∃ t ∈ buckets.flatten, t.pattern = p ∧ ∃ u ∈ buckets.flatten, u ≠ t ∧ ∃ r, t.merge? u = some r := by
  rw [mem_checked_iff h]
  refine exists_congr fun t => and_congr_right fun _ => and_congr_right fun _ => exists_congr fun u =>
    and_congr_right fun _ => ?_
  rw [← Term.exists_merge?_iff_adjacent]
  constructor
  · rintro ⟨r, hr⟩
    exact ⟨Term.ne_of_merge? hr, r, hr⟩
  · rintro ⟨-, hmerges⟩
    exact hmerges

/-- For buckets of built terms by weight, whatever their lengths and free positions and however often they are repeated:
the next level has a bucket for each pair of neighbours and holds in the bucket at each place terms of this weight only.
No pattern stands twice in it, its patterns are those that any two terms of the level merge to, and its terms are these
merges. A pattern is checked exactly when it belongs to a term that merges with another term of the level. -/
theorem next_lists_merges_of_all_pairs {buckets : List Bucket}
    (hweight : ∀ (i : Nat) (bucket : Bucket), buckets[i]? = some bucket → ∀ t ∈ bucket, t.weight = i)
    (hbuilt : ∀ t ∈ buckets.flatten, t.Built) :
    (next (merges buckets)).length = buckets.length - 1 ∧
      (∀ (i : Nat) (bucket : Bucket), (next (merges buckets))[i]? = some bucket → ∀ t ∈ bucket, t.weight = i) ∧
      ((next (merges buckets)).flatten.map Term.pattern).Nodup ∧
      (∀ p, p ∈ (next (merges buckets)).flatten.map Term.pattern ↔
        ∃ a ∈ buckets.flatten, ∃ b ∈ buckets.flatten, a.pattern.merge? b.pattern = some p) ∧
      (∀ t, t ∈ (next (merges buckets)).flatten ↔
        ∃ a ∈ buckets.flatten, ∃ b ∈ buckets.flatten, a.merge? b = some t) ∧
      ∀ p, p ∈ (ofMerges buckets (merges buckets)).checked ↔
        ∃ t ∈ buckets.flatten, t.pattern = p ∧ ∃ u ∈ buckets.flatten, u ≠ t ∧ ∃ r, t.merge? u = some r := by
  refine ⟨?_, wellWeighted_next hweight, nodup_patterns_next hweight, fun _ => mem_patterns_next hweight,
    fun _ => mem_flatten_next_iff hweight hbuilt, fun _ => mem_checked_iff_merges hweight⟩
  unfold next
  rw [List.length_map, length_merges]

/-! ### Terms of several shapes -/

/-- Terms of two lengths in three buckets. The second bucket merges with both of its neighbours. -/
def mixedBuckets : List Bucket :=
  group (Tabulation.mixedPatterns.map Term.ofPattern)

/-- The mixed buckets hold whole patterns. -/
theorem built_of_mem_mixedBuckets : ∀ t ∈ mixedBuckets.flatten, t.Built := by
  intro t ht
  obtain ⟨p, -, rfl⟩ := List.mem_map.mp ((flatten_group_perm _).mem_iff.mp ht)
  exact .ofPattern p

/-- The mixed buckets are by weight and hold built terms. -/
theorem next_lists_merges_of_all_pairs_mixed :
    ((∀ (i : Nat) (bucket : Bucket), mixedBuckets[i]? = some bucket → ∀ t ∈ bucket, t.weight = i) ∧
        ∀ t ∈ mixedBuckets.flatten, t.Built) ∧
      (next (merges mixedBuckets)).length = mixedBuckets.length - 1 ∧
      (∀ (i : Nat) (bucket : Bucket), (next (merges mixedBuckets))[i]? = some bucket → ∀ t ∈ bucket, t.weight = i) ∧
      ((next (merges mixedBuckets)).flatten.map Term.pattern).Nodup ∧
      (∀ p, p ∈ (next (merges mixedBuckets)).flatten.map Term.pattern ↔
        ∃ a ∈ mixedBuckets.flatten, ∃ b ∈ mixedBuckets.flatten, a.pattern.merge? b.pattern = some p) ∧
      (∀ t, t ∈ (next (merges mixedBuckets)).flatten ↔
        ∃ a ∈ mixedBuckets.flatten, ∃ b ∈ mixedBuckets.flatten, a.merge? b = some t) ∧
      ∀ p, p ∈ (ofMerges mixedBuckets (merges mixedBuckets)).checked ↔
        ∃ t ∈ mixedBuckets.flatten, t.pattern = p ∧ ∃ u ∈ mixedBuckets.flatten, u ≠ t ∧ ∃ r, t.merge? u = some r :=
  ⟨⟨wellWeighted_group _, built_of_mem_mixedBuckets⟩,
    next_lists_merges_of_all_pairs (wellWeighted_group _) built_of_mem_mixedBuckets⟩

-- a merge that is found twice
example : (merges mixedBuckets).map (·.map fun m => toString m.result) = [["0-", "--", "--"], ["-1"]] := by
  cbv

end Level

end PrimeCover
