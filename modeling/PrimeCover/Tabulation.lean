import PrimeCover.Term
import Std.Data.HashSet

/-!
# Tabulation

The first stage of the method. Terms are grouped into buckets by weight. Whatever merges between two
neighbouring buckets gives a bucket of the next level, in which a pattern is kept once; the terms that took
part are checked. The levels end with the first one in which nothing merges. The candidates are the terms of
this last level and the unchecked ones of the levels before it.
-/

set_option autoImplicit false

namespace PrimeCover

/-- Terms of the same weight. -/
abbrev Bucket := List Term

/-- Two terms and what they merge to. -/
structure Merge where
  /-- The term of the lower weight. -/
  low : Term
  /-- The term of the higher weight. -/
  high : Term
  /-- The term that both merge to. -/
  result : Term

namespace Bucket

/-- All merges of a term of one bucket with a term of another one, in the order of the first. -/
def merges (low high : Bucket) : List Merge :=
  low.flatMap fun a => (high.filter a.adjacent).map fun b => ⟨a, b, a.join b⟩

/-- Keeps the first term of every pattern that was not seen before. -/
def distinctFrom (seen : Std.HashSet Pattern) : List Term → Bucket
  | [] => []
  | t :: rest =>
    if t.pattern ∈ seen then distinctFrom seen rest
    else t :: distinctFrom (seen.insert t.pattern) rest

/-- Keeps the first term of every pattern. -/
def distinct (terms : List Term) : Bucket :=
  distinctFrom ∅ terms

/-- The merges of two buckets are those of adjacent terms, the first one from the lower bucket. -/
theorem mem_merges {low high : Bucket} {m : Merge} :
    m ∈ merges low high ↔
      m.low ∈ low ∧ m.high ∈ high ∧ m.low.adjacent m.high = true ∧ m.result = m.low.join m.high := by
  simp only [merges, List.mem_flatMap, List.mem_map, List.mem_filter]
  constructor
  · rintro ⟨a, ha, b, ⟨hb, merging⟩, rfl⟩
    exact ⟨ha, hb, merging, rfl⟩
  · rintro ⟨ha, hb, merging, same⟩
    exact ⟨m.low, ha, m.high, ⟨hb, merging⟩, by rw [← same]⟩

/-- The terms that are kept have the patterns that were not seen before. -/
theorem mem_patterns_distinctFrom {seen : Std.HashSet Pattern} {terms : List Term} {p : Pattern} :
    p ∈ (distinctFrom seen terms).map Term.pattern ↔ p ∉ seen ∧ p ∈ terms.map Term.pattern := by
  induction terms generalizing seen with
  | nil => simp [distinctFrom]
  | cons t rest ih =>
    rw [distinctFrom]
    split
    · next known =>
      rw [ih, List.map_cons, List.mem_cons]
      refine and_congr_right fun fresh => ⟨.inr, fun either => either.resolve_left ?_⟩
      rintro rfl
      exact fresh known
    · next unknown =>
      rw [List.map_cons, List.mem_cons, ih, Std.HashSet.mem_insert, List.map_cons, List.mem_cons, beq_iff_eq]
      constructor
      · rintro (rfl | ⟨fresh, later⟩)
        · exact ⟨unknown, .inl rfl⟩
        · exact ⟨fun known => fresh (.inr known), .inr later⟩
      · rintro ⟨fresh, rfl | later⟩
        · exact .inl rfl
        · by_cases same : p = t.pattern
          · exact .inl same
          · exact .inr ⟨fun known => known.elim (fun h => same h.symm) fresh, later⟩

/-- The terms that are kept have different patterns. -/
theorem nodup_patterns_distinctFrom (seen : Std.HashSet Pattern) (terms : List Term) :
    ((distinctFrom seen terms).map Term.pattern).Nodup := by
  induction terms generalizing seen with
  | nil => exact .nil
  | cons t rest ih =>
    rw [distinctFrom]
    split
    · exact ih seen
    · rw [List.map_cons, List.nodup_cons, mem_patterns_distinctFrom]
      exact ⟨fun again => again.1 Std.HashSet.mem_insert_self, ih _⟩

end Bucket

/-- A level of the tabulation: its terms by weight, and the patterns that were used in a merge. -/
structure Level where
  /-- The terms of weight 0, 1, and so on. -/
  buckets : List Bucket
  /-- The patterns of the terms that merged. -/
  checked : Std.HashSet Pattern

namespace Level

/-- All terms of a level. -/
def terms (level : Level) : List Term :=
  level.buckets.flatten

/-- Whether a term of this level was used in a merge. -/
def isChecked (level : Level) (t : Term) : Bool :=
  level.checked.contains t.pattern

/-- The terms of a level that were not used in a merge. -/
def unchecked (level : Level) : List Term :=
  level.terms.filter (!level.isChecked ·)

/-- The buckets of a list of terms: one for each weight from zero to the largest one, in the order of the
list. -/
def group (terms : List Term) : List Bucket :=
  (List.range ((terms.map (·.weight + 1)).foldl max 0)).map fun weight => terms.filter (·.weight = weight)

/-- The merges between each bucket and the next one. -/
def merges (buckets : List Bucket) : List (List Merge) :=
  List.zipWith Bucket.merges buckets buckets.tail

/-- The level of the given buckets and merges. -/
def ofMerges (buckets : List Bucket) (merges : List (List Merge)) : Level where
  buckets := buckets
  checked := Std.HashSet.ofList (merges.flatten.flatMap fun m => [m.low.pattern, m.high.pattern])

/-- The buckets of the next level: one for each pair of neighbours. -/
def next (merges : List (List Merge)) : List Bucket :=
  merges.map fun found => Bucket.distinct (found.map Merge.result)

/-- There are merges between neighbouring buckets only. -/
theorem length_merges (buckets : List Bucket) : (merges buckets).length = buckets.length - 1 := by
  rw [merges, List.length_zipWith, List.length_tail]
  exact Nat.min_eq_right (Nat.sub_le _ _)

end Level

/-- The record of a tabulation. -/
structure Tabulation where
  /-- The levels, starting with the terms that were given. -/
  levels : List Level

namespace Tabulation

/-- The levels that start with the given buckets; the first one in which nothing merges is the last one. -/
def levelsFrom (buckets : List Bucket) : List Level :=
  let merges := Level.merges buckets
  let level := Level.ofMerges buckets merges
  if merges.all List.isEmpty then [level]
  else level :: levelsFrom (Level.next merges)
termination_by buckets.length
decreasing_by
  next merged =>
  rw [Level.next, List.length_map, Level.length_merges]
  cases buckets with
  | nil => exact absurd rfl merged
  | cons bucket rest => exact Nat.lt_succ_self _

/-- Tabulates a list of terms. -/
def ofTerms (terms : List Term) : Tabulation where
  levels := if terms.isEmpty then [] else levelsFrom (Level.group terms)

/-- The terms of the last level, then the unchecked ones of the levels before it. -/
def candidates (tabulation : Tabulation) : List Term :=
  (tabulation.levels.getLast?.map Level.terms).getD [] ++ tabulation.levels.dropLast.flatMap Level.unchecked

end Tabulation

end PrimeCover
