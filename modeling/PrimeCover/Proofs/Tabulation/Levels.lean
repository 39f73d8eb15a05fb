import Mathlib
import PrimeCover.Tabulation
import PrimeCover.Proofs.Term.Exactness

/-!
# One level of a tabulation

The buckets of a level are indexed by weight (`WellWeighted`). Since patterns that merge have weights that
differ by one, the search through neighbouring buckets misses nothing: the patterns of the next level are all
the merges of two terms of the level (`mem_patterns_next`), each of them occurs once
(`nodup_patterns_next`), and a pattern is checked exactly when its term merges with some term of the level
(`mem_checked_iff`). Where something merges, the next level has terms (`exists_mem_next_of_merged`). Nothing here
asks where the terms come from.
-/

set_option autoImplicit false

namespace PrimeCover

namespace Bucket

/-- To drop repeated patterns adds no term. -/
theorem mem_of_mem_distinctFrom {seen : Std.HashSet Pattern} {terms : List Term} {t : Term}
    (h : t ∈ distinctFrom seen terms) : t ∈ terms := by
  induction terms generalizing seen with
  | nil => exact h
  | cons u rest ih =>
    rw [distinctFrom] at h
    split at h
    · exact List.mem_cons_of_mem u (ih h)
    · rcases List.mem_cons.mp h with h | h
      · rw [h]
        exact List.mem_cons_self
      · exact List.mem_cons_of_mem u (ih h)

/-- To drop repeated patterns loses no pattern. -/
theorem mem_patterns_distinct {terms : List Term} {p : Pattern} :
    p ∈ (distinct terms).map Term.pattern ↔ p ∈ terms.map Term.pattern := by
  unfold distinct
  rw [mem_patterns_distinctFrom]
  exact and_iff_right Std.HashSet.not_mem_empty

end Bucket

namespace Level

variable {buckets : List Bucket}

/-- Each bucket holds only terms whose weight is the place of the bucket. -/
def WellWeighted (buckets : List Bucket) : Prop :=
  ∀ (i : Nat) (bucket : Bucket), buckets[i]? = some bucket → ∀ t ∈ bucket, t.weight = i

/-- A term stands in the bucket of its weight and in no other one. -/
theorem exists_bucket_iff (h : WellWeighted buckets) {i : Nat} {t : Term} :
    (∃ bucket, buckets[i]? = some bucket ∧ t ∈ bucket) ↔ t ∈ buckets.flatten ∧ t.weight = i := by
  constructor
  · rintro ⟨bucket, hbucket, ht⟩
    exact ⟨List.mem_flatten_of_mem (List.mem_of_getElem? hbucket) ht, h i bucket hbucket t ht⟩
  · rintro ⟨ht, rfl⟩
    obtain ⟨bucket, hbucket, ht⟩ := List.mem_flatten.mp ht
    obtain ⟨j, hj⟩ := List.mem_iff_getElem?.mp hbucket
    have hweight : t.weight = j := h j bucket hj t ht
    exact ⟨bucket, hweight ▸ hj, ht⟩

/-- Buckets without repeated patterns make up a level without repeated patterns, since the weight is part of
the pattern. -/
theorem WellWeighted.nodup_patterns (h : WellWeighted buckets)
    (hnodup : ∀ bucket ∈ buckets, (bucket.map Term.pattern).Nodup) :
    (buckets.flatten.map Term.pattern).Nodup := by
  rw [List.map_flatten, List.nodup_flatten]
  constructor
  · intro patterns hpatterns
    obtain ⟨bucket, hbucket, rfl⟩ := List.mem_map.mp hpatterns
    exact hnodup bucket hbucket
  · rw [List.pairwise_iff_getElem]
    intro i j hi hj hij p hpi hpj
    simp only [List.getElem_map, List.mem_map] at hpi hpj
    obtain ⟨t, ht, rfl⟩ := hpi
    obtain ⟨u, hu, hpattern⟩ := hpj
    have hti : t.weight = i := h i _ (List.getElem?_eq_getElem _) t ht
    have huj : u.weight = j := h j _ (List.getElem?_eq_getElem _) u hu
    have hweight : u.weight = t.weight := by
      unfold Term.weight
      rw [hpattern]
    omega

/-! ## Grouping terms by weight -/

/-- Grouping puts every term into the bucket of its weight. -/
theorem wellWeighted_group (terms : List Term) : WellWeighted (group terms) := by
  intro i bucket hbucket t ht
  unfold group at hbucket
  rw [List.getElem?_map] at hbucket
  obtain ⟨weight, hweight, rfl⟩ := Option.map_eq_some_iff.mp hbucket
  have hi : weight = i := by
    obtain ⟨hlt, heq⟩ := List.getElem?_eq_some_iff.mp hweight
    rw [List.getElem_range] at heq
    exact heq.symm
  simpa [hi] using (List.mem_filter.mp ht).2

/-- The largest of some numbers stays within a bound exactly when all of them do. -/
theorem foldl_max_le_iff {numbers : List Nat} {bound : Nat} :
    numbers.foldl max 0 ≤ bound ↔ ∀ n ∈ numbers, n ≤ bound := by
  have hfold : ∀ start, numbers.foldl max start ≤ bound ↔ start ≤ bound ∧ ∀ n ∈ numbers, n ≤ bound := by
    induction numbers with
    | nil => simp
    | cons n numbers ih =>
      intro start
      rw [List.foldl_cons, ih, Nat.max_le, List.forall_mem_cons, and_assoc]
  rw [hfold]
  exact and_iff_right (Nat.zero_le bound)

/-- There is a bucket for each weight up to the largest one. -/
theorem length_group {terms : List Term} {top : Nat} (h : (terms.map Term.weight).max? = some top) :
    (group terms).length = top + 1 := by
  obtain ⟨hmem, hle⟩ := List.max?_eq_some_iff.mp h
  obtain ⟨t, ht, rfl⟩ := List.mem_map.mp hmem
  unfold group
  rw [List.length_map, List.length_range]
  apply Nat.le_antisymm
  · rw [foldl_max_le_iff, List.forall_mem_map]
    intro u hu
    exact Nat.succ_le_succ (hle _ (List.mem_map_of_mem hu))
  · exact foldl_max_le_iff.mp (Nat.le_refl _) _ (List.mem_map.mpr ⟨t, ht, rfl⟩)

/-- Grouping only reorders the terms. -/
theorem flatten_group_perm (terms : List Term) : (group terms).flatten.Perm terms := by
  have hbelow : ∀ n, ((List.range n).map fun weight => terms.filter (·.weight = weight)).flatten.Perm
      (terms.filter (·.weight < n)) := by
    intro n
    induction n with
    | zero => simp
    | succ n ih =>
      rw [List.range_succ, List.map_append, List.flatten_append]
      have hsplit := List.filter_append_perm (fun t : Term => decide (t.weight < n))
        (terms.filter (·.weight < n + 1))
      rw [List.filter_filter, List.filter_filter] at hsplit
      have hlow : terms.filter (fun t => decide (t.weight < n) && decide (t.weight < n + 1)) =
          terms.filter (·.weight < n) := by
        apply List.filter_congr
        intro t _
        rw [← Bool.decide_and]
        exact decide_eq_decide.mpr (by omega)
      have htop : terms.filter (fun t => !decide (t.weight < n) && decide (t.weight < n + 1)) =
          terms.filter (·.weight = n) := by
        apply List.filter_congr
        intro t _
        rw [← decide_not, ← Bool.decide_and]
        exact decide_eq_decide.mpr (by omega)
      rw [hlow, htop] at hsplit
      have hone : (List.map (fun weight => terms.filter (·.weight = weight)) [n]).flatten =
          terms.filter (·.weight = n) := by simp
      rw [hone]
      exact (ih.append_right _).trans hsplit
  have hall : terms.filter (·.weight < (terms.map (·.weight + 1)).foldl max 0) = terms := by
    rw [List.filter_eq_self]
    intro t ht
    have hmem : t.weight + 1 ∈ terms.map (·.weight + 1) := List.mem_map.mpr ⟨t, ht, rfl⟩
    exact decide_eq_true (foldl_max_le_iff.mp (Nat.le_refl _) _ hmem)
  have h := hbelow ((terms.map (·.weight + 1)).foldl max 0)
  rw [hall] at h
  exact h

/-! ## Merges of neighbouring buckets -/

/-- At each place are the merges of the bucket there and the next one. -/
theorem getElem?_merges {i : Nat} {found : List Merge} :
    (merges buckets)[i]? = some found ↔
      ∃ low high, buckets[i]? = some low ∧ buckets[i + 1]? = some high ∧ found = Bucket.merges low high := by
  unfold merges
  rw [List.getElem?_zipWith_eq_some]
  constructor
  · rintro ⟨low, high, hlow, hhigh, rfl⟩
    rw [List.getElem?_tail] at hhigh
    exact ⟨low, high, hlow, hhigh, rfl⟩
  · rintro ⟨low, high, hlow, hhigh, rfl⟩
    exact ⟨low, high, hlow, by rw [List.getElem?_tail]; exact hhigh, rfl⟩

/-- The merges at one place are the merges of a term of this weight with a term of the next weight. -/
theorem exists_merges_iff (h : WellWeighted buckets) {i : Nat} {m : Merge} :
    (∃ found, (merges buckets)[i]? = some found ∧ m ∈ found) ↔
      (m.low ∈ buckets.flatten ∧ m.low.weight = i) ∧ (m.high ∈ buckets.flatten ∧ m.high.weight = i + 1) ∧
        m.low.adjacent m.high = true ∧ m.result = m.low.join m.high := by
  rw [← exists_bucket_iff h, ← exists_bucket_iff h]
  constructor
  · rintro ⟨found, hfound, hm⟩
    obtain ⟨low, high, hlow, hhigh, rfl⟩ := getElem?_merges.mp hfound
    obtain ⟨hml, hmh, hadj, hresult⟩ := Bucket.mem_merges.mp hm
    exact ⟨⟨low, hlow, hml⟩, ⟨high, hhigh, hmh⟩, hadj, hresult⟩
  · rintro ⟨⟨low, hlow, hml⟩, ⟨high, hhigh, hmh⟩, hadj, hresult⟩
    exact ⟨_, getElem?_merges.mpr ⟨low, high, hlow, hhigh, rfl⟩, Bucket.mem_merges.mpr ⟨hml, hmh, hadj, hresult⟩⟩

/-- The merges of a level are those of adjacent terms whose weights differ by one. -/
theorem mem_flatten_merges (h : WellWeighted buckets) {m : Merge} :
    m ∈ (merges buckets).flatten ↔
      m.low ∈ buckets.flatten ∧ m.high ∈ buckets.flatten ∧ m.high.weight = m.low.weight + 1 ∧
        m.low.adjacent m.high = true ∧ m.result = m.low.join m.high := by
  constructor
  · intro hm
    obtain ⟨found, hfound, hm⟩ := List.mem_flatten.mp hm
    obtain ⟨i, hi⟩ := List.mem_iff_getElem?.mp hfound
    obtain ⟨⟨hlow, hwl⟩, ⟨hhigh, hwh⟩, hadj, hresult⟩ := (exists_merges_iff h).mp ⟨found, hi, hm⟩
    exact ⟨hlow, hhigh, by omega, hadj, hresult⟩
  · rintro ⟨hlow, hhigh, hweight, hadj, hresult⟩
    obtain ⟨found, hfound, hm⟩ := (exists_merges_iff h).mpr ⟨⟨hlow, rfl⟩, ⟨hhigh, hweight⟩, hadj, hresult⟩
    exact List.mem_flatten_of_mem (List.mem_of_getElem? hfound) hm

/-- Adjacency does not depend on the order. -/
theorem adjacent_comm (a b : Term) : a.adjacent b = b.adjacent a := by
  unfold Term.adjacent
  rw [Bool.eq_iff_iff, Pattern.adjacent_eq_true_iff, Pattern.adjacent_eq_true_iff]
  rw [Pattern.merge?_comm]

/-- Adjacent terms of a level are found in one order or the other. -/
theorem exists_merge_of_adjacent (h : WellWeighted buckets) {a b : Term} (ha : a ∈ buckets.flatten)
    (hb : b ∈ buckets.flatten) (hadj : a.adjacent b = true) :
    ∃ m ∈ (merges buckets).flatten, m.low = a ∧ m.high = b ∨ m.low = b ∧ m.high = a := by
  obtain ⟨r, hr⟩ := Pattern.adjacent_eq_true_iff.mp hadj
  rcases Pattern.weight_of_merge? hr with ⟨hwa, hwb⟩ | ⟨hwb, hwa⟩
  · have hweight : b.weight = a.weight + 1 := by
      unfold Term.weight
      omega
    exact ⟨⟨a, b, a.join b⟩, (mem_flatten_merges h).mpr ⟨ha, hb, hweight, hadj, rfl⟩, Or.inl ⟨rfl, rfl⟩⟩
  · have hweight : a.weight = b.weight + 1 := by
      unfold Term.weight
      omega
    have hadj' : b.adjacent a = true := by rw [adjacent_comm, hadj]
    exact ⟨⟨b, a, b.join a⟩, (mem_flatten_merges h).mpr ⟨hb, ha, hweight, hadj', rfl⟩, Or.inr ⟨rfl, rfl⟩⟩

/-- Where no merge is found, no two terms of the level are adjacent. -/
theorem not_adjacent_of_all_isEmpty (h : WellWeighted buckets) (hempty : (merges buckets).all List.isEmpty = true)
    {a b : Term} (ha : a ∈ buckets.flatten) (hb : b ∈ buckets.flatten) : ¬ a.adjacent b = true := by
  intro hadj
  obtain ⟨m, hm, -⟩ := exists_merge_of_adjacent h ha hb hadj
  obtain ⟨found, hfound, hm⟩ := List.mem_flatten.mp hm
  have hnil : found = [] := List.isEmpty_iff.mp (List.all_eq_true.mp hempty found hfound)
  rw [hnil] at hm
  exact List.not_mem_nil hm

/-- The checked patterns are those of the terms that merge with some term of the level. -/
theorem mem_checked_iff (h : WellWeighted buckets) {p : Pattern} :
    p ∈ (ofMerges buckets (merges buckets)).checked ↔
      ∃ t ∈ buckets.flatten, t.pattern = p ∧ ∃ u ∈ buckets.flatten, t.adjacent u = true := by
  have hlist : p ∈ (ofMerges buckets (merges buckets)).checked ↔
      ∃ m ∈ (merges buckets).flatten, p = m.low.pattern ∨ p = m.high.pattern := by
    unfold ofMerges
    rw [Std.HashSet.mem_ofList, List.contains_iff_mem, List.mem_flatMap]
    simp only [List.mem_cons, List.not_mem_nil, or_false]
  rw [hlist]
  constructor
  · rintro ⟨m, hm, hp⟩
    obtain ⟨hlow, hhigh, -, hadj, -⟩ := (mem_flatten_merges h).mp hm
    rcases hp with rfl | rfl
    · exact ⟨m.low, hlow, rfl, m.high, hhigh, hadj⟩
    · exact ⟨m.high, hhigh, rfl, m.low, hlow, by rw [adjacent_comm, hadj]⟩
  · rintro ⟨t, ht, rfl, u, hu, hadj⟩
    obtain ⟨m, hm, ⟨hlow, -⟩ | ⟨-, hhigh⟩⟩ := exists_merge_of_adjacent h ht hu hadj
    · exact ⟨m, hm, Or.inl (by rw [hlow])⟩
    · exact ⟨m, hm, Or.inr (by rw [hhigh])⟩

/-! ## The next level -/

/-- A bucket of the next level holds the merges found at its place, without repeats. -/
theorem getElem?_next {i : Nat} {bucket : Bucket} :
    (next (merges buckets))[i]? = some bucket ↔
      ∃ found, (merges buckets)[i]? = some found ∧ bucket = Bucket.distinct (found.map Merge.result) := by
  unfold next
  rw [List.getElem?_map, Option.map_eq_some_iff]
  simp only [eq_comm]

/-- A term of the next level is a merge of two terms of the level, the first one of its own weight. -/
theorem exists_merge?_of_mem_next (h : WellWeighted buckets) {i : Nat} {bucket : Bucket} {t : Term}
    (hbucket : (next (merges buckets))[i]? = some bucket) (ht : t ∈ bucket) :
    ∃ a ∈ buckets.flatten, ∃ b ∈ buckets.flatten, a.merge? b = some t ∧ a.weight = i ∧ b.weight = i + 1 := by
  obtain ⟨found, hfound, rfl⟩ := getElem?_next.mp hbucket
  obtain ⟨m, hm, rfl⟩ := List.mem_map.mp (Bucket.mem_of_mem_distinctFrom ht)
  obtain ⟨⟨hlow, hwl⟩, ⟨hhigh, hwh⟩, hadj, hresult⟩ := (exists_merges_iff h).mp ⟨found, hfound, hm⟩
  refine ⟨m.low, hlow, m.high, hhigh, ?_, hwl, hwh⟩
  unfold Term.merge?
  rw [if_pos hadj, hresult]

/-- The next level has its terms in the buckets of their weights. -/
theorem wellWeighted_next (h : WellWeighted buckets) : WellWeighted (next (merges buckets)) := by
  intro i bucket hbucket t ht
  obtain ⟨a, -, b, -, hmerge, hwa, hwb⟩ := exists_merge?_of_mem_next h hbucket ht
  have hpattern := (Term.merge?_eq_some_iff.mp hmerge).1
  have hweights := Pattern.weight_of_merge? hpattern
  unfold Term.weight at *
  omega

/-- A term of the next level is a merge of two terms of the level. -/
theorem exists_merge?_of_mem_flatten_next (h : WellWeighted buckets) {t : Term}
    (ht : t ∈ (next (merges buckets)).flatten) :
    ∃ a ∈ buckets.flatten, ∃ b ∈ buckets.flatten, a.merge? b = some t := by
  obtain ⟨bucket, hbucket, ht⟩ := List.mem_flatten.mp ht
  obtain ⟨i, hi⟩ := List.mem_iff_getElem?.mp hbucket
  obtain ⟨a, ha, b, hb, hmerge, -⟩ := exists_merge?_of_mem_next h hi ht
  exact ⟨a, ha, b, hb, hmerge⟩

/-- The patterns of the next level are the merges of all pairs of terms of the level. -/
theorem mem_patterns_next (h : WellWeighted buckets) {p : Pattern} :
    p ∈ (next (merges buckets)).flatten.map Term.pattern ↔
      ∃ a ∈ buckets.flatten, ∃ b ∈ buckets.flatten, a.pattern.merge? b.pattern = some p := by
  constructor
  · intro hp
    obtain ⟨t, ht, rfl⟩ := List.mem_map.mp hp
    obtain ⟨a, ha, b, hb, hmerge⟩ := exists_merge?_of_mem_flatten_next h ht
    exact ⟨a, ha, b, hb, (Term.merge?_eq_some_iff.mp hmerge).1⟩
  · rintro ⟨a, ha, b, hb, hmerge⟩
    have hadj : a.adjacent b = true := Pattern.adjacent_eq_true_iff.mpr ⟨p, hmerge⟩
    obtain ⟨m, hm, horder⟩ := exists_merge_of_adjacent h ha hb hadj
    obtain ⟨-, -, -, hmadj, hresult⟩ := (mem_flatten_merges h).mp hm
    have hpattern : m.result.pattern = p := by
      have hjoin : m.low.pattern.merge? m.high.pattern = some m.result.pattern := by
        rw [hresult]
        exact Pattern.merge?_eq_some_join hmadj
      rcases horder with ⟨hlow, hhigh⟩ | ⟨hlow, hhigh⟩
      · rw [hlow, hhigh, hmerge] at hjoin
        exact (Option.some.inj hjoin).symm
      · rw [hlow, hhigh, Pattern.merge?_comm, hmerge] at hjoin
        exact (Option.some.inj hjoin).symm
    obtain ⟨found, hfound, hm⟩ := List.mem_flatten.mp hm
    have hkept : p ∈ (Bucket.distinct (found.map Merge.result)).map Term.pattern := by
      rw [Bucket.mem_patterns_distinct, ← hpattern]
      exact List.mem_map_of_mem (List.mem_map_of_mem hm)
    obtain ⟨t, ht, rfl⟩ := List.mem_map.mp hkept
    have hbucket : Bucket.distinct (found.map Merge.result) ∈ next (merges buckets) := by
      unfold next
      exact List.mem_map_of_mem hfound
    exact List.mem_map_of_mem (List.mem_flatten_of_mem hbucket ht)

/-- Where something merges, the next level has terms. -/
theorem exists_mem_next_of_merged (h : WellWeighted buckets) (hmerged : ¬ (merges buckets).all List.isEmpty = true) :
    ∃ t, t ∈ (next (merges buckets)).flatten := by
  simp only [List.all_eq_true, List.isEmpty_iff, not_forall] at hmerged
  obtain ⟨found, hfound, hne⟩ := hmerged
  obtain ⟨m, hm⟩ := List.exists_mem_of_ne_nil found hne
  obtain ⟨hlow, hhigh, -, hadj, -⟩ := (mem_flatten_merges h).mp (List.mem_flatten_of_mem hfound hm)
  have hpattern := (mem_patterns_next h).mpr ⟨m.low, hlow, m.high, hhigh, Pattern.merge?_eq_some_join hadj⟩
  obtain ⟨t, ht, -⟩ := List.mem_map.mp hpattern
  exact ⟨t, ht⟩

/-- No pattern stands twice in the next level. -/
theorem nodup_patterns_next (h : WellWeighted buckets) :
    ((next (merges buckets)).flatten.map Term.pattern).Nodup := by
  apply (wellWeighted_next h).nodup_patterns
  intro bucket hbucket
  unfold next at hbucket
  obtain ⟨found, -, rfl⟩ := List.mem_map.mp hbucket
  exact Bucket.nodup_patterns_distinctFrom ∅ _

end Level

end PrimeCover
