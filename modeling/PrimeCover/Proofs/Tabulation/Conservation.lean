import Mathlib
import PrimeCover.Proofs.Tabulation.Run

/-!
# What a tabulation conserves

The terms of a tabulation need not be those of minterms: they may have different lengths and different numbers of
free positions, overlap and repeat. Every term of a level is put together from the given terms, so that it covers
nothing else (`DrawnFrom`). Nothing is lost either: a term that is checked merges with a term of its level, the next
level has a term with the merged pattern, and so on up to a term that is unchecked
(`exists_unchecked_contains`). That the next level keeps one term of each pattern loses nothing, because terms that
are built are determined by their patterns.
-/

set_option autoImplicit false

namespace PrimeCover

variable {terms : List Term} {buckets : List Bucket}

/-! ## The terms of a level -/

namespace Level

/-- The buckets hold built terms that cover only what the given terms cover. -/
structure DrawnFrom (terms : List Term) (buckets : List Bucket) : Prop where
  wellWeighted : WellWeighted buckets
  built : ∀ t ∈ buckets.flatten, t.Built
  exists_mem : ∀ t ∈ buckets.flatten, ∀ m, m ∈ t → ∃ s ∈ terms, m ∈ s

/-- The buckets of the terms are drawn from them. -/
theorem drawnFrom_group (hbuilt : ∀ t ∈ terms, t.Built) : DrawnFrom terms (group terms) where
  wellWeighted := wellWeighted_group terms
  built := by
    intro t ht
    exact hbuilt t ((flatten_group_perm terms).mem_iff.mp ht)
  exists_mem := by
    intro t ht m hm
    exact ⟨t, (flatten_group_perm terms).mem_iff.mp ht, hm⟩

/-- What is merged from terms that are drawn from a list is drawn from it. -/
theorem DrawnFrom.next (h : DrawnFrom terms buckets) : DrawnFrom terms (Level.next (merges buckets)) where
  wellWeighted := wellWeighted_next h.wellWeighted
  built := by
    intro t ht
    obtain ⟨a, ha, b, hb, hmerge⟩ := exists_merge?_of_mem_flatten_next h.wellWeighted ht
    exact Term.Built.merge (h.built a ha) (h.built b hb) hmerge
  exists_mem := by
    intro t ht m hm
    obtain ⟨a, ha, b, hb, hmerge⟩ := exists_merge?_of_mem_flatten_next h.wellWeighted ht
    have hcovered : m ∈ a.covered ∪ b.covered := (Term.merge?_eq_some_iff.mp hmerge).2 ▸ hm
    rcases NatSet.mem_union.mp hcovered with hma | hmb
    · exact h.exists_mem a ha m hma
    · exact h.exists_mem b hb m hmb

end Level

/-! ## From level to level -/

namespace Tabulation

variable {level : Level}

/-- Every level is drawn from the terms of the first one. -/
theorem drawnFrom_of_mem_levelsFrom (h : Level.DrawnFrom terms buckets) (hlevel : level ∈ levelsFrom buckets) :
    Level.DrawnFrom terms level.buckets := by
  obtain ⟨k, hk⟩ := List.mem_iff_getElem?.mp hlevel
  exact invariant_levelsFrom (motive := fun _ => Level.DrawnFrom terms) (fun _ _ hothers _ => hothers.next) h hk

/-- From the second level on every pattern stands once in its level. -/
theorem nodup_patterns_of_succ (h : Level.WellWeighted buckets) {k : Nat}
    (hk : (levelsFrom buckets)[k + 1]? = some level) : (level.terms.map Term.pattern).Nodup := by
  obtain ⟨before, hbefore, -, rfl⟩ := exists_of_getElem?_succ hk
  exact Level.nodup_patterns_next (wellWeighted_levelsFrom h hbefore)

/-- The pattern of every term lies inside the pattern of an unchecked term of its level or of a later one. -/
theorem exists_unchecked_contains (h : Level.WellWeighted buckets) :
    ∀ t ∈ buckets.flatten, ∃ c ∈ (levelsFrom buckets).flatMap Level.unchecked,
      c.pattern.contains t.pattern = true := by
  fun_induction levelsFrom buckets with
  | case1 buckets merges here hempty =>
    intro t ht
    refine ⟨t, ?_, Pattern.contains_refl _⟩
    rw [List.flatMap_singleton]
    exact (unchecked_levelOf hempty).symm ▸ ht
  | case2 buckets merges here hmerged ih =>
    intro t ht
    by_cases hchecked : (levelOf buckets).isChecked t = true
    · obtain ⟨u, hu, hadj⟩ := (isChecked_levelOf_iff h ht).mp hchecked
      obtain ⟨r, hr⟩ := Pattern.adjacent_eq_true_iff.mp hadj
      obtain ⟨s, hs, hpattern⟩ := List.mem_map.mp ((Level.mem_patterns_next h).mpr ⟨t, ht, u, hu, hr⟩)
      obtain ⟨c, hc, hcontains⟩ := ih (Level.wellWeighted_next h) s hs
      rw [hpattern] at hcontains
      refine ⟨c, ?_, Pattern.contains_trans hcontains (Pattern.contains_of_merge? hr)⟩
      rw [List.flatMap_cons]
      exact List.mem_append_right _ hc
    · refine ⟨t, ?_, Pattern.contains_refl _⟩
      rw [List.flatMap_cons]
      refine List.mem_append_left _ (List.mem_filter.mpr ⟨ht, ?_⟩)
      rw [Bool.not_eq_true', ← Bool.not_eq_true]
      exact hchecked

/-! ## The candidates -/

/-- Every candidate stands in some level. -/
theorem exists_level_of_mem_candidates {c : Term} (hc : c ∈ (Tabulation.mk (levelsFrom buckets)).candidates) :
    ∃ level ∈ levelsFrom buckets, c ∈ level.buckets.flatten := by
  rw [(candidates_perm buckets).mem_iff, List.mem_flatMap] at hc
  obtain ⟨level, hlevel, hc⟩ := hc
  exact ⟨level, hlevel, List.mem_of_mem_filter hc⟩

/-- Every term is contained in a candidate. -/
theorem exists_candidate_contains {t : Term} (ht : t ∈ terms) :
    ∃ c ∈ (ofTerms terms).candidates, c.pattern.contains t.pattern = true := by
  have hgroup : t ∈ (Level.group terms).flatten := (Level.flatten_group_perm terms).mem_iff.mpr ht
  obtain ⟨c, hc, hcontains⟩ := exists_unchecked_contains (Level.wellWeighted_group terms) t hgroup
  rw [ofTerms_eq (List.ne_nil_of_mem ht)]
  exact ⟨c, (candidates_perm _).mem_iff.mpr hc, hcontains⟩

/-- Every candidate is a term of a level. -/
theorem drawn_of_mem_candidates (hbuilt : ∀ t ∈ terms, t.Built) {c : Term} (hc : c ∈ (ofTerms terms).candidates) :
    c.Built ∧ ∀ m, m ∈ c → ∃ t ∈ terms, m ∈ t := by
  by_cases hne : terms = []
  · rw [hne] at hc
    exact absurd hc List.not_mem_nil
  · rw [ofTerms_eq hne] at hc
    obtain ⟨level, hlevel, hflatten⟩ := exists_level_of_mem_candidates hc
    have hdrawn := drawnFrom_of_mem_levelsFrom (Level.drawnFrom_group hbuilt) hlevel
    exact ⟨hdrawn.built c hflatten, hdrawn.exists_mem c hflatten⟩

/-- The candidates cover what the terms cover: each candidate is made of terms, and each term lies in a candidate. -/
theorem exists_mem_candidates_iff (hbuilt : ∀ t ∈ terms, t.Built) (m : Nat) :
    (∃ c ∈ (ofTerms terms).candidates, m ∈ c) ↔ ∃ t ∈ terms, m ∈ t := by
  constructor
  · rintro ⟨c, hc, hm⟩
    exact (drawn_of_mem_candidates hbuilt hc).2 m hm
  · rintro ⟨t, ht, hm⟩
    obtain ⟨c, hc, hcontains⟩ := exists_candidate_contains ht
    have hpattern : m ∈ c.pattern := Pattern.mem_of_contains hcontains (((hbuilt t ht).exact m).mp hm)
    exact ⟨c, hc, ((drawn_of_mem_candidates hbuilt hc).1.exact m).mpr hpattern⟩

/-- Whatever terms are tabulated, of whatever lengths, overlapping or repeated: the tabulation ends with a level in
which nothing merges, the candidates cover exactly what the terms cover, and the pattern of each term lies inside
that of a candidate. The buckets of every level are ordered by weight, from the second level on no pattern stands
twice in a level, and there are at most as many levels as weights up to the largest one. -/
theorem ofTerms_preserves_coverage {terms : List Term} (hbuilt : ∀ t ∈ terms, t.Built) :
    (∀ last, (ofTerms terms).levels.getLast? = some last →
        ∀ a ∈ last.terms, ∀ b ∈ last.terms, a.merge? b = none) ∧
      (∀ m, (∃ c ∈ (ofTerms terms).candidates, m ∈ c) ↔ ∃ t ∈ terms, m ∈ t) ∧
      (∀ t ∈ terms, ∃ c ∈ (ofTerms terms).candidates, c.pattern.contains t.pattern = true) ∧
      (∀ level ∈ (ofTerms terms).levels, ∀ (i : Nat) (bucket : Bucket), level.buckets[i]? = some bucket →
        ∀ t ∈ bucket, t.weight = i) ∧
      (∀ (k : Nat) (level : Level), (ofTerms terms).levels[k + 1]? = some level →
        (level.terms.map Term.pattern).Nodup) ∧
      ∀ top, (terms.map Term.weight).max? = some top → (ofTerms terms).levels.length ≤ top + 1 := by
  have hcovers := exists_mem_candidates_iff hbuilt
  have hcontains : ∀ t ∈ terms, ∃ c ∈ (ofTerms terms).candidates, c.pattern.contains t.pattern = true :=
    fun t ht => exists_candidate_contains ht
  by_cases hne : terms = []
  · have hlevels : (ofTerms terms).levels = [] := by
      rw [hne]
      rfl
    rw [hlevels]
    refine ⟨?_, hcovers, hcontains, ?_, ?_, ?_⟩
    · simp
    · simp
    · simp
    · simp
  · have hdrawn := Level.drawnFrom_group hbuilt
    have hlevels : (ofTerms terms).levels = levelsFrom (Level.group terms) := by rw [ofTerms_eq hne]
    rw [hlevels]
    refine ⟨?_, hcovers, hcontains, ?_, ?_, ?_⟩
    · intro last hlast a ha b hb
      have hweighted := (drawnFrom_of_mem_levelsFrom hdrawn (List.mem_of_getLast? hlast)).wellWeighted
      have hempty := all_isEmpty_of_getLast? hlast
      unfold Term.merge?
      rw [if_neg (Level.not_adjacent_of_all_isEmpty hweighted hempty ha hb)]
    · intro level hlevel
      exact (drawnFrom_of_mem_levelsFrom hdrawn hlevel).wellWeighted
    · intro k level hlevel
      exact nodup_patterns_of_succ hdrawn.wellWeighted hlevel
    · intro top htop
      have hlength := Level.length_group htop
      have hbuckets : Level.group terms ≠ [] := List.ne_nil_of_length_eq_add_one hlength
      rw [← hlength]
      exact length_levelsFrom_le hbuckets

/-! ### Terms of several shapes -/

/-- Patterns of two lengths, some of them for a single minterm; one stands twice, and one contains another one. -/
def mixedPatterns : List Pattern :=
  [[.zero, .zero], [.one, .one], [.zero, .free], [.one, .free], [.zero, .free], [.zero, .one], [.one]].filterMap
    fun trits : List Trit => (Pattern.ofTrits trits).toOption

/-- The mixed patterns are whole, and a tabulation of their terms loses nothing. -/
theorem ofTerms_preserves_coverage_mixed :
    (∀ t ∈ mixedPatterns.map Term.ofPattern, t.Built) ∧
      (∀ last, (ofTerms (mixedPatterns.map Term.ofPattern)).levels.getLast? = some last →
        ∀ a ∈ last.terms, ∀ b ∈ last.terms, a.merge? b = none) ∧
      (∀ m, (∃ c ∈ (ofTerms (mixedPatterns.map Term.ofPattern)).candidates, m ∈ c) ↔
        ∃ t ∈ mixedPatterns.map Term.ofPattern, m ∈ t) ∧
      (∀ t ∈ mixedPatterns.map Term.ofPattern,
        ∃ c ∈ (ofTerms (mixedPatterns.map Term.ofPattern)).candidates, c.pattern.contains t.pattern = true) ∧
      (∀ level ∈ (ofTerms (mixedPatterns.map Term.ofPattern)).levels, ∀ (i : Nat) (bucket : Bucket),
        level.buckets[i]? = some bucket → ∀ t ∈ bucket, t.weight = i) ∧
      (∀ (k : Nat) (level : Level), (ofTerms (mixedPatterns.map Term.ofPattern)).levels[k + 1]? = some level →
        (level.terms.map Term.pattern).Nodup) ∧
      ∀ top, ((mixedPatterns.map Term.ofPattern).map Term.weight).max? = some top →
        (ofTerms (mixedPatterns.map Term.ofPattern)).levels.length ≤ top + 1 :=
  ⟨List.forall_mem_map.mpr fun p _ => .ofPattern p,
    ofTerms_preserves_coverage (List.forall_mem_map.mpr fun p _ => .ofPattern p)⟩

end Tabulation

end PrimeCover
