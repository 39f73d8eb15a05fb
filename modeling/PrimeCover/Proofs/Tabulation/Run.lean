import Mathlib
import PrimeCover.Proofs.Tabulation.Levels

/-!
# The levels of a tabulation

A tabulation repeats one step, from the buckets of a level to those of the next one, until nothing merges.
`getElem?_levelsFrom_succ` says when a level has a successor, and `invariant_levelsFrom` turns what one step preserves
into a fact about all levels. Every step takes one bucket away, so there are no more levels than buckets in the first
one (`length_levelsFrom_le`). A term is checked exactly when it merges with a term of its level
(`isChecked_levelOf_iff`). The candidates are, up to their order, the unchecked terms of all levels
(`candidates_perm`): in the last level nothing is checked.
-/

set_option autoImplicit false

namespace PrimeCover.Tabulation

variable {buckets : List Bucket} {level : Level}

/-- The level that the given buckets make up, with its own merges. -/
def levelOf (buckets : List Bucket) : Level :=
  Level.ofMerges buckets (Level.merges buckets)

/-- A level is the last one when nothing merges in it, and otherwise the levels of its merges follow. -/
theorem levelsFrom_eq (buckets : List Bucket) :
    levelsFrom buckets =
      if (Level.merges buckets).all List.isEmpty then [levelOf buckets]
      else levelOf buckets :: levelsFrom (Level.next (Level.merges buckets)) := by
  rw [levelsFrom]
  rfl

/-- There is a first level. -/
theorem levelsFrom_ne_nil (buckets : List Bucket) : levelsFrom buckets ≠ [] := by
  rw [levelsFrom_eq]
  split
  · exact List.cons_ne_nil _ _
  · exact List.cons_ne_nil _ _

/-- There is at least one level. -/
theorem length_levelsFrom_pos (buckets : List Bucket) : 0 < (levelsFrom buckets).length :=
  List.length_pos_of_ne_nil (levelsFrom_ne_nil buckets)

/-- The first level is that of the buckets. -/
theorem getElem?_levelsFrom_zero (buckets : List Bucket) :
    (levelsFrom buckets)[0]? = some (levelOf buckets) := by
  rw [levelsFrom_eq]
  split
  · rfl
  · rfl

/-- Every level has the merges of its own buckets. -/
theorem eq_levelOf_of_mem (h : level ∈ levelsFrom buckets) : level = levelOf level.buckets := by
  fun_induction levelsFrom buckets with
  | case1 buckets merges here hempty =>
    rw [List.mem_singleton.mp h]
    rfl
  | case2 buckets merges here hmerged ih =>
    rcases List.mem_cons.mp h with h | h
    · rw [h]
      rfl
    · exact ih h

/-- After a level comes the level of its merges, if there are any. -/
theorem getElem?_levelsFrom_succ {i : Nat} (h : (levelsFrom buckets)[i]? = some level) :
    (levelsFrom buckets)[i + 1]? =
      if (Level.merges level.buckets).all List.isEmpty then none
      else some (levelOf (Level.next (Level.merges level.buckets))) := by
  induction i generalizing buckets with
  | zero =>
    rw [getElem?_levelsFrom_zero, Option.some.injEq] at h
    have hbuckets : level.buckets = buckets := by
      rw [← h]
      rfl
    rw [hbuckets, levelsFrom_eq]
    split
    · rfl
    · rw [List.getElem?_cons_succ, getElem?_levelsFrom_zero]
  | succ i ih =>
    rw [levelsFrom_eq] at h ⊢
    split at h
    · rw [List.getElem?_cons_succ, List.getElem?_nil] at h
      exact nomatch h
    · next hmerged =>
      rw [List.getElem?_cons_succ] at h
      rw [if_neg hmerged, List.getElem?_cons_succ]
      exact ih h

/-- A level after the first one comes from the level before it, in which something merges. -/
theorem exists_of_getElem?_succ {i : Nat} (h : (levelsFrom buckets)[i + 1]? = some level) :
    ∃ before, (levelsFrom buckets)[i]? = some before ∧ ¬ (Level.merges before.buckets).all List.isEmpty = true ∧
      level = levelOf (Level.next (Level.merges before.buckets)) := by
  have hlt : i < (levelsFrom buckets).length := by
    have := (List.getElem?_eq_some_iff.mp h).1
    omega
  have hbefore : (levelsFrom buckets)[i]? = some (levelsFrom buckets)[i] := List.getElem?_eq_getElem hlt
  rw [getElem?_levelsFrom_succ hbefore] at h
  split at h
  · exact nomatch h
  · next hmerged => exact ⟨_, hbefore, hmerged, (Option.some.inj h).symm⟩

/-- What one step from level to level preserves holds of every level. A step is made only where something merges. -/
theorem invariant_levelsFrom {motive : Nat → List Bucket → Prop}
    (hstep : ∀ k buckets, motive k buckets → ¬ (Level.merges buckets).all List.isEmpty = true →
      motive (k + 1) (Level.next (Level.merges buckets)))
    (hstart : motive 0 buckets) {i : Nat} (h : (levelsFrom buckets)[i]? = some level) :
    motive i level.buckets := by
  induction i generalizing level with
  | zero =>
    rw [getElem?_levelsFrom_zero, Option.some.injEq] at h
    rw [← h]
    exact hstart
  | succ i ih =>
    obtain ⟨before, hbefore, hmerged, rfl⟩ := exists_of_getElem?_succ h
    exact hstep i before.buckets (ih hbefore) hmerged

/-- Every level has its terms in the buckets of their weights. -/
theorem wellWeighted_levelsFrom (h : Level.WellWeighted buckets) {i : Nat} (hi : (levelsFrom buckets)[i]? = some level) :
    Level.WellWeighted level.buckets :=
  invariant_levelsFrom (motive := fun _ => Level.WellWeighted) (fun _ _ hothers _ => Level.wellWeighted_next hothers)
    h hi

/-! ## The number of buckets and levels -/

/-- Terms merge in a level with two buckets at least. -/
theorem two_le_length_of_merged (h : ¬ (Level.merges buckets).all List.isEmpty = true) : 2 ≤ buckets.length := by
  have hne : Level.merges buckets ≠ [] := by
    intro hnil
    rw [hnil] at h
    exact h rfl
  have hpos : 0 < (Level.merges buckets).length := List.length_pos_of_ne_nil hne
  rw [Level.length_merges] at hpos
  omega

/-- Every level has one bucket less than the level before it, and the last one still has one. -/
theorem length_buckets_add (hne : buckets ≠ []) {k : Nat} (h : (levelsFrom buckets)[k]? = some level) :
    0 < level.buckets.length ∧ level.buckets.length + k = buckets.length := by
  refine invariant_levelsFrom (motive := fun k others => 0 < others.length ∧ others.length + k = buckets.length) ?_
    ⟨List.length_pos_of_ne_nil hne, rfl⟩ h
  rintro k others ⟨hpos, hsum⟩ hmerged
  have htwo := two_le_length_of_merged hmerged
  have hlength : (Level.next (Level.merges others)).length = others.length - 1 := by
    unfold Level.next
    rw [List.length_map, Level.length_merges]
  omega

/-- There are no more levels than buckets in the first one. -/
theorem length_levelsFrom_le (hne : buckets ≠ []) : (levelsFrom buckets).length ≤ buckets.length := by
  have hpos := length_levelsFrom_pos buckets
  have hlast : (levelsFrom buckets)[(levelsFrom buckets).length - 1]? =
      some (levelsFrom buckets)[(levelsFrom buckets).length - 1] := List.getElem?_eq_getElem (by omega)
  have hbuckets := length_buckets_add hne hlast
  omega

/-! ## The checked terms -/

/-- A term of a level is checked exactly when it merges with a term of the level. -/
theorem isChecked_levelOf_iff (h : Level.WellWeighted buckets) {t : Term} (ht : t ∈ buckets.flatten) :
    (levelOf buckets).isChecked t = true ↔ ∃ u ∈ buckets.flatten, t.adjacent u = true := by
  unfold Level.isChecked levelOf
  rw [Std.HashSet.contains_iff_mem, Level.mem_checked_iff h]
  constructor
  · rintro ⟨s, -, hpattern, u, hu, hadj⟩
    refine ⟨u, hu, ?_⟩
    unfold Term.adjacent at hadj ⊢
    rw [← hpattern]
    exact hadj
  · rintro ⟨u, hu, hadj⟩
    exact ⟨t, ht, rfl, u, hu, hadj⟩

/-! ## The candidates -/

/-- Where nothing merges, all terms are left unchecked. -/
theorem unchecked_levelOf (h : (Level.merges buckets).all List.isEmpty = true) :
    (levelOf buckets).unchecked = buckets.flatten := by
  have hnone : (Level.merges buckets).flatten = [] := by
    rw [List.flatten_eq_nil_iff]
    intro found hfound
    exact List.isEmpty_iff.mp (List.all_eq_true.mp h found hfound)
  unfold Level.unchecked levelOf Level.ofMerges Level.isChecked Level.terms
  rw [hnone, List.filter_eq_self]
  intro t _
  simp

/-- In the last level nothing merges. -/
theorem all_isEmpty_of_getLast? (h : (levelsFrom buckets).getLast? = some level) :
    (Level.merges level.buckets).all List.isEmpty = true := by
  rw [List.getLast?_eq_getElem?] at h
  have hpos := length_levelsFrom_pos buckets
  have hend : (levelsFrom buckets)[(levelsFrom buckets).length - 1 + 1]? = none :=
    List.getElem?_eq_none (by omega)
  rw [getElem?_levelsFrom_succ h, ite_eq_left_iff] at hend
  by_contra hmerged
  exact absurd (hend hmerged) (Option.some_ne_none _)

/-- In the last level all terms are left unchecked. -/
theorem unchecked_of_getLast? (h : (levelsFrom buckets).getLast? = some level) : level.unchecked = level.terms := by
  rw [eq_levelOf_of_mem (List.mem_of_getLast? h)]
  exact unchecked_levelOf (all_isEmpty_of_getLast? h)

/-- The candidates are the unchecked terms of all levels, those of the last level first. -/
theorem candidates_perm (buckets : List Bucket) :
    (Tabulation.mk (levelsFrom buckets)).candidates.Perm ((levelsFrom buckets).flatMap Level.unchecked) := by
  unfold candidates
  have hlast := List.getLast?_eq_getLast_of_ne_nil (levelsFrom_ne_nil buckets)
  have hflat : (levelsFrom buckets).flatMap Level.unchecked =
      (levelsFrom buckets).dropLast.flatMap Level.unchecked ++
        ((levelsFrom buckets).getLast (levelsFrom_ne_nil buckets)).terms := by
    conv_lhs => rw [← List.dropLast_concat_getLast (levelsFrom_ne_nil buckets)]
    rw [List.flatMap_append, List.flatMap_singleton, unchecked_of_getLast? hlast]
  rw [hflat, hlast]
  exact List.perm_append_comm

/-- The tabulation of a list with terms starts from the buckets of the list. -/
theorem ofTerms_eq {terms : List Term} (hne : terms ≠ []) : ofTerms terms = ⟨levelsFrom (Level.group terms)⟩ := by
  unfold ofTerms
  rw [if_neg (by rwa [List.isEmpty_iff])]

end PrimeCover.Tabulation
