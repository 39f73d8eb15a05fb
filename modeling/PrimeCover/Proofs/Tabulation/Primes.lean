import Mathlib
import PrimeCover.Proofs.Pattern.Primality
import PrimeCover.Proofs.Tabulation.Run
import PrimeCover.Proofs.Traversal

/-!
# The candidates are the prime implicants

`ListsImplicants k` says of the buckets of a level that they list the implicants with `k` free positions, each
once. The terms of distinct minterms do so for `k = 0`, and a step from level to level raises `k` by one, so
every level of their tabulation lists implicants. A term of a level is unchecked exactly when it is prime, and
no implicant lies beyond the last level; hence the candidates are the prime implicants, each once
(`candidates_iff_isPrime`).
-/

set_option autoImplicit false

namespace PrimeCover

/-! ## The terms of a list of minterms -/

namespace Term

/-- Numbers are made leaves one by one. -/
theorem mapM_leaf_eq_ok_iff {length : Nat} {values : List Nat} {leaves : List Term} :
    (values.mapM fun v => Term.leaf v length) = .ok leaves ↔
      List.Forall₂ (fun v t => Term.leaf v length = .ok t) values leaves :=
  mapM_eq_ok_iff

/-- A number that fits into an allowed length has a leaf. -/
theorem exists_leaf {value length : Nat} (hlength : length ≤ maxVariables)
    (hvalue : value < Binary.capacity length) : ∃ t, Term.leaf value length = .ok t := by
  have hfits : ((Binary.digits length value).map Trit.ofBool).length ≤ maxVariables := by
    rw [List.length_map, Binary.length_digits]
    exact hlength
  refine ⟨⟨⟨_, hfits⟩, {value}⟩, leaf_eq_ok_iff.mpr ⟨?_, rfl⟩⟩
  exact Pattern.ofMinterm_eq_ok_iff.mpr ⟨hlength, hvalue, rfl⟩

/-- Every list of minterms of a length has its list of terms. -/
theorem exists_mapM_leaf {length : Nat} {values : List Nat} (hlength : length ≤ maxVariables)
    (hvalues : ∀ v ∈ values, v < Binary.capacity length) :
    ∃ leaves, (values.mapM fun v => Term.leaf v length) = .ok leaves :=
  exists_mapM_eq_ok fun v hv => exists_leaf hlength (hvalues v hv)

variable {length : Nat} {values : List Nat} {leaves : List Term}

/-- The leaves are those of the listed numbers. -/
theorem mem_leaves_iff (h : List.Forall₂ (fun v t => Term.leaf v length = .ok t) values leaves) {t : Term} :
    t ∈ leaves ↔ ∃ v ∈ values, Term.leaf v length = .ok t := by
  induction h with
  | nil => simp
  | @cons v u values leaves hu _ ih =>
    rw [List.mem_cons, ih]
    constructor
    · rintro (rfl | ⟨w, hw, ht⟩)
      · exact ⟨v, List.mem_cons_self, hu⟩
      · exact ⟨w, List.mem_cons_of_mem v hw, ht⟩
    · rintro ⟨w, hw, ht⟩
      rcases List.mem_cons.mp hw with rfl | hw
      · rw [hu] at ht
        exact Or.inl (Except.ok.inj ht).symm
      · exact Or.inr ⟨w, hw, ht⟩

/-- Distinct numbers have leaves with distinct patterns. -/
theorem nodup_patterns_leaves (h : List.Forall₂ (fun v t => Term.leaf v length = .ok t) values leaves)
    (hnodup : values.Nodup) : (leaves.map Term.pattern).Nodup := by
  induction h with
  | nil => exact List.nodup_nil
  | @cons v u values leaves hu htail ih =>
    obtain ⟨habsent, hrest⟩ := List.nodup_cons.mp hnodup
    rw [List.map_cons, List.nodup_cons]
    refine ⟨?_, ih hrest⟩
    intro hmem
    obtain ⟨t, ht, hpattern⟩ := List.mem_map.mp hmem
    obtain ⟨w, hw, hleaf⟩ := (mem_leaves_iff htail).mp ht
    -- equal patterns have the same only minterm
    have hv := Pattern.mem_iff_of_ofMinterm (leaf_eq_ok_iff.mp hu).1
    have hw' := Pattern.mem_iff_of_ofMinterm (leaf_eq_ok_iff.mp hleaf).1
    rw [hpattern] at hw'
    have heq : v = w := (hw' v).mp ((hv v).mpr rfl)
    exact habsent (heq ▸ hw)

end Term

/-! ## Levels of implicants -/

namespace Level

/-- The buckets list the implicants with `k` free positions, each once, as exact terms. -/
structure ListsImplicants (length : Nat) (minterms : List Nat) (k : Nat) (buckets : List Bucket) : Prop where
  wellWeighted : WellWeighted buckets
  nodup : (buckets.flatten.map Term.pattern).Nodup
  exact : ∀ t ∈ buckets.flatten, t.Exact
  mem_patterns : ∀ p : Pattern,
    p ∈ buckets.flatten.map Term.pattern ↔ p.IsImplicant length minterms ∧ p.freeCount = k

variable {length k : Nat} {minterms : List Nat} {buckets : List Bucket}

/-- The terms of the minterms are the implicants without free positions. -/
theorem listsImplicants_group {leaves : List Term} (hnodup : minterms.Nodup)
    (h : List.Forall₂ (fun v t => Term.leaf v length = .ok t) minterms leaves) :
    ListsImplicants length minterms 0 (group leaves) where
  wellWeighted := wellWeighted_group leaves
  nodup := by
    rw [((flatten_group_perm leaves).map Term.pattern).nodup_iff]
    exact Term.nodup_patterns_leaves h hnodup
  exact := by
    intro t ht
    rw [(flatten_group_perm leaves).mem_iff] at ht
    obtain ⟨v, -, hleaf⟩ := (Term.mem_leaves_iff h).mp ht
    exact Term.Exact.of_leaf hleaf
  mem_patterns := by
    intro p
    rw [((flatten_group_perm leaves).map Term.pattern).mem_iff]
    constructor
    · intro hp
      obtain ⟨t, ht, rfl⟩ := List.mem_map.mp hp
      obtain ⟨v, hv, hleaf⟩ := (Term.mem_leaves_iff h).mp ht
      have hpattern := (Term.leaf_eq_ok_iff.mp hleaf).1
      refine ⟨⟨Pattern.length_of_ofMinterm hpattern, ?_⟩, Pattern.freeCount_of_ofMinterm hpattern⟩
      intro m hm
      rw [(Pattern.mem_iff_of_ofMinterm hpattern m).mp hm]
      exact hv
    · rintro ⟨himp, hfree⟩
      obtain ⟨m, hm⟩ := p.exists_mem
      have hpattern : Pattern.ofMinterm m length = .ok p := by
        rw [← himp.1]
        exact Pattern.ofMinterm_of_freeCount_eq_zero hfree hm
      have hleaf : Term.leaf m length = .ok ⟨p, {m}⟩ := Term.leaf_eq_ok_iff.mpr ⟨hpattern, rfl⟩
      exact List.mem_map.mpr ⟨_, (Term.mem_leaves_iff h).mpr ⟨m, himp.2 m hm, hleaf⟩, rfl⟩

/-- A step from level to level frees one position. -/
theorem ListsImplicants.next (h : ListsImplicants length minterms k buckets) :
    ListsImplicants length minterms (k + 1) (Level.next (merges buckets)) where
  wellWeighted := wellWeighted_next h.wellWeighted
  nodup := nodup_patterns_next h.wellWeighted
  exact := by
    intro t ht
    obtain ⟨a, ha, b, hb, hmerge⟩ := exists_merge?_of_mem_flatten_next h.wellWeighted ht
    exact (h.exact a ha).of_merge? (h.exact b hb) hmerge
  mem_patterns := by
    intro p
    rw [mem_patterns_next h.wellWeighted]
    constructor
    · rintro ⟨a, ha, b, hb, hmerge⟩
      obtain ⟨haimp, hafree⟩ := (h.mem_patterns a.pattern).mp (List.mem_map_of_mem ha)
      obtain ⟨hbimp, -⟩ := (h.mem_patterns b.pattern).mp (List.mem_map_of_mem hb)
      have hcount := (Pattern.freeCount_of_merge? hmerge).1
      exact ⟨haimp.of_merge? hbimp hmerge, by omega⟩
    · rintro ⟨himp, hfree⟩
      -- the implicant is put together from its halves, which the level lists
      have hne : p.freeCount ≠ 0 := by omega
      obtain ⟨low, high, hmerge, -⟩ := Pattern.exists_merge?_of_free hne
      obtain ⟨hlow, hhigh⟩ := himp.halves hmerge
      obtain ⟨hlowcount, hhighcount⟩ := Pattern.freeCount_of_merge? hmerge
      obtain ⟨a, ha, hapattern⟩ := List.mem_map.mp ((h.mem_patterns low).mpr ⟨hlow, by omega⟩)
      obtain ⟨b, hb, hbpattern⟩ := List.mem_map.mp ((h.mem_patterns high).mpr ⟨hhigh, by omega⟩)
      exact ⟨a, ha, b, hb, by rw [hapattern, hbpattern, hmerge]⟩

/-- In such a level the checked terms are those that are not prime. -/
theorem ListsImplicants.isChecked_iff (h : ListsImplicants length minterms k buckets) {t : Term}
    (ht : t ∈ buckets.flatten) :
    (Tabulation.levelOf buckets).isChecked t = true ↔ ¬ t.pattern.IsPrime length minterms := by
  obtain ⟨himp, hfree⟩ := (h.mem_patterns t.pattern).mp (List.mem_map_of_mem ht)
  rw [Tabulation.isChecked_levelOf_iff h.wellWeighted ht, Pattern.isPrime_iff_merge?_eq_none himp]
  push Not
  constructor
  · rintro ⟨u, hu, hadj⟩
    obtain ⟨r, hr⟩ := Pattern.adjacent_eq_true_iff.mp hadj
    refine ⟨u.pattern, ((h.mem_patterns u.pattern).mp (List.mem_map_of_mem hu)).1, ?_⟩
    rw [hr]
    exact Option.some_ne_none r
  · rintro ⟨q, hq, hsome⟩
    obtain ⟨r, hr⟩ := Option.ne_none_iff_exists'.mp hsome
    obtain ⟨hpcount, hqcount⟩ := Pattern.freeCount_of_merge? hr
    obtain ⟨u, hu, hpattern⟩ := List.mem_map.mp ((h.mem_patterns q).mpr ⟨hq, by omega⟩)
    refine ⟨u, hu, Pattern.adjacent_eq_true_iff.mpr ⟨r, ?_⟩⟩
    rw [hpattern, hr]

/-- What is left unchecked in a level are its prime implicants. -/
theorem ListsImplicants.mem_unchecked_iff (h : ListsImplicants length minterms k buckets) {t : Term} :
    t ∈ (Tabulation.levelOf buckets).unchecked ↔
      t ∈ buckets.flatten ∧ t.pattern.IsPrime length minterms := by
  unfold unchecked
  rw [List.mem_filter]
  apply and_congr_right
  intro ht
  rw [Bool.not_eq_true', ← Bool.not_eq_true, h.isChecked_iff ht, not_not]

/-- Where nothing merges, there is no implicant with more free positions. -/
theorem ListsImplicants.not_exists_of_isEmpty (h : ListsImplicants length minterms k buckets)
    (hempty : (merges buckets).all List.isEmpty = true) :
    ¬ ∃ p : Pattern, p.IsImplicant length minterms ∧ p.freeCount = k + 1 := by
  rintro ⟨p, hp⟩
  obtain ⟨a, ha, b, hb, hmerge⟩ := (mem_patterns_next h.wellWeighted).mp ((h.next.mem_patterns p).mpr hp)
  exact not_adjacent_of_all_isEmpty h.wellWeighted hempty ha hb (Pattern.adjacent_eq_true_iff.mpr ⟨p, hmerge⟩)

end Level

/-! ## The whole tabulation -/

namespace Tabulation

variable {length : Nat} {minterms : List Nat} {buckets : List Bucket}

/-- Each level lists the implicants with as many free positions as its number says. -/
theorem listsImplicants_levelsFrom (h : Level.ListsImplicants length minterms 0 buckets) {i : Nat} {level : Level}
    (hi : (levelsFrom buckets)[i]? = some level) :
    Level.ListsImplicants length minterms i level.buckets :=
  invariant_levelsFrom (fun _ _ hk _ => hk.next) h hi

/-- There is a level for every number of free positions that an implicant has. -/
theorem exists_level_of_isImplicant (h : Level.ListsImplicants length minterms 0 buckets) {p : Pattern}
    (hp : p.IsImplicant length minterms) {i : Nat} (hi : i ≤ p.freeCount) :
    ∃ level, (levelsFrom buckets)[i]? = some level := by
  induction i with
  | zero => exact ⟨_, getElem?_levelsFrom_zero buckets⟩
  | succ i ih =>
    obtain ⟨level, hlevel⟩ := ih (by omega)
    rw [getElem?_levelsFrom_succ hlevel]
    split
    · next hempty =>
      exfalso
      exact (listsImplicants_levelsFrom h hlevel).not_exists_of_isEmpty hempty (hp.exists_freeCount_eq hi)
    · exact ⟨_, rfl⟩

/-- What is left unchecked in all levels are the prime implicants in them. -/
theorem mem_unchecked_levelsFrom (h : Level.ListsImplicants length minterms 0 buckets) {t : Term} :
    t ∈ (levelsFrom buckets).flatMap Level.unchecked ↔
      ∃ (i : Nat) (level : Level), (levelsFrom buckets)[i]? = some level ∧ t ∈ level.buckets.flatten ∧
        t.pattern.IsPrime length minterms := by
  rw [List.mem_flatMap]
  constructor
  · rintro ⟨level, hlevel, ht⟩
    obtain ⟨i, hi⟩ := List.mem_iff_getElem?.mp hlevel
    rw [eq_levelOf_of_mem hlevel, (listsImplicants_levelsFrom h hi).mem_unchecked_iff] at ht
    exact ⟨i, level, hi, ht⟩
  · rintro ⟨i, level, hi, ht⟩
    have hlevel := List.mem_of_getElem? hi
    refine ⟨level, hlevel, ?_⟩
    rw [eq_levelOf_of_mem hlevel, (listsImplicants_levelsFrom h hi).mem_unchecked_iff]
    exact ht

/-- The patterns of the candidates are the prime implicants. -/
theorem mem_candidates_iff (h : Level.ListsImplicants length minterms 0 buckets) {p : Pattern} :
    p ∈ (Tabulation.mk (levelsFrom buckets)).candidates.map Term.pattern ↔ p.IsPrime length minterms := by
  rw [((candidates_perm buckets).map Term.pattern).mem_iff, List.mem_map]
  constructor
  · rintro ⟨t, ht, rfl⟩
    obtain ⟨i, level, -, -, hprime⟩ := (mem_unchecked_levelsFrom h).mp ht
    exact hprime
  · intro hprime
    obtain ⟨level, hlevel⟩ := exists_level_of_isImplicant h hprime.1 (Nat.le_refl p.freeCount)
    have hlists := listsImplicants_levelsFrom h hlevel
    obtain ⟨t, ht, rfl⟩ := List.mem_map.mp ((hlists.mem_patterns p).mpr ⟨hprime.1, rfl⟩)
    exact ⟨t, (mem_unchecked_levelsFrom h).mpr ⟨_, level, hlevel, ht, hprime⟩, rfl⟩

/-- No pattern is a candidate twice. -/
theorem nodup_candidates (h : Level.ListsImplicants length minterms 0 buckets) :
    ((Tabulation.mk (levelsFrom buckets)).candidates.map Term.pattern).Nodup := by
  rw [((candidates_perm buckets).map Term.pattern).nodup_iff, List.map_flatMap, List.nodup_flatMap]
  constructor
  · intro level hlevel
    obtain ⟨i, hi⟩ := List.mem_iff_getElem?.mp hlevel
    exact (listsImplicants_levelsFrom h hi).nodup.sublist (List.filter_sublist.map Term.pattern)
  · -- patterns of different levels differ in the number of free positions
    rw [List.pairwise_iff_getElem]
    intro i j hi hj hij p hpi hpj
    have hfree : ∀ k (hk : k < (levelsFrom buckets).length),
        p ∈ ((levelsFrom buckets)[k].unchecked).map Term.pattern → p.freeCount = k := by
      intro k hk hp
      obtain ⟨t, ht, rfl⟩ := List.mem_map.mp hp
      have hlists := listsImplicants_levelsFrom h (List.getElem?_eq_getElem hk)
      exact ((hlists.mem_patterns t.pattern).mp (List.mem_map_of_mem (List.mem_of_mem_filter ht))).2
    have heqi := hfree i hi hpi
    have heqj := hfree j hj hpj
    omega

/-- The candidates cover what their patterns stand for. -/
theorem exact_candidates (h : Level.ListsImplicants length minterms 0 buckets) {t : Term}
    (ht : t ∈ (Tabulation.mk (levelsFrom buckets)).candidates) : t.Exact := by
  rw [(candidates_perm buckets).mem_iff, mem_unchecked_levelsFrom h] at ht
  obtain ⟨i, level, hi, ht, -⟩ := ht
  exact (listsImplicants_levelsFrom h hi).exact t ht

/-- What a tabulation of distinct minterms finds: the prime implicants, each once, as exact terms. -/
structure ListsPrimes (length : Nat) (minterms : List Nat) (candidates : List Term) : Prop where
  mem_patterns : ∀ p : Pattern, p ∈ candidates.map Term.pattern ↔ p.IsPrime length minterms
  nodup : (candidates.map Term.pattern).Nodup
  exact : ∀ t ∈ candidates, t.Exact

/-- A tabulation of distinct leaves lists the prime implicants. -/
theorem listsPrimes_ofTerms {leaves : List Term} (hnodup : minterms.Nodup)
    (h : List.Forall₂ (fun v t => Term.leaf v length = .ok t) minterms leaves) :
    ListsPrimes length minterms (ofTerms leaves).candidates := by
  cases leaves with
  | nil =>
    -- without minterms there is no implicant, since every pattern has a minterm
    cases h
    have hnone : ∀ p : Pattern, ¬ p.IsPrime length [] := by
      intro p hp
      obtain ⟨m, hm⟩ := p.exists_mem
      exact List.not_mem_nil (hp.1.2 m hm)
    exact ⟨fun p => iff_of_false List.not_mem_nil (hnone p), List.nodup_nil, fun t ht => absurd ht List.not_mem_nil⟩
  | cons t rest =>
    have hlists := Level.listsImplicants_group hnodup h
    rw [ofTerms_eq (List.cons_ne_nil t rest)]
    exact ⟨fun p => mem_candidates_iff hlists, nodup_candidates hlists, fun t ht => exact_candidates hlists ht⟩

/-- For distinct values of at most ten digits, in any order, the tabulation of their terms has exactly the
prime implicants as its candidates, each of them once, and each candidate covers the minterms of its pattern. -/
theorem candidates_iff_isPrime {length : Nat} {values : List Nat} (hlength : length ≤ maxVariables)
    (hvalues : ∀ v ∈ values, v < 2 ^ length) (hnodup : values.Nodup) :
    ∃ leaves, (values.mapM fun v => Term.leaf v length) = .ok leaves ∧
      (∀ p : Pattern, p ∈ (ofTerms leaves).candidates.map Term.pattern ↔ p.IsPrime length values) ∧
      ((ofTerms leaves).candidates.map Term.pattern).Nodup ∧
      ∀ t ∈ (ofTerms leaves).candidates, t.covered = t.pattern.minterms := by
  obtain ⟨leaves, hleaves⟩ := Term.exists_mapM_leaf hlength hvalues
  have hprimes := listsPrimes_ofTerms hnodup (Term.mapM_leaf_eq_ok_iff.mp hleaves)
  refine ⟨leaves, hleaves, hprimes.mem_patterns, hprimes.nodup, ?_⟩
  intro t ht
  apply NatSet.ext_mem
  intro m
  rw [hprimes.exact t ht m, Pattern.mem_minterms]

/-- Six minterms of three variables, each of them in two of the six prime implicants. -/
theorem candidates_iff_isPrime_cyclic :
    (3 ≤ maxVariables ∧ (∀ v ∈ [6, 0, 5, 1, 7, 2], v < 2 ^ 3) ∧ [6, 0, 5, 1, 7, 2].Nodup) ∧
      ∃ leaves, ([6, 0, 5, 1, 7, 2].mapM fun v => Term.leaf v 3) = .ok leaves ∧
        (∀ p : Pattern, p ∈ (ofTerms leaves).candidates.map Term.pattern ↔ p.IsPrime 3 [6, 0, 5, 1, 7, 2]) ∧
        ((ofTerms leaves).candidates.map Term.pattern).Nodup ∧
        ∀ t ∈ (ofTerms leaves).candidates, t.covered = t.pattern.minterms :=
  ⟨⟨by decide, by decide, by decide⟩, candidates_iff_isPrime (by decide) (by decide) (by decide)⟩

end Tabulation

end PrimeCover
