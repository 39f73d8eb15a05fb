import Mathlib
import PrimeCover.Term
import PrimeCover.Proofs.Pattern.Counting

/-!
# Terms cover what their patterns say

The set of a term is maintained by unions and its pattern by merging. `Exact` says that the two agree; it
holds of the term of a minterm and of a pattern, a merge keeps it (`Exact.of_merge?`), and so it holds of all
terms that can be built (`Built.exact`). An exact term is therefore determined by its pattern
(`Exact.eq_of_pattern`), and its set is as large as the free positions of the pattern say (`Exact.covered_eq`,
`Pattern.size_minterms`). Main statement: `built_covers_pattern` puts this together for all terms that can be built.
-/

set_option autoImplicit false

namespace PrimeCover.Term

variable {a b t : Term}

/-- The leaf of a number has its pattern and this number folded into it. -/
theorem leaf_eq_ok_iff {value length : Nat} :
    Term.leaf value length = .ok t ↔ Pattern.ofMinterm value length = .ok t.pattern ∧ t.covered = {value} := by
  unfold Term.leaf
  cases hp : Pattern.ofMinterm value length with
  | error fault =>
    constructor
    · intro h
      exact nomatch h
    · rintro ⟨h, -⟩
      exact nomatch h
  | ok p =>
    constructor
    · intro h
      cases h
      exact ⟨rfl, rfl⟩
    · rintro ⟨h, hcovered⟩
      cases t
      cases h
      cases hcovered
      rfl

/-- Terms merge as their patterns do, and the folded minterms are united. -/
theorem merge?_eq_some_iff :
    a.merge? b = some t ↔ a.pattern.merge? b.pattern = some t.pattern ∧ t.covered = a.covered ∪ b.covered := by
  unfold Term.merge? Pattern.merge? Term.adjacent Term.join
  by_cases h : a.pattern.adjacent b.pattern = true
  · simp only [h, if_true, Option.some.injEq]
    constructor
    · rintro rfl
      exact ⟨rfl, rfl⟩
    · rintro ⟨hpattern, hcovered⟩
      cases t
      cases hpattern
      cases hcovered
      rfl
  · simp [h]

/-- Two terms merge to the same term in either order. -/
theorem merge?_comm (a b : Term) : a.merge? b = b.merge? a := by
  apply Option.ext
  intro t
  rw [merge?_eq_some_iff, merge?_eq_some_iff, Pattern.merge?_comm, NatSet.union_comm]

/-- The term covers exactly the minterms of its pattern. -/
def Exact (t : Term) : Prop :=
  ∀ m, m ∈ t.covered ↔ m ∈ t.pattern

/-- A leaf is exact. -/
theorem Exact.of_leaf {value length : Nat} (h : Term.leaf value length = .ok t) : t.Exact := by
  obtain ⟨hpattern, hcovered⟩ := leaf_eq_ok_iff.mp h
  intro m
  rw [hcovered, NatSet.mem_singleton, Pattern.mem_iff_of_ofMinterm hpattern]

/-- The term of a whole pattern is exact. -/
theorem exact_ofPattern (p : Pattern) : (ofPattern p).Exact :=
  fun _ => Pattern.mem_minterms

/-- Exact terms merge to an exact term. -/
theorem Exact.of_merge? (ha : a.Exact) (hb : b.Exact) (h : a.merge? b = some t) : t.Exact := by
  obtain ⟨hpattern, hcovered⟩ := merge?_eq_some_iff.mp h
  intro m
  rw [hcovered, NatSet.mem_union, ha m, hb m, Pattern.mem_iff_of_merge? hpattern]

/-- However a term is built, it is exact. -/
theorem Built.exact (h : Built t) : t.Exact := by
  induction h with
  | leaf made => exact Exact.of_leaf made
  | ofPattern p => exact exact_ofPattern p
  | merge left right made ihleft ihright => exact ihleft.of_merge? ihright made

/-- The set of an exact term can be read off its pattern. -/
theorem Exact.covered_eq (h : t.Exact) : t.covered = t.pattern.minterms := by
  apply NatSet.ext_mem
  intro m
  rw [h m, Pattern.mem_minterms]

/-- An exact term is determined by its pattern. -/
theorem Exact.eq_of_pattern (ha : a.Exact) (hb : b.Exact) (h : a.pattern = b.pattern) : a = b := by
  have hcovered : a.covered = b.covered := by rw [ha.covered_eq, hb.covered_eq, h]
  cases a
  cases b
  cases h
  cases hcovered
  rfl

/-- From single minterms and whole patterns, by merges in any order: a term covers a number exactly when its pattern
stands for it, it lists the minterms of its pattern in ascending order, and there are as many of them as two to the
number of free positions. Terms with equal patterns are therefore equal, and merging is symmetric. -/
theorem built_covers_pattern (h : Built t) :
    (∀ m, m ∈ t ↔ m ∈ t.pattern) ∧
      t.covered.toList = t.pattern.minterms.toList ∧ t.covered.toList.Pairwise (· < ·) ∧
      t.covered.size = 2 ^ t.pattern.freeCount ∧
      ∀ u, Built u → (u.pattern = t.pattern → u = t) ∧ t.merge? u = u.merge? t := by
  have hcovered : t.covered = t.pattern.minterms := h.exact.covered_eq
  refine ⟨h.exact, ?_, t.covered.ascending, ?_, ?_⟩
  · rw [hcovered]
  · rw [hcovered, Pattern.size_minterms]
  · intro u hu
    exact ⟨hu.exact.eq_of_pattern h.exact, merge?_comm t u⟩

/-- The term of the pattern `-0-`. -/
def square : Term where
  pattern := ⟨[.free, .zero, .free], by decide⟩
  covered := ⟨[0, 1, 4, 5], by decide⟩

/-- Minterms 0 and 4 merge to the pattern `-00`, and this merges with the pattern `-01`. -/
theorem built_square : Built square := by
  let zero : Term := ⟨⟨[.zero, .zero, .zero], by decide⟩, {0}⟩
  let four : Term := ⟨⟨[.one, .zero, .zero], by decide⟩, {4}⟩
  let zeros : Term := ⟨⟨[.free, .zero, .zero], by decide⟩, ⟨[0, 4], by decide⟩⟩
  let ones : Pattern := ⟨[.free, .zero, .one], by decide⟩
  have hzero : Term.leaf 0 3 = .ok zero := by rfl
  have hfour : Term.leaf 4 3 = .ok four := by rfl
  have hzeros : zero.merge? four = some zeros := by cbv
  have hsquare : zeros.merge? (ofPattern ones) = some square := by cbv
  exact .merge (.merge (.leaf hzero) (.leaf hfour) hzeros) (.ofPattern ones) hsquare

/-- The square is built, so that it covers the four minterms of its pattern. -/
theorem built_covers_pattern_square :
    Built square ∧ (∀ m, m ∈ square ↔ m ∈ square.pattern) ∧
      square.covered.toList = square.pattern.minterms.toList ∧
      square.covered.toList.Pairwise (· < ·) ∧ square.covered.size = 2 ^ square.pattern.freeCount ∧
      ∀ u, Built u → (u.pattern = square.pattern → u = square) ∧ square.merge? u = u.merge? square :=
  ⟨built_square, built_covers_pattern built_square⟩

end PrimeCover.Term
