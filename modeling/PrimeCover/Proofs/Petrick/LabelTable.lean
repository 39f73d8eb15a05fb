import Mathlib
import PrimeCover.Proofs.Label.Numerals
import PrimeCover.Proofs.Minimization.Covers
import PrimeCover.Proofs.Petrick.Labels

/-!
# The table of labels

The labels that occur in the sums of a coverage problem are the places of the candidates that cover an active minterm
(`usedLabels_ofCoverage`). Each stands for a candidate, so the table leaves none out, and it lists these candidates in
the order of the pool (`labels_ofCoverage`). A product of labels is a minimal hitting set: its candidates cover the active
minterms, and none of them can be left out (`not_covers_chosen_erase`). Main statement: `labels_match_products`.
-/

set_option autoImplicit false

namespace PrimeCover.Petrick

variable {petrick : Petrick} {c : Coverage} {p : NatSet} {label : Nat} {t : Term}

/-! ## The labels in the sums -/

/-- A label is in use when it stands in some sum. -/
theorem mem_usedLabels : label ∈ petrick.usedLabels ↔ ∃ sum ∈ petrick.sums, label ∈ sum := by
  rw [usedLabels, NatSet.mem_foldl_union, or_iff_right NatSet.not_mem_empty]

/-- A label is in use when its candidate covers an active minterm. -/
theorem mem_usedLabels_ofCoverage :
    label ∈ (ofCoverage c).usedLabels ↔ ∃ t, c.candidates[label]? = some t ∧ ∃ m ∈ c.minterms, m ∈ t := by
  rw [mem_usedLabels]
  constructor
  · rintro ⟨sum, hsum, hlabel⟩
    obtain ⟨m, hm, rfl⟩ := List.mem_map.mp hsum
    obtain ⟨t, ht, hmt⟩ := Coverage.mem_column.mp hlabel
    exact ⟨t, ht, m, hm, hmt⟩
  · rintro ⟨t, ht, m, hm, hmt⟩
    exact ⟨c.column m, List.mem_map_of_mem hm, Coverage.mem_column.mpr ⟨t, ht, hmt⟩⟩

/-- A label in use is the place of a candidate. -/
theorem lt_length_of_mem_usedLabels (h : label ∈ (ofCoverage c).usedLabels) : label < c.candidates.length := by
  obtain ⟨t, ht, -⟩ := mem_usedLabels_ofCoverage.mp h
  exact (List.getElem?_eq_some_iff.mp ht).1

/-- The labels in use are the places of the candidates that cover an active minterm. -/
theorem usedLabels_ofCoverage (c : Coverage) :
    (ofCoverage c).usedLabels = NatSet.positions (fun t => ∃ m ∈ c.minterms, m ∈ t) c.candidates := by
  apply NatSet.ext_mem
  intro label
  rw [mem_usedLabels_ofCoverage, NatSet.mem_positions]
  simp only [decide_eq_true_eq]

/-! ## The table -/

/-- The table lists the candidates that cover an active minterm, in the order of the pool. -/
theorem labels_ofCoverage (c : Coverage) :
    (ofCoverage c).labels =
      (c.candidates.zipIdx.filter fun (t, _) => ∃ m ∈ c.minterms, m ∈ t).map
        fun (t, label) => (Label.ofIndex label, t) := by
  rw [labels, usedLabels_ofCoverage, NatSet.positions, List.filterMap_map, ← List.filterMap_eq_map]
  apply List.filterMap_congr
  rintro ⟨t, label⟩ hmem
  have hlabel : c.candidates[label]? = some t :=
    List.mem_zipIdx_iff_getElem?.mp (List.mem_of_mem_filter hmem)
  show (c.candidates[label]?).map (Label.ofIndex label, ·) = some (Label.ofIndex label, t)
  rw [hlabel, Option.map_some]

/-- An entry of the table is a candidate that covers an active minterm, under the label of its place. -/
theorem mem_labels_iff :
    (Label.ofIndex label, t) ∈ (ofCoverage c).labels ↔ c.candidates[label]? = some t ∧ ∃ m ∈ c.minterms, m ∈ t := by
  rw [labels_ofCoverage, List.mem_map]
  constructor
  · rintro ⟨⟨u, place⟩, hmem, hentry⟩
    obtain ⟨htext, rfl⟩ := Prod.mk.inj hentry
    obtain rfl := Label.ofIndex_inj.mp htext
    obtain ⟨hplace, hcovers⟩ := List.mem_filter.mp hmem
    exact ⟨List.mem_zipIdx_iff_getElem?.mp hplace, of_decide_eq_true hcovers⟩
  · rintro ⟨hlabel, hcovers⟩
    exact ⟨(t, label), List.mem_filter.mpr ⟨List.mem_zipIdx_iff_getElem?.mpr hlabel, decide_eq_true hcovers⟩, rfl⟩

/-- No two candidates have the same label. -/
theorem nodup_texts_labels (c : Coverage) : ((ofCoverage c).labels.map Prod.fst).Nodup := by
  have htexts : (ofCoverage c).labels.map Prod.fst = (ofCoverage c).usedLabels.toList.map Label.ofIndex := by
    rw [labels_ofCoverage, usedLabels_ofCoverage, NatSet.positions, List.map_map, List.map_map]
    rfl
  rw [htexts]
  exact (NatSet.nodup_toList _).map fun _ _ => Label.ofIndex_inj.mp

/-! ## The products -/

/-- If one of its candidates is left out, a solution covers the active minterms no more. -/
theorem not_covers_chosen_erase (hp : p ∈ (ofCoverage c).solve) (hlabel : label ∈ p) :
    ¬ Coverage.Covers ((ofCoverage c).chosen (p.erase label)) c.minterms := by
  rw [← hits_ofCoverage_iff]
  intro hhits
  exact (mem_solve_iff.mp hp).hitsMinimally.2 (p.erase label) hhits (NatSet.erase_ssubset hlabel)

/-- For every coverage problem, each label in a sum is a place of the pool. The table lists the candidates that cover an
active minterm, in the order of the pool, each once and under its own text. Every label of a solution is in the table,
with the candidate that it stands for. And the candidates of a solution cover the active minterms, but no longer do so
when any one of them is left out. -/
theorem labels_match_products (c : Coverage) :
    (∀ label, label ∈ (ofCoverage c).usedLabels → label < (ofCoverage c).candidates.length) ∧
    (ofCoverage c).labels =
      (c.candidates.zipIdx.filter fun (t, _) => ∃ m ∈ c.minterms, m ∈ t).map
        (fun (t, label) => (Label.ofIndex label, t)) ∧
    ((ofCoverage c).labels.map Prod.fst).Nodup ∧
    ∀ p ∈ (ofCoverage c).solve,
      (∀ label, label ∈ p → ∃ t, (ofCoverage c).candidate? label = some t ∧
        (Label.ofIndex label, t) ∈ (ofCoverage c).labels) ∧
      Coverage.Covers ((ofCoverage c).chosen p) c.minterms ∧
      ∀ label, label ∈ p → ¬ Coverage.Covers ((ofCoverage c).chosen (p.erase label)) c.minterms := by
  refine ⟨fun _ => lt_length_of_mem_usedLabels, labels_ofCoverage c, nodup_texts_labels c, ?_⟩
  intro p hp
  refine ⟨?_, hits_ofCoverage_iff.mp (mem_solve_iff.mp hp).1, fun _ => not_covers_chosen_erase hp⟩
  intro label hlabel
  obtain ⟨t, hcandidate, hcovers⟩ := exists_candidate?_of_mem_solve hp hlabel
  exact ⟨t, hcandidate, mem_labels_iff.mpr ⟨hcandidate, hcovers⟩⟩

end PrimeCover.Petrick
