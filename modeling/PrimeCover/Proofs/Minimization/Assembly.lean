import Mathlib
import PrimeCover.Proofs.Minimization.Remainder
import PrimeCover.Proofs.Petrick.Labels

/-!
# How solutions are put together

A minimization fails on the lists that the check refuses, for the reason that the check gives, and on no others: the
terms of the minterms can always be made, since the width of the list has room for each of them
(`solve_eq_error_iff`). Where a choice is left, there is a product of labels to choose from, each of its labels stands
for a candidate, and a solution consists of these candidates in the order of the pool and of the primes in the order
of choice (`solve_loses_nothing`).
-/

set_option autoImplicit false

namespace PrimeCover

open Petrick (ofCoverage)

/-! ## The candidates of a product of labels -/

namespace Petrick

/-- A selection in which every entry has a value keeps them all in order. -/
theorem forall₂_filterMap {α β : Type} {f : α → Option β} {l : List α} (h : ∀ a ∈ l, ∃ b, f a = some b) :
    List.Forall₂ (fun a b => f a = some b) l (l.filterMap f) := by
  induction l with
  | nil => exact List.Forall₂.nil
  | cons a l ih =>
    obtain ⟨hfirst, hrest⟩ := List.forall_mem_cons.mp h
    obtain ⟨b, hb⟩ := hfirst
    rw [List.filterMap_cons_some hb]
    exact List.Forall₂.cons hb (ih hrest)

/-- A list consists of its entries at all places. -/
theorem filterMap_range_getElem? {α : Type} (l : List α) : (List.range l.length).filterMap (l[·]?) = l := by
  induction l with
  | nil => rfl
  | cons a l ih =>
    rw [List.length_cons, List.range_succ_eq_map, List.filterMap_cons, List.filterMap_map]
    simpa [Function.comp_def] using ih

variable {petrick : Petrick} {labels : NatSet}

/-- The candidates of a set of labels stand in the order of the pool, since the labels ascend. -/
theorem chosen_sublist (h : ∀ label, label ∈ labels → label < petrick.candidates.length) :
    (petrick.chosen labels).Sublist petrick.candidates := by
  have hrange : labels.toList.Sublist (List.range petrick.candidates.length) := by
    apply List.sublist_of_subperm_of_pairwise _ labels.ascending List.pairwise_lt_range
    exact labels.nodup_toList.subperm fun label hlabel => List.mem_range.mpr (h label hlabel)
  have hchosen := hrange.filterMap petrick.candidate?
  unfold candidate? at hchosen
  rw [filterMap_range_getElem?] at hchosen
  exact hchosen

end Petrick

/-- The prime that a step chooses, if it chooses one. -/
def Step.chosen? : Step → Option Pattern
  | .essential _ prime => some prime
  | .row _ _ => none
  | .column _ _ => none

namespace Minimization

variable {minterms : List Nat} {record : Minimization} {fault : Fault}

/-! ## Failures -/

/-- A list of minterms is refused exactly when it fails the check, and with the same fault. -/
theorem solve_eq_error_iff : solve minterms = .error fault ↔ Minterm.check minterms = .error fault := by
  cases hcheck : Minterm.check minterms with
  | error e =>
    unfold solve
    rw [hcheck]
    simp [bind, Except.bind]
  | ok u =>
    obtain ⟨record, hsolve, -⟩ := exists_isRecordOf hcheck
    rw [hsolve]
    simp

/-- A list of minterms that is solved passes the check. -/
theorem check_of_solve (h : solve minterms = .ok record) : Minterm.check minterms = .ok () := by
  cases hcheck : Minterm.check minterms with
  | error e =>
    rw [solve_eq_error_iff.mpr hcheck] at h
    exact nomatch h
  | ok u => rfl

/-- What is solved is the record of its minterms. -/
theorem isRecordOf_of_solve (h : solve minterms = .ok record) : record.IsRecordOf minterms := by
  obtain ⟨other, hsolve, hother⟩ := exists_isRecordOf (check_of_solve h)
  rw [h, Except.ok.injEq] at hsolve
  exact hsolve ▸ hother

/-- The solutions of a list are refused exactly when the list fails the check. -/
theorem minimize_eq_error_iff : minimize minterms = .error fault ↔ Minterm.check minterms = .error fault := by
  rw [← solve_eq_error_iff, minimize_eq_map]
  cases solve minterms with
  | error e => simp [Except.map]
  | ok record => simp [Except.map]

/-! ## Solutions -/

/-- The primes stand in the order of the steps that chose them. -/
theorem IsRecordOf.patterns_primes_eq (h : record.IsRecordOf minterms) :
    record.coverage.primes.map Term.pattern = record.coverage.steps.filterMap Step.chosen? := by
  obtain ⟨chosen, dropped, hdrops⟩ := h.exists_drops
  have hessential : chosen.filterMap (Step.chosen? ∘ fun e => .essential e.1 e.2.pattern) =
      chosen.map (Term.pattern ∘ Prod.snd) := by
    rw [← List.filterMap_eq_map]
    rfl
  have hcolumn : dropped.filterMap (Step.chosen? ∘ fun e => .column e.1 e.2) = [] :=
    List.filterMap_eq_nil_iff.mpr fun _ _ => rfl
  rw [hdrops.primes_eq, hdrops.steps_eq, List.filterMap_append, List.filterMap_map, List.filterMap_map, hessential,
    hcolumn, List.append_nil, List.map_map]

/-- What is left to choose can be chosen: every minterm that is left has a candidate. -/
theorem IsRecordOf.solve_ne_nil (h : record.IsRecordOf minterms) (hbound : ∀ m ∈ minterms, m < 1024) :
    (ofCoverage record.coverage).solve ≠ [] := by
  rw [ne_eq, Petrick.solve_eq_nil_iff]
  intro hempty
  obtain ⟨m, hm, hcolumn⟩ := List.mem_map.mp hempty
  have hsize := h.two_le_size_column hbound hm
  rw [hcolumn] at hsize
  exact absurd hsize (by decide)

end Minimization

/-- A minimization fails exactly when the check of the list does, with the same fault, and a list that passes has a term
for each minterm. When there is a choice to make, there is a product of labels, every label of a product stands for
a candidate, and the solutions belong to the products in order: as many terms as labels, in the order of the pool,
and then the primes in the order of the steps that chose them. -/
theorem solve_loses_nothing (minterms : List Nat) :
    (∀ fault, Minimization.solve minterms = .error fault ↔ Minterm.check minterms = .error fault) ∧
      (∀ fault, minimize minterms = .error fault ↔ Minterm.check minterms = .error fault) ∧
      (∀ top, Minterm.check minterms = .ok () → minterms.max? = some top →
        ∀ m ∈ minterms, ∃ leaf, Term.leaf m (Binary.length top) = .ok leaf) ∧
      ∀ record petrick, Minimization.solve minterms = .ok record → record.petrick? = some petrick →
        petrick.candidates = record.coverage.candidates ∧
          record.coverage.primes.map Term.pattern = record.coverage.steps.filterMap Step.chosen? ∧
          petrick.solve ≠ [] ∧
          (∀ product ∈ petrick.solve, ∀ label, label ∈ product → ∃ t, petrick.candidate? label = some t) ∧
          List.Forall₂
            (fun product (s : SumOfProducts) =>
              s.length = product.size + record.coverage.primes.length ∧
                ∃ chosen : List Term, s.products = chosen ++ record.coverage.primes ∧
                  List.Forall₂ (fun label t => petrick.candidate? label = some t) product.toList chosen ∧
                  chosen.Sublist petrick.candidates)
            petrick.solve record.solutions := by
  refine ⟨fun fault => Minimization.solve_eq_error_iff, fun fault => Minimization.minimize_eq_error_iff, ?_, ?_⟩
  · intro top hcheck htop m hm
    have hbound := (Minterm.check_eq_ok_iff.mp hcheck).2
    have hwidth : Minterm.width minterms ≤ maxVariables := (Minterm.width_le_iff_lt (by decide)).mpr hbound
    have hfits := Minterm.lt_capacity_width hm
    rw [Minterm.width_eq_length_of_max? htop] at hwidth hfits
    exact Term.exists_leaf hwidth hfits
  · intro record petrick hsolve hpetrick
    have hrecord := Minimization.isRecordOf_of_solve hsolve
    have hbound := (Minterm.check_eq_ok_iff.mp (Minimization.check_of_solve hsolve)).2
    obtain rfl := hrecord.petrick_eq hpetrick
    have hresolves : ∀ product ∈ (ofCoverage record.coverage).solve, ∀ label, label ∈ product →
        ∃ t, (ofCoverage record.coverage).candidate? label = some t := by
      intro product hproduct label hlabel
      obtain ⟨t, ht, -⟩ := Petrick.exists_candidate?_of_mem_solve hproduct hlabel
      exact ⟨t, ht⟩
    refine ⟨rfl, hrecord.patterns_primes_eq, hrecord.solve_ne_nil hbound, hresolves, ?_⟩
    rw [hrecord.solutions_eq, List.forall₂_map_right_iff, List.forall₂_same]
    intro product hproduct
    have hrange : ∀ label, label ∈ product → label < (ofCoverage record.coverage).candidates.length := by
      intro label hlabel
      obtain ⟨t, ht⟩ := hresolves product hproduct label hlabel
      exact (List.getElem?_eq_some_iff.mp ht).1
    refine ⟨?_, (ofCoverage record.coverage).chosen product, rfl,
      Petrick.forall₂_filterMap (hresolves product hproduct), Petrick.chosen_sublist hrange⟩
    unfold SumOfProducts.length
    rw [Minimization.products_assemble, List.length_append, Petrick.length_chosen hrange]

end PrimeCover
