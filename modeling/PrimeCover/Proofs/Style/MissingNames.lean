import PrimeCover.Report
import PrimeCover.Proofs.Style.Rendering

/-!
# Missing names

Writing can fail for one reason: some pattern has more positions than there are names. The check of the pattern finds
this, so the names of its literals are always there (`NameTable.name_of_check`). The fault tells the number of names and
nothing about the pattern; therefore a sum, and a report of many sums, fails with the same fault whichever product fails
first (`Style.render_eq_error_iff`, `Report.render_eq_error_iff`). Main statement: `render_fails_iff_unnamed`, which adds
that with the canonical letters the written sum is the canonical form.
-/

set_option autoImplicit false

namespace PrimeCover

namespace NameTable

variable {table : NameTable} {p : Pattern}

/-- A table has names for a pattern that is no longer than the table. -/
theorem check_eq_ok_iff : table.check p = .ok () ↔ p.length ≤ table.length := by
  unfold check
  split <;> simp_all

/-- After the check of a pattern, its literals have names. -/
theorem name_of_check (h : table.check p = .ok ()) :
    ∀ literal ∈ p.fixed, table.name literal.1 = .ok (table.nameAt literal.1) := by
  intro literal hmem
  have hposition := Pattern.lt_length_of_mem_fixed hmem
  exact name_eq_ok (hposition.trans_le (check_eq_ok_iff.mp h))

end NameTable

namespace Style

variable {style : Style} {table : NameTable} {p : Pattern} {s : SumOfProducts} {fault : Fault}

/-- A pattern is refused for the first position behind the table. -/
theorem renderPattern_eq_error_iff :
    style.renderPattern table p = .error fault ↔ table.length < p.length ∧ fault = .missingName table.length := by
  by_cases named : p.length ≤ table.length
  · rw [renderPattern_eq_ok named]
    simp
    omega
  · have refused : style.renderPattern table p = .error (.missingName table.length) := by
      rw [renderPattern, NameTable.check, if_neg named]
      rfl
    rw [refused]
    simp [eq_comm]
    omega

/-- A sum is refused for the first position behind the table, whichever product is too long. -/
theorem render_eq_error_iff :
    style.render table s = .error fault ↔
      (∃ p ∈ s.patterns, table.length < p.length) ∧ fault = .missingName table.length := by
  rw [render]
  cases hempty : s.isEmpty with
  | true => simp [SumOfProducts.isEmpty_iff.mp hempty, pure, Except.pure]
  | false =>
    rw [if_neg Bool.false_ne_true, bind_pure_eq_error_iff]
    exact mapM_eq_error_iff_of_alike fun p _ fault => renderPattern_eq_error_iff

/-- A sum is written exactly when the table has names for all its products. -/
theorem exists_render_eq_ok_iff :
    (∃ text, style.render table s = .ok text) ↔ ∀ p ∈ s.patterns, p.length ≤ table.length := by
  constructor
  · rintro ⟨text, htext⟩
    by_contra! unnamed
    rw [render_eq_error_iff.mpr ⟨unnamed, rfl⟩] at htext
    exact nomatch htext
  · intro named
    exact ⟨style.sumText table s, render_eq_ok named⟩

end Style

namespace Report

variable {table : NameTable} {solutions : List SumOfProducts} {fault : Fault}

/-- A report is refused for the first position behind the table, whichever solution holds a product that is too long.
-/
theorem render_eq_error_iff :
    render table solutions = .error fault ↔
      (∃ s ∈ solutions, ∃ p ∈ s.patterns, table.length < p.length) ∧ fault = .missingName table.length := by
  have numbered : (∃ s ∈ solutions, ∃ p ∈ s.patterns, table.length < p.length) ↔
      ∃ entry ∈ solutions.zipIdx, ∃ p ∈ entry.1.patterns, table.length < p.length := by
    conv_lhs => rw [← List.zipIdx_map_fst 0 solutions]
    simp only [List.mem_map, exists_exists_and_eq_and]
  rw [render, bind_pure_eq_error_iff, numbered]
  refine mapM_eq_error_iff_of_alike fun entry _ fault => ?_
  rw [bind_pure_eq_error_iff, Style.render_eq_error_iff]

end Report

/-- A sum is written, in any style, exactly when it is empty or all positions of its patterns have names; otherwise the
fault is the number of names, and there is no other fault. After the check of a pattern the name of each literal is
found. A report fails exactly when one of its sums does, with the same fault. And the canonical letters, for as many
positions as there are variables, write every sum that needs no more of them in its canonical form. -/
theorem render_fails_iff_unnamed (table : NameTable) :
    (∀ (style : Style) (s : SumOfProducts),
      ((∃ text, style.render table s = .ok text) ↔
        s.isEmpty = true ∨ ∀ p ∈ s.patterns, p.length ≤ table.length) ∧
      ∀ fault, style.render table s = .error fault ↔
        fault = .missingName table.length ∧ ¬ (s.isEmpty = true ∨ ∀ p ∈ s.patterns, p.length ≤ table.length)) ∧
    (∀ p, table.check p = .ok () → ∀ literal ∈ p.fixed, table.name literal.1 = .ok (table.nameAt literal.1)) ∧
    (∀ (solutions : List SumOfProducts) (fault : Fault), Report.render table solutions = .error fault ↔
      fault = .missingName table.length ∧ ∃ s ∈ solutions, Style.textbook.render table s = .error fault) ∧
    ∀ count ≤ maxVariables, ∃ letters, NameTable.letters count = .ok letters ∧
      ∀ s : SumOfProducts, (∀ p ∈ s.patterns, p.length ≤ count) →
        Style.textbook.render letters s = .ok s.standardForm := by
  refine ⟨?_, fun p => NameTable.name_of_check, ?_, ?_⟩
  · intro style s
    have named_iff : (s.isEmpty = true ∨ ∀ p ∈ s.patterns, p.length ≤ table.length) ↔
        ∀ p ∈ s.patterns, p.length ≤ table.length := by
      rw [or_iff_right_iff_imp, SumOfProducts.isEmpty_iff]
      intro hempty
      simp [hempty]
    rw [named_iff]
    refine ⟨Style.exists_render_eq_ok_iff, ?_⟩
    intro fault
    rw [Style.render_eq_error_iff, and_comm]
    push Not
    rfl
  · intro solutions fault
    rw [Report.render_eq_error_iff, and_comm, and_congr_right_iff]
    rintro rfl
    simp [Style.render_eq_error_iff]
  · intro count fits
    refine ⟨.canonical count fits, NameTable.letters_eq_ok fits, ?_⟩
    intro s named
    have lettered : ∀ p ∈ s.patterns, p.length ≤ (NameTable.canonical count fits).length := by
      simpa [NameTable.canonical, NameTable.length] using named
    rw [Style.render_eq_ok lettered, Style.sumText_textbook_canonical fits named]

-- the product without literals over two positions needs two names
example : Style.textbook.render .empty ⟨[.ofPattern ⟨[.free, .free], by decide⟩]⟩ = .error (.missingName 0) := rfl

end PrimeCover
