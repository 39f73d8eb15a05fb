import Mathlib

/-!
# Joined blocks

What survives when blocks of characters are joined with a separator between them.
-/

set_option autoImplicit false

namespace PrimeCover.Text

variable {α : Type} {separator : List α} {blocks : List (List α)} {block : List α} {a : α}

/-- Blocks that are joined with nothing between them are put one after the other. -/
theorem intercalate_nil_left (blocks : List (List α)) : [].intercalate blocks = blocks.flatten := by
  induction blocks with
  | nil => rfl
  | cons block blocks ih =>
    cases blocks with
    | nil => simp
    | cons next later =>
      rw [List.intercalate_cons_cons, ih, List.append_nil]
      rfl

/-- A selection from joined blocks is the selections from the blocks, joined with that from the separator. -/
theorem filter_intercalate (keep : α → Bool) :
    (separator.intercalate blocks).filter keep = (separator.filter keep).intercalate (blocks.map (List.filter keep)) := by
  induction blocks with
  | nil => rfl
  | cons block blocks ih =>
    cases blocks with
    | nil => simp
    | cons next later =>
      simp only [List.map_cons, List.intercalate_cons_cons, List.filter_append] at ih ⊢
      rw [ih]

/-- What stands in a block stands in the joined list. -/
theorem mem_intercalate_of_mem (ha : a ∈ block) (hblock : block ∈ blocks) : a ∈ separator.intercalate blocks := by
  induction blocks with
  | nil => exact absurd hblock List.not_mem_nil
  | cons first blocks ih =>
    cases blocks with
    | nil => rwa [List.intercalate_singleton, ← List.mem_singleton.mp hblock]
    | cons next later =>
      rw [List.intercalate_cons_cons, List.mem_append, List.mem_append]
      rcases List.mem_cons.mp hblock with rfl | hlater
      · exact .inl (.inl ha)
      · exact .inr (ih hlater)

/-- What stands in a joined list stands in the separator or in a block. -/
theorem mem_or_exists_of_mem_intercalate (h : a ∈ separator.intercalate blocks) :
    a ∈ separator ∨ ∃ block ∈ blocks, a ∈ block := by
  induction blocks with
  | nil => exact absurd h List.not_mem_nil
  | cons first blocks ih =>
    cases blocks with
    | nil =>
      rw [List.intercalate_singleton] at h
      exact .inr ⟨first, List.mem_singleton_self first, h⟩
    | cons next later =>
      rw [List.intercalate_cons_cons, List.mem_append, List.mem_append] at h
      rcases h with (hfirst | hsep) | hlater
      · exact .inr ⟨first, List.mem_cons_self, hfirst⟩
      · exact .inl hsep
      · exact (ih hlater).imp_right fun ⟨block, hblock, ha⟩ => ⟨block, List.mem_cons_of_mem first hblock, ha⟩

end PrimeCover.Text
