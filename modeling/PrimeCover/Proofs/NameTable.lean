import PrimeCover.NameTable
import Mathlib

/-!
# Accepted lists of names

The invariants of a name table are all that is asked of a list of names: `NameTable.ofList` accepts exactly the
lists of names of tables (`ofList_eq_ok_iff`). In particular the canonical letters make a table for every count
up to ten (`letters_eq_ok`).
-/

set_option autoImplicit false

namespace PrimeCover.NameTable

variable {table grown : NameTable} {name : String} {names front back : List String}

/-- A table is determined by its names. -/
theorem ext_names (h : table.names = grown.names) : table = grown := by
  cases table; cases grown; cases h; rfl

/-! ## Growing a table -/

/-- A name that is accepted is added behind the others. -/
theorem push_eq_ok_iff : table.push name = .ok grown ↔ grown.names = table.names ++ [name] := by
  constructor
  · intro h
    unfold push at h
    split_ifs at h
    cases h
    rfl
  · intro h
    have valid : Text.isIdentifier name = true := grown.identifiers name (by rw [h]; simp)
    have taken : name ∉ table.names := fun hmem =>
      List.disjoint_of_nodup_append (h ▸ grown.distinct) hmem List.mem_cons_self
    have room : table.names.length < maxVariables := by
      have fits := grown.length_le
      rwa [h, List.length_append] at fits
    unfold push
    rw [dif_pos valid, dif_neg taken, dif_pos room]
    exact congrArg Except.ok (ext_names h.symm)

/-- The first names of a table make a table. -/
theorem exists_names_eq (h : table.names = front ++ back) : ∃ shorter : NameTable, shorter.names = front := by
  have within : front.Sublist table.names := h ▸ List.sublist_append_left front back
  exact ⟨⟨front, fun name hname => table.identifiers name (within.subset hname), table.distinct.sublist within,
    within.length_le.trans table.length_le⟩, rfl⟩

/-- Names that are accepted one after the other are added in this order. -/
theorem foldlM_push_eq_ok_iff :
    names.foldlM push table = .ok grown ↔ grown.names = table.names ++ names := by
  induction names generalizing table with
  | nil =>
    rw [List.append_nil, List.foldlM_nil]
    exact ⟨fun h => congrArg NameTable.names (Except.ok.inj h).symm, fun h => congrArg Except.ok (ext_names h.symm)⟩
  | cons name names ih =>
    rw [List.foldlM_cons]
    constructor
    · intro h
      cases hpush : table.push name with
      | error fault => rw [hpush] at h; exact nomatch h
      | ok next =>
        rw [hpush] at h
        rw [ih.mp h, push_eq_ok_iff.mp hpush, List.append_assoc, List.singleton_append]
    · intro h
      rw [List.append_cons] at h
      obtain ⟨next, hnext⟩ := exists_names_eq h
      rw [push_eq_ok_iff.mpr hnext]
      exact ih.mpr (hnext ▸ h)

/-- A list of names is accepted exactly when it is the list of names of a table, which is then the result. -/
theorem ofList_eq_ok_iff : ofList names = .ok table ↔ table.names = names := by
  rw [ofList, foldlM_push_eq_ok_iff, empty, List.nil_append]

/-! ## The canonical letters -/

/-- The table of the canonical letters of the first positions. -/
def canonical (count : Nat) (fits : count ≤ maxVariables) : NameTable where
  names := (List.range count).map fun position => (Variable.letter position).toString
  identifiers := by
    intro name hname
    obtain ⟨position, hposition, rfl⟩ := List.mem_map.mp hname
    have lettered : ∀ i < maxVariables, Text.isIdentifier (Variable.letter i).toString = true := by decide
    exact lettered position ((List.mem_range.mp hposition).trans_le fits)
  distinct := by
    have all : ((List.range maxVariables).map fun position => (Variable.letter position).toString).Nodup := by decide
    exact all.sublist ((List.range_sublist.mpr fits).map _)
  length_le := by rwa [List.length_map, List.length_range]

/-- There are letters for as many positions as there may be. -/
theorem letters_eq_ok {count : Nat} (fits : count ≤ maxVariables) : letters count = .ok (canonical count fits) := by
  rw [letters, if_pos fits, ofList_eq_ok_iff]
  rfl

end PrimeCover.NameTable
