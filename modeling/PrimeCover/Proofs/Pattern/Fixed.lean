import PrimeCover.Pattern.Basic
import Mathlib

/-!
# Fixed positions

The positions that a pattern fixes, with their digits, and the length determine the pattern: `ofFixed` makes it from
them.
-/

set_option autoImplicit false

namespace PrimeCover.Pattern

variable {p : Pattern} {position : Nat} {digit : Bool}

/-- The fixed positions are listed with the digits that they are fixed to. -/
theorem mem_fixed : (position, digit) ∈ p.fixed ↔ p.get? position = some digit := by
  rw [fixed, List.mem_filterMap, get?, Option.bind_eq_some_iff]
  constructor
  · rintro ⟨⟨t, i⟩, hmem, hvalue⟩
    obtain ⟨b, hb, hpair⟩ := Option.map_eq_some_iff.mp hvalue
    obtain ⟨rfl, rfl⟩ := Prod.mk.inj hpair
    exact ⟨t, List.mem_zipIdx_iff_getElem?.mp hmem, hb⟩
  · rintro ⟨t, hget, hvalue⟩
    exact ⟨(t, position), List.mem_zipIdx_iff_getElem?.mpr hget, Option.map_eq_some_iff.mpr ⟨digit, hvalue, rfl⟩⟩

/-- A fixed position is a position of the pattern. -/
theorem lt_length_of_mem_fixed (h : (position, digit) ∈ p.fixed) : position < p.length := by
  obtain ⟨t, hget, -⟩ := Option.bind_eq_some_iff.mp (mem_fixed.mp h)
  exact (List.getElem?_eq_some_iff.mp hget).1

/-- No position is fixed exactly when all are free. -/
theorem fixed_eq_nil_iff : p.fixed = [] ↔ p.isFree = true := by
  rw [fixed, List.filterMap_eq_nil_iff, isFree, List.all_eq_true]
  constructor
  · intro h t ht
    obtain ⟨i, hi⟩ := List.mem_iff_getElem?.mp ht
    have unfixed := h (t, i) (List.mem_zipIdx_iff_getElem?.mpr hi)
    cases t with
    | zero => exact nomatch unfixed
    | one => exact nomatch unfixed
    | free => rfl
  · rintro h ⟨t, i⟩ hmem
    have free := of_decide_eq_true (h t (List.mem_of_getElem? (List.mem_zipIdx_iff_getElem?.mp hmem)))
    rw [free]
    rfl

/-- The state that a list of fixed positions gives to a position. -/
def stateIn (fixed : List (Nat × Bool)) (position : Nat) : Trit :=
  if (position, true) ∈ fixed then .one else if (position, false) ∈ fixed then .zero else .free

/-- The pattern of a length that fixes the listed positions and leaves the others free. -/
def ofFixed (length : Nat) (fixed : List (Nat × Bool)) : Except Fault Pattern :=
  ofTrits ((List.range length).map (stateIn fixed))

/-- The states of a pattern can be read off its fixed positions. -/
theorem map_stateIn_fixed (p : Pattern) : (List.range p.length).map (stateIn p.fixed) = p.trits := by
  refine List.ext_getElem (by rw [List.length_map, List.length_range]; rfl) fun i _ hi => ?_
  have hget : p.get? i = p.trits[i].value? := by
    rw [get?, List.getElem?_eq_getElem hi, Option.bind_some]
  simp only [List.getElem_map, List.getElem_range, stateIn, mem_fixed, hget]
  cases p.trits[i] <;> rfl

/-- A pattern is made again from its fixed positions and its length. -/
theorem ofFixed_fixed (p : Pattern) : ofFixed p.length p.fixed = .ok p := by
  rw [ofFixed, map_stateIn_fixed, ofTrits, dif_pos p.length_le]

end PrimeCover.Pattern
