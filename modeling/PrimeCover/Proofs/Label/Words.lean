import Mathlib
import PrimeCover.Proofs.Label.Numerals

/-!
# Labels in checked arithmetic

The loop that writes a label never leaves its widths: what is left of a positive number is positive before one is taken
from it, and the place of a letter in the alphabet fits into a byte beside the code of the first letter (`letter?_eq`,
`write?_eq`). Only the successor of the last word overflows. So the label in words is the label of the index for every
word but the last (`ofWord?_eq_some_iff`). Main statement: `ofIndex_lists_numerals`.
-/

set_option autoImplicit false

namespace PrimeCover.Label

/-- A checked sum fails exactly when it does not fit into the width. -/
theorem add?_eq_none_iff {width : Nat} {a b : BitVec width} : add? a b = none ↔ 2 ^ width ≤ a.toNat + b.toNat := by
  unfold add?
  split
  · next overflows => exact iff_of_true rfl (of_decide_eq_true overflows)
  · next fits => exact iff_of_false nofun (mt decide_eq_true fits)

/-- The byte of a letter never overflows, and the letter is the digit of the next number. -/
theorem letter?_eq (rem : BitVec 64) : letter? rem = some (digit (rem.toNat + 1)) := by
  have hsmall : rem.toNat % 26 < 26 := Nat.mod_lt _ (by decide)
  have hplace : ((rem % 26#64).setWidth 8).toNat = rem.toNat % 26 := by
    rw [BitVec.toNat_setWidth, BitVec.toNat_umod]
    exact Nat.mod_eq_of_lt (hsmall.trans (by decide))
  unfold letter?
  cases hbyte : add? 97#8 ((rem % 26#64).setWidth 8) with
  | none =>
    have hlarge : 256 ≤ 97 + ((rem % 26#64).setWidth 8).toNat := add?_eq_none_iff.mp hbyte
    omega
  | some byte =>
    have hcode : byte.toNat = 97 + rem.toNat % 26 := hplace ▸ add?_eq_some_iff.mp hbyte
    show some (Char.ofNat byte.toNat) = some (digit (rem.toNat + 1))
    rw [hcode]
    rfl

/-- The last letter of a number is written first, and then those of what is left. -/
theorem write?_of_sub? {written : List Char} {rem less : BitVec 64} (hless : sub? rem 1#64 = some less) :
    write? written rem = write? (written ++ [digit rem.toNat]) (less / 26#64) := by
  have hsucc : less.toNat + 1 = rem.toNat := sub?_eq_some_iff.mp hless
  have hrem : rem ≠ 0#64 := by
    rintro rfl
    exact absurd hsucc (Nat.succ_ne_zero _)
  rw [write?, if_neg hrem]
  split
  · next hnone => exact absurd (hless.symm.trans hnone) (Option.some_ne_none less)
  · next other hother =>
    cases hless.symm.trans hother
    rw [letter?_eq, hsucc]
    rfl

/-- The letters of a number are written behind those that were written before. -/
theorem write?_eq (written : List Char) (rem : BitVec 64) :
    write? written rem = some (written ++ (remainders rem.toNat).map digit) := by
  induction written, rem using write?.induct with
  | case1 written =>
    rw [write?, if_pos rfl, remainders, BitVec.toNat_zero, if_pos rfl, List.map_nil, List.append_nil]
  | case2 written rem hrem hnone =>
    have hzero : rem.toNat = 0 := Nat.lt_one_iff.mp (sub?_eq_none_iff.mp hnone)
    exact absurd (BitVec.eq_of_toNat_eq hzero) hrem
  | case3 written rem hrem less hless ih =>
    have hsucc : less.toNat + 1 = rem.toNat := sub?_eq_some_iff.mp hless
    have hletters : remainders rem.toNat = rem.toNat :: remainders (less / 26#64).toNat := by
      rw [remainders, if_neg (by omega), ← hsucc, BitVec.toNat_udiv]
      rfl
    rw [write?_of_sub? hless, ih, hletters, List.map_cons, List.append_assoc, List.singleton_append]

/-- The checked operations give the label of every word but the last, whose successor is no word. -/
theorem ofWord?_eq_some_iff {index : BitVec 64} {label : String} :
    ofWord? index = some label ↔ index.toNat < 2 ^ 64 - 1 ∧ label = ofIndex index.toNat := by
  unfold ofWord?
  cases hrem : add? index 1#64 with
  | none =>
    have hlast : 2 ^ 64 ≤ index.toNat + 1 := add?_eq_none_iff.mp hrem
    refine iff_of_false nofun ?_
    rintro ⟨hindex, -⟩
    omega
  | some rem =>
    have hsucc : rem.toNat = index.toNat + 1 := add?_eq_some_iff.mp hrem
    have hindex : index.toNat < 2 ^ 64 - 1 := by
      have hbound := rem.isLt
      omega
    have hlabel : String.ofList ((remainders rem.toNat).map digit).reverse = ofIndex index.toNat := by
      rw [hsucc]
      rfl
    show (write? [] rem >>= fun written => some (String.ofList written.reverse)) = some label ↔ _
    rw [write?_eq, List.nil_append]
    show some (String.ofList ((remainders rem.toNat).map digit).reverse) = some label ↔ _
    rw [hlabel, Option.some.injEq, and_iff_right hindex, eq_comm]

/-- Every word but the last has a label, and no operation on the way to it leaves its width. The labels are nonempty words
over the letters `a` to `z`, and the value of a label in base 26, with digits from 1 (`a`) to 26 (`z`), is the successor
of its index. So two indices have two labels, the shortlex order of the labels is the order of the indices, and every
nonempty word over these letters whose value is below `2 ^ 64` is the label of exactly one index. -/
theorem ofIndex_lists_numerals :
    (∀ (index : BitVec 64) (label : String),
      ofWord? index = some label ↔ index.toNat < 2 ^ 64 - 1 ∧ label = ofIndex index.toNat) ∧
    (∀ index : Nat, ofIndex index ≠ "" ∧ IsNumeral (ofIndex index).toList ∧
      value (ofIndex index).toList = index + 1) ∧
    (∀ i j : Nat, ofIndex i = ofIndex j ↔ i = j) ∧
    (∀ i j : Nat, List.Shortlex (· < ·) (ofIndex i).toList (ofIndex j).toList ↔ i < j) ∧
    ∀ text : String, text ≠ "" → IsNumeral text.toList → value text.toList ≤ 2 ^ 64 - 1 →
      ∃! index : BitVec 64, ofWord? index = some text := by
  refine ⟨fun _ _ => ofWord?_eq_some_iff, ?_, fun _ _ => ofIndex_inj, fun _ _ => shortlex_ofIndex_iff, ?_⟩
  · intro index
    exact ⟨ofIndex_ne_empty index, isNumeral_ofIndex index, value_ofIndex index⟩
  · intro text hne hnumeral hbound
    have hpos : 0 < value text.toList := value_pos (mt String.toList_eq_nil_iff.mp hne)
    have hindex : (BitVec.ofNat 64 (value text.toList - 1)).toNat = value text.toList - 1 := by
      rw [BitVec.toNat_ofNat]
      exact Nat.mod_eq_of_lt (by omega)
    refine ⟨BitVec.ofNat 64 (value text.toList - 1), ?_, ?_⟩
    · dsimp only
      rw [ofWord?_eq_some_iff, hindex, eq_comm, ofIndex_eq_iff hnumeral]
      omega
    · intro other hother
      obtain ⟨-, hlabel⟩ := ofWord?_eq_some_iff.mp hother
      have hvalue := (ofIndex_eq_iff hnumeral).mp hlabel.symm
      apply BitVec.eq_of_toNat_eq
      omega

-- the label of the last word that has one
example : ofWord? (BitVec.allOnes 64 - 1#64) = some "gkgwbylwrxtlpo" := by cbv

end PrimeCover.Label
