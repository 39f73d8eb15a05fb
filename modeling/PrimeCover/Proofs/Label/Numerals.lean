import Mathlib
import PrimeCover.Label

/-!
# Numerals without a zero

A word over the letters `a` to `z` is a numeral, and `value` reads it. The numerals of one length take the values of a
range, and the numerals of the next length start where this range ends (`pow_le_value`, `value_lt_pow`). Hence the values
ascend as the numerals do in shortlex order (`value_lt_iff_shortlex`), and no two numerals have one value (`value_inj`).
The labels are numerals that take every positive value (`value_ofIndex`). So they are all the nonempty numerals, each once
(`ofIndex_eq_iff`), in shortlex order (`shortlex_ofIndex_iff`).
-/

set_option autoImplicit false

namespace PrimeCover.Label

variable {letters others : List Char} {c : Char} {i j : Nat}

/-- A word over the letters `a` to `z`. -/
def IsNumeral (letters : List Char) : Prop :=
  ∀ c ∈ letters, 'a' ≤ c ∧ c ≤ 'z'

/-! ## The value of a numeral -/

/-- One more letter behind a numeral multiplies its value by 26 and adds the digit. -/
theorem value_append_singleton (letters : List Char) (c : Char) :
    value (letters ++ [c]) = 26 * value letters + (c.toNat - 'a'.toNat + 1) := by
  simp [value]

/-- The first letter counts a power of 26 for each letter behind it. -/
theorem value_cons (c : Char) (letters : List Char) :
    value (c :: letters) = (c.toNat - 'a'.toNat + 1) * 26 ^ letters.length + value letters := by
  induction letters using List.reverseRecOn with
  | nil => simp [value]
  | append_singleton letters d ih =>
    rw [← List.cons_append, value_append_singleton, ih, value_append_singleton, List.length_append,
      List.length_singleton, pow_succ]
    ring

/-- A numeral is extended by a letter from the alphabet. -/
theorem isNumeral_append_singleton : IsNumeral (letters ++ [c]) ↔ IsNumeral letters ∧ 'a' ≤ c ∧ c ≤ 'z' := by
  unfold IsNumeral
  rw [List.forall_mem_append, List.forall_mem_singleton]

/-- No digit is larger than 26. -/
theorem digit_le (h : c ≤ 'z') : c.toNat - 'a'.toNat + 1 ≤ 26 := by
  have hlast : c.toNat ≤ 'a'.toNat + 25 := h
  omega

/-- The value grows with the number of letters, since no digit is zero. -/
theorem pow_le_value (letters : List Char) : 26 ^ letters.length ≤ 25 * value letters + 1 := by
  induction letters using List.reverseRecOn with
  | nil => simp [value]
  | append_singleton letters c ih =>
    rw [value_append_singleton, List.length_append, List.length_singleton, pow_succ]
    omega

/-- A nonempty numeral stands for a positive number. -/
theorem value_pos (h : letters ≠ []) : 0 < value letters := by
  have hlower := pow_le_value letters
  have hbase : 26 ≤ 26 ^ letters.length := Nat.le_self_pow (mt List.length_eq_zero_iff.mp h) 26
  omega

/-- The value is bounded by the number of letters. -/
theorem value_lt_pow (h : IsNumeral letters) : 25 * value letters + 26 ≤ 26 ^ (letters.length + 1) := by
  induction letters using List.reverseRecOn with
  | nil => simp [value]
  | append_singleton letters c ih =>
    obtain ⟨hletters, -, hc⟩ := isNumeral_append_singleton.mp h
    have hprev := ih hletters
    have hdigit := digit_le hc
    rw [value_append_singleton, List.length_append, List.length_singleton, pow_succ]
    omega

/-! ## The order of the values -/

/-- Of two numerals the shorter one stands for the smaller number. -/
theorem value_lt_of_length_lt (hletters : IsNumeral letters) (h : letters.length < others.length) :
    value letters < value others := by
  have hupper := value_lt_pow hletters
  have hlower := pow_le_value others
  have hnext : 26 ^ (letters.length + 1) ≤ 26 ^ others.length := Nat.pow_le_pow_right (by decide) h
  omega

/-- Of two numerals of one length the one that comes first in the alphabet stands for the smaller number. -/
theorem value_lt_of_lex (hletters : IsNumeral letters) (hlength : letters.length = others.length)
    (h : List.Lex (· < ·) letters others) : value letters < value others := by
  induction h with
  | nil => exact absurd hlength (Nat.zero_ne_add_one _)
  | cons h ih =>
    have hsame := Nat.succ.inj hlength
    have hrest := ih (List.forall_mem_cons.mp hletters).2 hsame
    rw [value_cons, value_cons, hsame]
    omega
  | @rel c letters d others hlt =>
    have hsame := Nat.succ.inj hlength
    obtain ⟨⟨hfirst, -⟩, hrest⟩ := List.forall_mem_cons.mp hletters
    -- a greater first digit outweighs everything behind it
    have hdigits : c.toNat - 'a'.toNat + 1 < d.toNat - 'a'.toNat + 1 := by
      have hcd : c.toNat < d.toNat := hlt
      have hac : 'a'.toNat ≤ c.toNat := hfirst
      omega
    have hweight := Nat.mul_le_mul_right (26 ^ others.length) (Nat.succ_le_of_lt hdigits)
    have hupper := value_lt_pow hrest
    have hlower := pow_le_value others
    rw [hsame, pow_succ] at hupper
    rw [Nat.succ_mul] at hweight
    rw [value_cons, value_cons, hsame]
    omega

/-- A numeral that comes first by length and then by the alphabet stands for the smaller number. -/
theorem value_lt_of_shortlex (hletters : IsNumeral letters) (h : List.Shortlex (· < ·) letters others) :
    value letters < value others := by
  rcases List.shortlex_def.mp h with hlength | ⟨hlength, hlex⟩
  · exact value_lt_of_length_lt hletters hlength
  · exact value_lt_of_lex hletters hlength hlex

/-- Numerals are ordered by length and then by the alphabet as their values are. -/
theorem value_lt_iff_shortlex (hletters : IsNumeral letters) (hothers : IsNumeral others) :
    value letters < value others ↔ List.Shortlex (· < ·) letters others := by
  constructor
  · intro hlt
    rcases trichotomous_of (List.Shortlex (· < ·)) letters others with h | rfl | h
    · exact h
    · exact absurd hlt (lt_irrefl _)
    · exact absurd (value_lt_of_shortlex hothers h) hlt.not_gt
  · exact value_lt_of_shortlex hletters

/-- Different numerals stand for different numbers. -/
theorem value_inj (hletters : IsNumeral letters) (hothers : IsNumeral others) :
    value letters = value others ↔ letters = others := by
  constructor
  · intro heq
    rcases trichotomous_of (List.Shortlex (· < ·)) letters others with h | h | h
    · exact absurd heq (value_lt_of_shortlex hletters h).ne
    · exact h
    · exact absurd heq (value_lt_of_shortlex hothers h).ne'
  · exact congrArg value

/-! ## The labels -/

/-- The code of a digit is that of `a` and the remainder. -/
theorem toNat_digit (n : Nat) : (digit n).toNat = 'a'.toNat + (n - 1) % 26 := by
  have hletters : ∀ place < 26, (Char.ofNat ('a'.toNat + place)).toNat = 'a'.toNat + place := by decide
  exact hletters _ (Nat.mod_lt _ (by decide))

/-- A label is a numeral. -/
theorem isNumeral_ofIndex (index : Nat) : IsNumeral (ofIndex index).toList := by
  intro c hc
  rw [ofIndex, String.toList_ofList, List.mem_reverse, List.mem_map] at hc
  obtain ⟨n, -, rfl⟩ := hc
  have hdigit := toNat_digit n
  have hmod := Nat.mod_lt (n - 1) (show 0 < 26 by decide)
  constructor
  · show 'a'.toNat ≤ (digit n).toNat
    omega
  · show (digit n).toNat ≤ 'a'.toNat + 25
    omega

/-- What is written from the remainders of a number stands for it. -/
theorem value_remainders (n : Nat) : value ((remainders n).map digit).reverse = n := by
  induction n using remainders.induct with
  | case1 => simp [remainders, value]
  | case2 n hn ih =>
    rw [remainders, if_neg hn, List.map_cons, List.reverse_cons, value_append_singleton, ih, toNat_digit]
    omega

/-- The label of an index stands for the number after it. -/
theorem value_ofIndex (index : Nat) : value (ofIndex index).toList = index + 1 := by
  rw [ofIndex, String.toList_ofList, value_remainders]

/-- No label is empty. -/
theorem ofIndex_ne_empty (index : Nat) : ofIndex index ≠ "" := by
  intro hempty
  have hvalue := value_ofIndex index
  rw [hempty] at hvalue
  exact Nat.succ_ne_zero index hvalue.symm

/-- Different indices have different labels. -/
theorem ofIndex_inj : ofIndex i = ofIndex j ↔ i = j := by
  rw [← String.toList_inj, ← value_inj (isNumeral_ofIndex i) (isNumeral_ofIndex j), value_ofIndex, value_ofIndex,
    Nat.add_right_cancel_iff]

/-- Labels are ordered by length and then by the alphabet as their indices are. -/
theorem shortlex_ofIndex_iff : List.Shortlex (· < ·) (ofIndex i).toList (ofIndex j).toList ↔ i < j := by
  rw [← value_lt_iff_shortlex (isNumeral_ofIndex i) (isNumeral_ofIndex j), value_ofIndex, value_ofIndex,
    Nat.add_lt_add_iff_right]

/-- A numeral is the label of the number before its value. -/
theorem ofIndex_eq_iff {text : String} (h : IsNumeral text.toList) :
    ofIndex i = text ↔ i + 1 = value text.toList := by
  rw [← value_ofIndex, value_inj (isNumeral_ofIndex i) h, String.toList_inj]

end PrimeCover.Label
