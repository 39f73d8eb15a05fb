/-!
# Binary digits

The number of binary digits of a number, the digits of a number at a given width, and the number that a list
of digits stands for. The most significant digit comes first. The numbers below `capacity width` are those with
at most `width` digits, and for them `digits` and `ofDigits` undo each other (`ofDigits_digits`,
`digits_ofDigits`).
-/

set_option autoImplicit false

namespace PrimeCover.Binary

/-- The number of binary digits of `n`; zero is written with one digit. -/
def length (n : Nat) : Nat :=
  n.log2 + 1

/-- How many numbers there are with at most `width` binary digits: two to the power of the width. -/
def capacity (width : Nat) : Nat :=
  Nat.pow 2 width

/-- The `width` lowest binary digits of `n`, the most significant one first. -/
def digits : (width n : Nat) → List Bool
  | 0, _ => []
  | width + 1, n => n.testBit width :: digits width n

/-- The number whose binary digits are given, the most significant one first. -/
def ofDigits : List Bool → Nat
  | [] => 0
  | b :: digits => capacity digits.length * b.toNat + ofDigits digits

/-- One more digit doubles the capacity. -/
theorem capacity_succ (width : Nat) : capacity (width + 1) = 2 * capacity width :=
  Nat.pow_succ'

/-- A number has as many digits at a width as the width says. -/
@[simp] theorem length_digits (width n : Nat) : (digits width n).length = width := by
  induction width with
  | zero => rfl
  | succ width ih => rw [digits, List.length_cons, ih]

/-- The digit at position `i` stands `width - 1 - i` places before the least significant one. -/
theorem getElem?_digits {width n i : Nat} (h : i < width) :
    (digits width n)[i]? = some (n.testBit (width - 1 - i)) := by
  induction width generalizing i with
  | zero => exact absurd h (Nat.not_lt_zero i)
  | succ width ih =>
    cases i with
    | zero => simp [digits]
    | succ i =>
      rw [digits, List.getElem?_cons_succ, ih (Nat.lt_of_succ_lt_succ h)]
      congr 2
      omega

/-- The number of a list of digits is below the capacity of their count. -/
theorem ofDigits_lt (digits : List Bool) : ofDigits digits < capacity digits.length := by
  induction digits with
  | nil => exact Nat.one_pos
  | cons b digits ih =>
    rw [ofDigits, List.length_cons, capacity_succ]
    cases b with
    | false => rw [Bool.toNat_false, Nat.mul_zero]; omega
    | true => rw [Bool.toNat_true, Nat.mul_one]; omega

/-- The digits at a width depend on the remainder modulo the capacity of the width alone. -/
theorem digits_capacity_mul_add (width high low : Nat) :
    digits width (capacity width * high + low) = digits width low := by
  suffices general : ∀ k ≤ width, digits k (capacity width * high + low) = digits k low from
    general width (Nat.le_refl width)
  intro k hk
  induction k with
  | zero => rfl
  | succ k ih =>
    rw [digits, digits, ih (Nat.le_of_succ_le hk)]
    congr 1
    rw [Nat.testBit_eq_decide_div_mod_eq, Nat.testBit_eq_decide_div_mod_eq]
    obtain ⟨d, rfl⟩ : ∃ d, width = k + 1 + d := ⟨width - (k + 1), by omega⟩
    have split : capacity (k + 1 + d) * high = 2 ^ k * (2 * (2 ^ d * high)) := by
      rw [capacity, Nat.pow_eq, Nat.pow_add, Nat.pow_succ]
      simp only [Nat.mul_assoc]
    rw [split, Nat.mul_add_div (Nat.two_pow_pos k), Nat.mul_add_mod]

/-- The digits of the number that a list of digits stands for are the list. -/
theorem digits_ofDigits (bits : List Bool) : digits bits.length (ofDigits bits) = bits := by
  induction bits with
  | nil => rfl
  | cons b bits ih =>
    have top : (capacity bits.length * b.toNat + ofDigits bits).testBit bits.length = b := by
      rw [capacity, Nat.pow_eq, Nat.testBit_two_pow_mul_add _ (ofDigits_lt bits)]
      cases b <;> simp
    rw [List.length_cons, digits, ofDigits, top, digits_capacity_mul_add, ih]

/-- A number that fits into a width is the number of its digits there. -/
theorem ofDigits_digits {width n : Nat} (h : n < capacity width) : ofDigits (digits width n) = n := by
  suffices general : ∀ k, ofDigits (digits k n) = n % capacity k by
    rw [general, Nat.mod_eq_of_lt h]
  intro k
  induction k with
  | zero => exact (Nat.mod_one n).symm
  | succ k ih =>
    rw [digits, ofDigits, ih, length_digits, capacity_succ, Nat.mul_comm 2, Nat.mod_mul,
      Nat.testBit_eq_decide_div_mod_eq, capacity, Nat.pow_eq]
    rcases Nat.mod_two_eq_zero_or_one (n / 2 ^ k) with h | h <;> simp [h]
    omega

/-- A positive number fits into `width` digits exactly when it is below their capacity. -/
theorem length_le_iff {n width : Nat} (h : n ≠ 0) : length n ≤ width ↔ n < capacity width := by
  rw [length, Nat.succ_le_iff]
  exact Nat.log2_lt h

end PrimeCover.Binary
