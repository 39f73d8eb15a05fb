/-!
# Trits

The state of one position of a pattern: fixed at zero, fixed at one, or free.
-/

set_option autoImplicit false

namespace PrimeCover

/-- The state of a position. -/
inductive Trit where
  /-- Fixed at zero. -/
  | zero
  /-- Fixed at one. -/
  | one
  /-- Free: both digits are allowed. -/
  | free
deriving DecidableEq, Hashable, Repr

namespace Trit

/-- The state that fixes a position at a binary digit. -/
def ofBool : Bool → Trit
  | false => zero
  | true => one

/-- The digit that the state fixes, if it fixes one. -/
def value? : Trit → Option Bool
  | zero => some false
  | one => some true
  | free => none

/-- Whether a digit may stand at a position with this state. -/
def allows : Trit → Bool → Bool
  | zero, digit => !digit
  | one, digit => digit
  | free, _ => true

/-- The symbol of a state. -/
def toChar : Trit → Char
  | zero => '0'
  | one => '1'
  | free => '-'

/-- The state that a symbol stands for. -/
def ofChar? : Char → Option Trit
  | '0' => some zero
  | '1' => some one
  | '-' => some free
  | _ => none

/-- The symbol of a state is read back. -/
@[simp] theorem ofChar?_toChar (t : Trit) : ofChar? t.toChar = some t := by
  cases t <;> rfl

/-- The state that a character is read as has this character for its symbol. -/
theorem toChar_of_ofChar? {c : Char} {t : Trit} (h : ofChar? c = some t) : t.toChar = c := by
  unfold ofChar? at h
  split at h <;> cases h <;> rfl

/-- A fixed position allows its digit alone, a free one every digit. -/
theorem allows_eq_true_iff {t : Trit} {digit : Bool} :
    t.allows digit = true ↔ ∀ b, t.value? = some b → b = digit := by
  cases t <;> cases digit <;> decide

end Trit

end PrimeCover
