/-!
# Labels

Candidates are labelled `a`, `b`, …, `z`, `aa`, `ab`, …: the numerals of base 26 whose digits run from 1
(`a`) to 26 (`z`), so that every positive number has exactly one numeral and no digit stands for zero. The
label of index `i` is the numeral of `i + 1`, and `Label.value` reads a numeral.

`ofWord?` writes the same label in checked arithmetic: the index, and what is left of it while its letters are written,
are words of sixty-four bits, and a letter is a byte. A sum or a difference that leaves its width gives nothing, and with
it the label. What a checked operation gives is the sum or the difference of the numbers (`add?_eq_some_iff`,
`sub?_eq_some_iff`).
-/

set_option autoImplicit false

namespace PrimeCover.Label

/-! ## Numerals -/

/-- The numbers met while the numeral of `n` is written from its least significant digit: `n` itself, then what
is left of it after each digit. -/
def remainders (n : Nat) : List Nat :=
  if n = 0 then [] else n :: remainders ((n - 1) / 26)
termination_by n
decreasing_by omega

/-- The least significant digit of a positive number. -/
def digit (n : Nat) : Char :=
  Char.ofNat ('a'.toNat + (n - 1) % 26)

/-- The label of an index. -/
def ofIndex (index : Nat) : String :=
  String.ofList ((remainders (index + 1)).map digit).reverse

/-- The number that a numeral stands for, its most significant letter first. -/
def value (letters : List Char) : Nat :=
  letters.foldl (fun n c => 26 * n + (c.toNat - 'a'.toNat + 1)) 0

/-! ## Checked operations -/

section Checked

variable {width : Nat} {a b c : BitVec width}

/-- The sum of two words, unless it overflows. -/
def add? (a b : BitVec width) : Option (BitVec width) :=
  if a.uaddOverflow b then none else some (a + b)

/-- The difference of two words, unless it is negative. -/
def sub? (a b : BitVec width) : Option (BitVec width) :=
  if a.usubOverflow b then none else some (a - b)

/-- A checked sum is the sum of the numbers. -/
theorem add?_eq_some_iff : add? a b = some c ↔ c.toNat = a.toNat + b.toNat := by
  unfold add?
  split
  · next overflows =>
    have large := of_decide_eq_true overflows
    have hc := c.isLt
    exact iff_of_false nofun (by omega)
  · next fits => rw [Option.some.injEq, ← BitVec.toNat_inj, BitVec.toNat_add_of_not_uaddOverflow fits, eq_comm]

/-- A checked difference is the difference of the numbers. -/
theorem sub?_eq_some_iff : sub? a b = some c ↔ c.toNat + b.toNat = a.toNat := by
  unfold sub?
  split
  · next overflows =>
    have small := of_decide_eq_true overflows
    exact iff_of_false nofun (by omega)
  · next fits =>
    have enough := Nat.le_of_not_lt (mt decide_eq_true fits)
    rw [Option.some.injEq, ← BitVec.toNat_inj, BitVec.toNat_sub_of_not_usubOverflow fits]
    omega

/-- A checked difference fails exactly when it would be negative. -/
theorem sub?_eq_none_iff : sub? a b = none ↔ a.toNat < b.toNat := by
  unfold sub?
  split
  · next overflows => exact iff_of_true rfl (of_decide_eq_true overflows)
  · next fits => exact iff_of_false nofun (mt decide_eq_true fits)

end Checked

/-! ## Labels in words -/

/-- The letter whose place in the alphabet is the remainder of a word. -/
def letter? (rem : BitVec 64) : Option Char := do
  let byte ← add? 97#8 ((rem % 26#64).setWidth 8)
  return Char.ofNat byte.toNat

/-- Writes the letters of a number, its least significant letter first, behind those that are written already. -/
def write? (written : List Char) (rem : BitVec 64) : Option (List Char) :=
  if rem = 0#64 then some written
  else
    match _hless : sub? rem 1#64 with
    | none => none
    | some less => do
      let letter ← letter? less
      write? (written ++ [letter]) (less / 26#64)
termination_by rem.toNat
decreasing_by
  have smaller : less.toNat + 1 = rem.toNat := sub?_eq_some_iff.mp _hless
  rw [BitVec.toNat_udiv]
  exact Nat.lt_of_le_of_lt (Nat.div_le_self ..) (smaller ▸ Nat.lt_add_one _)

/-- The label of an index, unless an operation on the way leaves its width. -/
def ofWord? (index : BitVec 64) : Option String := do
  let rem ← add? index 1#64
  let written ← write? [] rem
  return String.ofList written.reverse

end PrimeCover.Label
