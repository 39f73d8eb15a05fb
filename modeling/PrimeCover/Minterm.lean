import PrimeCover.Binary
import PrimeCover.Basic
import PrimeCover.Text.Token

/-!
# Lists of minterms

A function is given by its minterms: the numbers whose binary digits make it true. `Minterm.check` says which
lists describe a function, and `Minterm.parse` reads such a list from text. Of several faults the first token
that is no minterm is reported, then the first repeat, then a minterm with too many digits.
-/

set_option autoImplicit false

namespace PrimeCover.Minterm

/-- The number that no minterm reaches, whatever the number of variables. -/
def bound : Nat := Binary.capacity 32

/-- The number that a token spells in decimal digits, leading zeros allowed. -/
def ofDigits? (token : List Char) : Option Nat :=
  if token ≠ [] ∧ token.all Char.isDigit ∧ Nat.ofDigitChars 10 token 0 < bound then
    some (Nat.ofDigitChars 10 token 0)
  else
    none

/-- The first number of a list that was seen before it. -/
def firstRepeat? : (seen minterms : List Nat) → Option Nat
  | _, [] => none
  | seen, m :: rest => if m ∈ seen then some m else firstRepeat? (m :: seen) rest

/-- The largest number of binary digits in a list of minterms, zero for the empty list. -/
def width (minterms : List Nat) : Nat :=
  (minterms.map Binary.length).foldl max 0

/-- Accepts the lists that describe a function: no minterm stands twice, and none needs more than
`maxVariables` digits. -/
def check (minterms : List Nat) : Except Fault Unit :=
  match firstRepeat? [] minterms with
  | some m => .error (.duplicateMinterm m)
  | none =>
    if width minterms ≤ maxVariables then .ok ()
    else .error (.tooManyVariables (width minterms) maxVariables)

/-- Reads one token. -/
def ofToken (token : List Char) : Except Fault Nat :=
  match ofDigits? token with
  | some m => .ok m
  | none => .error (.notAMinterm (String.ofList token))

/-- Reads a list of minterms, in the order of the text. -/
def parse (text : String) : Except Fault (List Nat) := do
  let minterms ← (Text.tokens text.toList).mapM ofToken
  check minterms
  return minterms

/-- No repeat is found exactly when the numbers are distinct and none of them was seen before. -/
theorem firstRepeat?_eq_none_iff {seen minterms : List Nat} :
    firstRepeat? seen minterms = none ↔ minterms.Nodup ∧ ∀ m ∈ minterms, m ∉ seen := by
  induction minterms generalizing seen with
  | nil => simp [firstRepeat?]
  | cons m rest ih =>
    rw [firstRepeat?, List.nodup_cons]
    split
    · next h => simp [h]
    · next h =>
      rw [ih]
      constructor
      · rintro ⟨distinct, fresh⟩
        refine ⟨⟨fun hm => fresh m hm List.mem_cons_self, distinct⟩, fun k hk => ?_⟩
        rcases List.mem_cons.mp hk with rfl | hk
        · exact h
        · exact fun hseen => fresh k hk (List.mem_cons_of_mem _ hseen)
      · rintro ⟨⟨absent, distinct⟩, fresh⟩
        refine ⟨distinct, fun k hk hseen => ?_⟩
        rcases List.mem_cons.mp hseen with rfl | hseen
        · exact absent hk
        · exact fresh k (List.mem_cons_of_mem _ hk) hseen

end PrimeCover.Minterm
