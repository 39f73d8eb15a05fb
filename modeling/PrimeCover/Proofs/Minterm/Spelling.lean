import Mathlib
import PrimeCover.Minterm

/-!
# Tokens that spell a minterm

A token spells a minterm when it is a nonempty run of decimal digits whose value is in range; leading zeros do not
change the value. `Spells` says this with the value of the digits by their places, and reading a token finds the
spelled number or reports the token (`ofToken_eq_ok_iff`, `ofToken_eq_error_iff`). The decimal text of a minterm
spells it, with any number of zeros in front (`spells_padded`).
-/

set_option autoImplicit false

namespace PrimeCover.Minterm

variable {token : List Char} {m : Nat} {fault : Fault}

/-- The token is a nonempty run of decimal digits, and these stand for a minterm. -/
structure Spells (token : List Char) (m : Nat) : Prop where
  ne_nil : token ≠ []
  isDigit : ∀ c ∈ token, c.isDigit = true
  value : Nat.ofDigits 10 (token.reverse.map fun c => c.toNat - '0'.toNat) = m
  lt : m < 2 ^ 32

/-- The number of a token does not depend on the end from which its digits are read. -/
theorem ofDigits_reverse (token : List Char) :
    Nat.ofDigits 10 (token.reverse.map fun c => c.toNat - '0'.toNat) = Nat.ofDigitChars 10 token 0 := by
  rw [Nat.ofDigits_eq_foldr, List.map_reverse, List.foldr_reverse, List.foldl_map, Nat.ofDigitChars_eq_foldl]
  congr 1
  funext n c
  exact Nat.add_comm _ _

/-- A token is read as the minterm that it spells. -/
theorem ofDigits?_eq_some_iff : ofDigits? token = some m ↔ Spells token m := by
  unfold ofDigits?
  rw [Option.ite_none_right_eq_some, Option.some.injEq, List.all_eq_true]
  constructor
  · rintro ⟨⟨hne, hdigits, hlt⟩, rfl⟩
    exact ⟨hne, hdigits, ofDigits_reverse token, hlt⟩
  · rintro ⟨hne, hdigits, rfl, hlt⟩
    rw [ofDigits_reverse] at hlt ⊢
    exact ⟨⟨hne, hdigits, hlt⟩, rfl⟩

/-- A token is accepted exactly when it spells a minterm. -/
theorem ofToken_eq_ok_iff : ofToken token = .ok m ↔ Spells token m := by
  rw [← ofDigits?_eq_some_iff]
  unfold ofToken
  cases ofDigits? token <;> simp

/-- A token that spells no minterm is refused with its own text. -/
theorem ofToken_eq_error_iff :
    ofToken token = .error fault ↔ (¬ ∃ m, Spells token m) ∧ fault = .notAMinterm (String.ofList token) := by
  simp only [← ofDigits?_eq_some_iff]
  unfold ofToken
  cases ofDigits? token <;> simp [eq_comm]

/-- The decimal text of a minterm spells it, also behind zeros. -/
theorem spells_padded (zeros : Nat) (hm : m < 2 ^ 32) :
    Spells (List.replicate zeros '0' ++ m.repr.toList) m := by
  rw [Nat.toList_repr]
  refine ⟨?_, ?_, ?_, hm⟩
  · exact List.append_ne_nil_of_right_ne_nil _ Nat.toDigits_ne_nil
  · intro c hc
    rcases List.mem_append.mp hc with hc | hc
    · rw [List.eq_of_mem_replicate hc]
      rfl
    · exact Nat.isDigit_of_mem_toDigits (by decide) (by decide) hc
  · rw [ofDigits_reverse, Nat.ofDigitChars_append, Nat.ofDigitChars_replicate_zero, Nat.mul_zero,
      Nat.ofDigitChars_toDigits (by decide) (by decide)]

end PrimeCover.Minterm
