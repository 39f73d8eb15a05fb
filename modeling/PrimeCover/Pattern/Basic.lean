import PrimeCover.Binary
import PrimeCover.Basic
import PrimeCover.NatSet
import PrimeCover.Pattern.Trit

/-!
# Patterns

A pattern fixes some of at most ten positions to a binary digit and leaves the others free. It stands for the
numbers whose digits it allows, its minterms: `m ∈ p` says that `m` has no more digits than the pattern has
positions and that every fixed position agrees (`mem_iff`). A pattern contains another one of the same length
when all that it fixes is fixed there too. An implicant of a set of minterms is a pattern that stands for minterms of
this set only; it is prime when no other implicant contains it, and essential when some minterm belongs to no other
prime implicant.
-/

set_option autoImplicit false

namespace PrimeCover

/-- A choice of zero, one or free for each of at most ten positions, the most significant one first. -/
structure Pattern where
  /-- The states of the positions. -/
  trits : List Trit
  /-- There are no more positions than variables. -/
  length_le : trits.length ≤ maxVariables
deriving DecidableEq, Hashable

namespace Pattern

variable {p q : Pattern}

/-- A pattern is determined by its states. -/
theorem ext_trits (h : p.trits = q.trits) : p = q := by
  cases p; cases q; cases h; rfl

/-- The number of positions. -/
def length (p : Pattern) : Nat := p.trits.length

/-! ## Construction -/

/-- The pattern with the given states. -/
def ofTrits (trits : List Trit) : Except Fault Pattern :=
  if fits : trits.length ≤ maxVariables then .ok ⟨trits, fits⟩
  else .error (.tooManyVariables trits.length maxVariables)

/-- The pattern whose positions are all free. -/
def free (length : Nat) : Except Fault Pattern :=
  if fits : length ≤ maxVariables then .ok ⟨List.replicate length .free, by simpa using fits⟩
  else .error (.tooManyVariables length maxVariables)

/-- The pattern that fixes every position to the digit of a number. The length is looked at first, then
whether the number fits. -/
def ofMinterm (value length : Nat) : Except Fault Pattern :=
  if fits : length ≤ maxVariables then
    if value < Binary.capacity length then .ok ⟨(Binary.digits length value).map Trit.ofBool, by simpa using fits⟩
    else .error (.tooManyVariables (Binary.length value) length)
  else .error (.tooManyVariables length maxVariables)

/-! ## Positions -/

/-- The digit that a position is fixed to; nothing for a free position and past the end. -/
def get? (p : Pattern) (position : Nat) : Option Bool :=
  p.trits[position]?.bind Trit.value?

/-- The digits of all positions, nothing for the free ones. -/
def values (p : Pattern) : List (Option Bool) :=
  p.trits.map Trit.value?

/-- The fixed positions and their digits, in order. -/
def fixed (p : Pattern) : List (Nat × Bool) :=
  p.trits.zipIdx.filterMap fun (t, position) => t.value?.map (position, ·)

/-- The number of positions fixed at one. -/
def weight (p : Pattern) : Nat :=
  p.trits.count .one

/-- The number of fixed positions. -/
def literalCount (p : Pattern) : Nat :=
  p.trits.countP (· ≠ .free)

/-- The number of free positions. -/
def freeCount (p : Pattern) : Nat :=
  p.length - p.literalCount

/-- Whether all positions are free. -/
def isFree (p : Pattern) : Bool :=
  p.trits.all (· = .free)

/-! ## Minterms -/

/-- Whether every digit is allowed at its position. -/
def admits : List Trit → List Bool → Bool
  | [], [] => true
  | t :: trits, digit :: digits => t.allows digit && admits trits digits
  | _, _ => false

/-- A number belongs to a pattern when it fits into the positions and each of its digits is allowed. -/
instance : Membership Nat Pattern where
  mem p m := m < Binary.capacity p.length ∧ admits p.trits (Binary.digits p.length m) = true

/-- Membership is decided on the digits of the number. -/
instance (m : Nat) (p : Pattern) : Decidable (m ∈ p) :=
  inferInstanceAs (Decidable (m < Binary.capacity p.length ∧ admits p.trits (Binary.digits p.length m) = true))

/-- The numbers that a pattern stands for. -/
def minterms (p : Pattern) : NatSet :=
  NatSet.below (Binary.capacity p.length) (· ∈ p)

/-- The listed minterms are the numbers that belong to the pattern. -/
@[simp] theorem mem_minterms {m : Nat} : m ∈ p.minterms ↔ m ∈ p := by
  rw [minterms, NatSet.mem_below, decide_eq_true_iff]
  exact and_iff_right_of_imp And.left

/-- States admit as many digits when each state allows the digit at its place. -/
theorem admits_iff {trits : List Trit} {digits : List Bool} (h : trits.length = digits.length) :
    admits trits digits = true ↔ ∀ (i : Nat) (t : Trit) (digit : Bool),
      trits[i]? = some t → digits[i]? = some digit → t.allows digit = true := by
  induction trits generalizing digits with
  | nil => cases digits <;> simp_all [admits]
  | cons t trits ih =>
    cases digits with
    | nil => simp at h
    | cons digit digits =>
      rw [admits, Bool.and_eq_true, ih (by simpa using h)]
      constructor
      · rintro ⟨here, later⟩ i s d hs hd
        cases i with
        | zero => simp_all
        | succ i => exact later i s d (by simpa using hs) (by simpa using hd)
      · intro all
        exact ⟨all 0 t digit rfl rfl, fun i s d hs hd => all (i + 1) s d (by simpa using hs) (by simpa using hd)⟩

/-- A number belongs to a pattern exactly when it has no more digits than the pattern has positions and its
digit at every fixed position is the one that is fixed there. -/
theorem mem_iff {m : Nat} :
    m ∈ p ↔ m < Binary.capacity p.length ∧ ∀ i b, p.get? i = some b → m.testBit (p.length - 1 - i) = b := by
  refine and_congr_right fun _ => ?_
  rw [admits_iff (by rw [Binary.length_digits]; rfl)]
  constructor
  · intro h i b hb
    obtain ⟨t, ht, hv⟩ := Option.bind_eq_some_iff.mp hb
    have hi : i < p.length := (List.getElem?_eq_some_iff.mp ht).1
    exact (Trit.allows_eq_true_iff.mp (h i t _ ht (Binary.getElem?_digits hi)) b hv).symm
  · intro h i t digit ht hd
    have hi : i < p.length := (List.getElem?_eq_some_iff.mp ht).1
    rw [Binary.getElem?_digits hi, Option.some.injEq] at hd
    refine Trit.allows_eq_true_iff.mpr fun b hb => ?_
    rw [← hd]
    exact (h i b (Option.bind_eq_some_iff.mpr ⟨t, ht, hb⟩)).symm

/-! ## Inclusion -/

/-- Whether each state is free or the same as the other pattern's at its position. -/
def includes : List Trit → List Trit → Bool
  | [], [] => true
  | s :: outer, t :: inner => (s = .free || s = t) && includes outer inner
  | _, _ => false

/-- Whether a pattern contains another one: their lengths are equal, and the other one fixes all that this
one fixes, to the same digits. -/
def contains (p q : Pattern) : Bool :=
  includes p.trits q.trits

/-! ## Implicants -/

/-- The pattern has the given length and stands for listed minterms only. -/
def IsImplicant (length : Nat) (minterms : List Nat) (p : Pattern) : Prop :=
  p.length = length ∧ ∀ m, m ∈ p → m ∈ minterms

/-- No other implicant contains this one. -/
def IsPrime (length : Nat) (minterms : List Nat) (p : Pattern) : Prop :=
  p.IsImplicant length minterms ∧ ∀ q : Pattern, q.IsImplicant length minterms → q.contains p = true → q = p

/-- The pattern is the only prime implicant that stands for the minterm. -/
def IsOnlyCover (length : Nat) (minterms : List Nat) (p : Pattern) (m : Nat) : Prop :=
  p.IsPrime length minterms ∧ m ∈ p ∧ ∀ q : Pattern, q.IsPrime length minterms → m ∈ q → q = p

/-- Some minterm belongs to this prime implicant and to no other one. -/
def IsEssential (length : Nat) (minterms : List Nat) (p : Pattern) : Prop :=
  ∃ m ∈ minterms, p.IsOnlyCover length minterms m

end Pattern

end PrimeCover
