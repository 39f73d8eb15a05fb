import Mathlib
import PrimeCover.Pattern.Basic

/-!
# Inclusion of patterns

A pattern is read off from the digits it admits: `mem_ofDigits` turns membership of a number into a statement
about a list of digits, and `exists_mem` says that no pattern is empty. Between patterns of one length,
`contains` is then the inclusion of the minterms (`contains_iff`), and it is antisymmetric
(`eq_of_contains`). When an inclusion is strict, some position fixed by the smaller pattern can be freed
inside the larger one (`exists_freed_of_includes`).
-/

set_option autoImplicit false

namespace PrimeCover.Pattern

/-! ## States and digits -/

/-- States admit as many digits as there are states. -/
theorem length_eq_of_admits {trits : List Trit} {digits : List Bool} (h : admits trits digits = true) :
    trits.length = digits.length := by
  fun_induction admits trits digits with
  | case1 => rfl
  | case2 t trits digit digits ih =>
    rw [Bool.and_eq_true] at h
    simp only [List.length_cons, ih h.2]
  | case3 => exact absurd h Bool.false_ne_true

/-- Every state allows some digit. -/
theorem exists_allows (t : Trit) : ∃ digit, t.allows digit = true := by
  cases t with
  | zero => exact ⟨false, rfl⟩
  | one => exact ⟨true, rfl⟩
  | free => exact ⟨true, rfl⟩

/-- Every list of states admits some digits. -/
theorem exists_admits (trits : List Trit) : ∃ digits, admits trits digits = true := by
  induction trits with
  | nil => exact ⟨[], rfl⟩
  | cons t trits ih =>
    obtain ⟨digits, hdigits⟩ := ih
    obtain ⟨digit, hdigit⟩ := exists_allows t
    exact ⟨digit :: digits, by rw [admits, hdigit, hdigits]; rfl⟩

/-- A state admits all digits of another one exactly when it is free or the same state. -/
theorem allows_imp_iff {s t : Trit} :
    (∀ digit, t.allows digit = true → s.allows digit = true) ↔ s = .free ∨ s = t := by
  cases s <;> cases t <;> simp [Trit.allows]

/-- One list of states includes another one exactly when it admits all digits that the other one admits. -/
theorem includes_iff {outer inner : List Trit} (hlen : outer.length = inner.length) :
    includes outer inner = true ↔ ∀ digits, admits inner digits = true → admits outer digits = true := by
  induction outer generalizing inner with
  | nil =>
    cases inner with
    | nil => simp [includes]
    | cons t inner => simp at hlen
  | cons s outer ih =>
    cases inner with
    | nil => simp at hlen
    | cons t inner =>
      have hlen' : outer.length = inner.length := by simpa using hlen
      rw [includes, Bool.and_eq_true, Bool.or_eq_true, decide_eq_true_iff, decide_eq_true_iff, ih hlen',
        ← allows_imp_iff]
      constructor
      · rintro ⟨hhead, htail⟩ digits hdigits
        cases digits with
        | nil => exact absurd hdigits Bool.false_ne_true
        | cons digit digits =>
          rw [admits, Bool.and_eq_true] at hdigits ⊢
          exact ⟨hhead digit hdigits.1, htail digits hdigits.2⟩
      · intro hall
        -- either half of the list is probed with any admitted choice for the other half
        obtain ⟨digits₀, hdigits₀⟩ := exists_admits inner
        obtain ⟨digit₀, hdigit₀⟩ := exists_allows t
        constructor
        · intro digit hdigit
          have h := hall (digit :: digits₀) (by rw [admits, hdigit, hdigits₀]; rfl)
          rw [admits, Bool.and_eq_true] at h
          exact h.1
        · intro digits hdigits
          have h := hall (digit₀ :: digits) (by rw [admits, hdigit₀, hdigits]; rfl)
          rw [admits, Bool.and_eq_true] at h
          exact h.2

/-- Lists of states include lists of the same length only. -/
theorem length_eq_of_includes {outer inner : List Trit} (h : includes outer inner = true) :
    outer.length = inner.length := by
  fun_induction includes outer inner with
  | case1 => rfl
  | case2 s outer t inner ih =>
    rw [Bool.and_eq_true] at h
    simp only [List.length_cons, ih h.2]
  | case3 => exact absurd h Bool.false_ne_true

/-- Every list of states includes itself. -/
theorem includes_refl (trits : List Trit) : includes trits trits = true :=
  (includes_iff rfl).mpr fun _ h => h

/-- Lists of states that include each other are equal. -/
theorem eq_of_includes {first second : List Trit} (hfirst : includes first second = true)
    (hsecond : includes second first = true) : first = second := by
  fun_induction includes first second with
  | case1 => rfl
  | case2 s first t second ih =>
    rw [includes] at hsecond
    simp only [Bool.and_eq_true, Bool.or_eq_true, decide_eq_true_eq] at hfirst hsecond
    have htail : first = second := ih hfirst.2 hsecond.2
    have hhead : s = t := by
      rcases hfirst.1 with hs | hs
      · rcases hsecond.1 with ht | ht
        · rw [hs, ht]
        · exact ht.symm
      · exact hs
    rw [hhead, htail]
  | case3 => exact absurd hfirst Bool.false_ne_true

/-- States that are all fixed include themselves only. -/
theorem eq_of_includes_of_fixed {outer inner : List Trit} (h : includes outer inner = true)
    (hfixed : ∀ t ∈ outer, t ≠ .free) : outer = inner := by
  fun_induction includes outer inner with
  | case1 => rfl
  | case2 s outer t inner ih =>
    simp only [Bool.and_eq_true, Bool.or_eq_true, decide_eq_true_eq] at h
    have hhead : s = t := h.1.resolve_left (hfixed s List.mem_cons_self)
    have htail : outer = inner := ih h.2 fun u hu => hfixed u (List.mem_cons_of_mem s hu)
    rw [hhead, htail]
  | case3 => exact absurd h Bool.false_ne_true

/-- If a list of states includes another one and differs from it, then some digit that the other one fixes
can be freed, and the result is still included. -/
theorem exists_freed_of_includes {outer inner : List Trit} (h : includes outer inner = true)
    (hne : outer ≠ inner) :
    ∃ before digit after, inner = before ++ Trit.ofBool digit :: after ∧
      includes outer (before ++ .free :: after) = true := by
  fun_induction includes outer inner with
  | case1 => exact absurd rfl hne
  | case2 s outer t inner ih =>
    simp only [Bool.and_eq_true, Bool.or_eq_true, decide_eq_true_eq] at h
    by_cases hst : s = t
    · -- the heads agree, so the tails differ
      subst hst
      have hne' : outer ≠ inner := fun heq => hne (by rw [heq])
      obtain ⟨before, digit, after, hinner, hincl⟩ := ih h.2 hne'
      refine ⟨s :: before, digit, after, by rw [hinner]; rfl, ?_⟩
      rw [List.cons_append, includes, hincl]
      simp
    · have hs : s = .free := h.1.resolve_right hst
      obtain ⟨digit, ht⟩ : ∃ digit, t = Trit.ofBool digit := by
        cases t with
        | zero => exact ⟨false, rfl⟩
        | one => exact ⟨true, rfl⟩
        | free => exact absurd hs hst
      refine ⟨[], digit, inner, by rw [ht]; rfl, ?_⟩
      rw [List.nil_append, includes, h.2, hs]
      rfl
  | case3 => exact absurd h Bool.false_ne_true

/-! ## Patterns and minterms -/

variable {p q : Pattern}

/-- What it means for a number to belong to a pattern. -/
theorem mem_def {m : Nat} :
    m ∈ p ↔ m < Binary.capacity p.length ∧ admits p.trits (Binary.digits p.length m) = true :=
  Iff.rfl

/-- A number that is given by its digits belongs to a pattern of this length exactly when the pattern admits
the digits. -/
theorem mem_ofDigits {digits : List Bool} (hlen : digits.length = p.length) :
    Binary.ofDigits digits ∈ p ↔ admits p.trits digits = true := by
  rw [mem_def, ← hlen, Binary.digits_ofDigits]
  exact and_iff_right (Binary.ofDigits_lt digits)

/-- Every pattern has a minterm. -/
theorem exists_mem (p : Pattern) : ∃ m, m ∈ p := by
  obtain ⟨digits, hdigits⟩ := exists_admits p.trits
  have hlen : digits.length = p.length := (length_eq_of_admits hdigits).symm
  exact ⟨Binary.ofDigits digits, (mem_ofDigits hlen).mpr hdigits⟩

/-- For patterns of one length, to admit more digits is to have more minterms. -/
theorem admits_imp_iff (hlen : p.length = q.length) :
    (∀ digits, admits q.trits digits = true → admits p.trits digits = true) ↔ ∀ m, m ∈ q → m ∈ p := by
  constructor
  · intro h m hm
    rw [mem_def] at hm ⊢
    rw [hlen]
    exact ⟨hm.1, h _ hm.2⟩
  · intro h digits hdigits
    have hq : digits.length = q.length := (length_eq_of_admits hdigits).symm
    exact (mem_ofDigits (hq.trans hlen.symm)).mp (h _ ((mem_ofDigits hq).mpr hdigits))

/-- For patterns of one length, to contain another pattern is to have all its minterms. -/
theorem contains_iff (hlen : p.length = q.length) :
    p.contains q = true ↔ ∀ m, m ∈ q → m ∈ p :=
  (includes_iff hlen).trans (admits_imp_iff hlen)

/-- A pattern contains patterns of its own length only. -/
theorem length_eq_of_contains (h : p.contains q = true) : p.length = q.length :=
  length_eq_of_includes h

/-- The minterms of a contained pattern are minterms of the containing one. -/
theorem mem_of_contains {m : Nat} (h : p.contains q = true) (hm : m ∈ q) : m ∈ p :=
  (contains_iff (length_eq_of_contains h)).mp h m hm

/-- Every pattern contains itself. -/
theorem contains_refl (p : Pattern) : p.contains p = true :=
  includes_refl p.trits

/-- A pattern contains what is contained in a pattern that it contains. -/
theorem contains_trans {r : Pattern} (hpq : p.contains q = true) (hqr : q.contains r = true) :
    p.contains r = true := by
  have hlen : p.length = r.length := (length_eq_of_contains hpq).trans (length_eq_of_contains hqr)
  exact (contains_iff hlen).mpr fun m hm => mem_of_contains hpq (mem_of_contains hqr hm)

/-- Patterns that contain each other are equal. -/
theorem eq_of_contains (hpq : p.contains q = true) (hqp : q.contains p = true) : p = q :=
  ext_trits (eq_of_includes hpq hqp)

/-- A pattern is determined by its length and its minterms. -/
theorem eq_of_mem_iff (hlen : p.length = q.length) (h : ∀ m, m ∈ p ↔ m ∈ q) : p = q := by
  have hpq : p.contains q = true := (contains_iff hlen).mpr fun m hm => (h m).mpr hm
  have hqp : q.contains p = true := (contains_iff hlen.symm).mpr fun m hm => (h m).mp hm
  exact eq_of_contains hpq hqp

end PrimeCover.Pattern
