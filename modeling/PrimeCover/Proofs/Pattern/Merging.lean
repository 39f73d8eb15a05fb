import Mathlib
import PrimeCover.Pattern.Merge
import PrimeCover.Proofs.Pattern.Inclusion

/-!
# The two halves of a pattern

A pattern with a free position is the disjoint pair of the patterns that fix this position to zero and to one,
and these two merge to it again. For patterns that merge, the minterms of the result are those of both
(`mem_iff_of_merge?`), which have none in common (`notMem_of_merge?`), one literal is lost
(`literalCount_of_merge?`), and the weights of the two differ by one (`weight_of_merge?`). Conversely every
pattern with a free position is such a result (`exists_merge?_of_free`), so a level of a tabulation can be
rebuilt from the level below it.
-/

set_option autoImplicit false

namespace PrimeCover.Pattern

/-! ## States and digits -/

/-- Freeing a position admits what either digit at this position admits. -/
theorem admits_freed (before after : List Trit) (digit : Bool) (digits : List Bool) :
    admits (before ++ .free :: after) digits = true ↔
      admits (before ++ Trit.ofBool digit :: after) digits = true ∨
        admits (before ++ Trit.ofBool (!digit) :: after) digits = true := by
  induction before generalizing digits with
  | nil =>
    cases digits with
    | nil => simp [admits]
    | cons d digits => cases digit <;> cases d <;> simp [admits, Trit.allows, Trit.ofBool]
  | cons s before ih =>
    cases digits with
    | nil => simp [admits]
    | cons d digits =>
      simp only [List.cons_append, admits, Bool.and_eq_true, ih]
      rw [and_or_left]

/-- No list of digits has both digits at one place. -/
theorem not_admits_opposite {before after : List Trit} {digit : Bool} {digits : List Bool}
    (h : admits (before ++ Trit.ofBool digit :: after) digits = true) :
    ¬ admits (before ++ Trit.ofBool (!digit) :: after) digits = true := by
  induction before generalizing digits with
  | nil =>
    cases digits with
    | nil => exact Bool.false_ne_true
    | cons d digits => cases digit <;> cases d <;> simp_all [admits, Trit.allows, Trit.ofBool]
  | cons s before ih =>
    cases digits with
    | nil => exact Bool.false_ne_true
    | cons d digits =>
      simp only [List.cons_append, admits, Bool.and_eq_true] at h ⊢
      exact fun hopposite => ih h.2 hopposite.2

/-- The state of a digit is not free. -/
theorem ofBool_ne_free (digit : Bool) : Trit.ofBool digit ≠ .free := by
  cases digit <;> decide

/-- The fixed states around a place and at it are counted separately. -/
theorem countP_fixed_append (before after : List Trit) (t : Trit) :
    (before ++ t :: after).countP (· ≠ .free) =
      before.countP (· ≠ .free) + after.countP (· ≠ .free) + if t = .free then 0 else 1 := by
  rw [List.countP_append, List.countP_cons]
  by_cases ht : t = .free
  · simp only [ht, decide_not, decide_true, Bool.not_true, Bool.false_eq_true, if_true, if_false]
    omega
  · simp only [ht, decide_not, decide_false, Bool.not_false, if_true, if_false]
    omega

/-- The ones around a place and at it are counted separately. -/
theorem count_one_append (before after : List Trit) (t : Trit) :
    (before ++ t :: after).count .one =
      before.count .one + after.count .one + if t = .one then 1 else 0 := by
  rw [List.count_append, List.count_cons]
  simp only [beq_iff_eq]
  omega

/-! ## Patterns that merge -/

variable {p q r : Pattern}

/-- Patterns that merge have the length of the merged pattern. -/
theorem length_of_merge? (h : p.merge? q = some r) : p.length = r.length ∧ q.length = r.length := by
  obtain ⟨before, digit, after, hp, hq, hr⟩ := merge?_eq_some_iff.mp h
  unfold length
  rw [hp, hq, hr]
  simp only [List.length_append, List.length_cons, and_self]

/-- The order of two patterns does not matter to their merge. -/
theorem merge?_comm (p q : Pattern) : p.merge? q = q.merge? p := by
  have hswap : ∀ p q r : Pattern, p.merge? q = some r → q.merge? p = some r := by
    intro p q r h
    obtain ⟨before, digit, after, hp, hq, hr⟩ := merge?_eq_some_iff.mp h
    exact merge?_eq_some_iff.mpr ⟨before, !digit, after, hq, by rw [Bool.not_not, hp], hr⟩
  apply Option.ext
  intro r
  exact ⟨hswap p q r, hswap q p r⟩

/-- Patterns are adjacent exactly when they merge. -/
theorem adjacent_eq_true_iff : p.adjacent q = true ↔ ∃ r, p.merge? q = some r := by
  unfold merge?
  by_cases h : p.adjacent q = true
  · simp [h]
  · simp [h]

/-- Adjacent patterns merge to their join. -/
theorem merge?_eq_some_join (h : p.adjacent q = true) : p.merge? q = some (p.join q) := by
  unfold merge?
  rw [if_pos h]

/-- The minterms of a merged pattern are those of both patterns. -/
theorem mem_iff_of_merge? (h : p.merge? q = some r) (m : Nat) : m ∈ r ↔ m ∈ p ∨ m ∈ q := by
  obtain ⟨hplen, hqlen⟩ := length_of_merge? h
  obtain ⟨before, digit, after, hp, hq, hr⟩ := merge?_eq_some_iff.mp h
  simp only [mem_def, hplen, hqlen, hp, hq, hr]
  rw [admits_freed before after digit, and_or_left]

/-- Patterns that merge have no minterm in common. -/
theorem notMem_of_merge? (h : p.merge? q = some r) {m : Nat} (hm : m ∈ p) : m ∉ q := by
  obtain ⟨hplen, hqlen⟩ := length_of_merge? h
  obtain ⟨before, digit, after, hp, hq, hr⟩ := merge?_eq_some_iff.mp h
  simp only [mem_def, hplen, hqlen, hp, hq] at hm ⊢
  exact fun hmq => not_admits_opposite hm.2 hmq.2

/-- A pattern has no more literals than positions. -/
theorem literalCount_le_length (p : Pattern) : p.literalCount ≤ p.length :=
  List.countP_le_length

/-- A pattern has no free positions exactly when every state is fixed. -/
theorem freeCount_eq_zero_iff : p.freeCount = 0 ↔ ∀ t ∈ p.trits, t ≠ .free := by
  have hle := literalCount_le_length p
  have hall : p.literalCount = p.length ↔ ∀ t ∈ p.trits, t ≠ .free := by
    unfold literalCount length
    rw [List.countP_eq_length]
    simp only [decide_eq_true_eq]
  rw [← hall]
  unfold freeCount
  omega

/-- A merged pattern has one literal less than either part. -/
theorem literalCount_of_merge? (h : p.merge? q = some r) :
    p.literalCount = r.literalCount + 1 ∧ q.literalCount = r.literalCount + 1 := by
  obtain ⟨before, digit, after, hp, hq, hr⟩ := merge?_eq_some_iff.mp h
  unfold literalCount
  rw [hp, hq, hr, countP_fixed_append, countP_fixed_append, countP_fixed_append,
    if_neg (ofBool_ne_free digit), if_neg (ofBool_ne_free (!digit)), if_pos rfl]
  exact ⟨rfl, rfl⟩

/-- A merged pattern has one free position more than either part. -/
theorem freeCount_of_merge? (h : p.merge? q = some r) :
    r.freeCount = p.freeCount + 1 ∧ r.freeCount = q.freeCount + 1 := by
  have hlen := length_of_merge? h
  have hcount := literalCount_of_merge? h
  have hp := literalCount_le_length p
  unfold freeCount
  omega

/-- Of two patterns that merge, one has the weight of the result and the other one has one more. -/
theorem weight_of_merge? (h : p.merge? q = some r) :
    p.weight = r.weight ∧ q.weight = r.weight + 1 ∨ q.weight = r.weight ∧ p.weight = r.weight + 1 := by
  obtain ⟨before, digit, after, hp, hq, hr⟩ := merge?_eq_some_iff.mp h
  unfold weight
  rw [hp, hq, hr]
  simp only [count_one_append]
  cases digit with
  | false => exact Or.inl ⟨rfl, rfl⟩
  | true => exact Or.inr ⟨rfl, rfl⟩

/-- A merged pattern contains its first part. -/
theorem contains_of_merge? (h : p.merge? q = some r) : r.contains p = true := by
  have hlen : r.length = p.length := (length_of_merge? h).1.symm
  exact (contains_iff hlen).mpr fun m hm => (mem_iff_of_merge? h m).mpr (Or.inl hm)

/-- A pattern that fixes a digit merges with the pattern that fixes the opposite digit there. -/
theorem exists_merge?_of_trits {before after : List Trit} {digit : Bool}
    (hp : p.trits = before ++ Trit.ofBool digit :: after) :
    ∃ q r, p.merge? q = some r ∧ r.trits = before ++ .free :: after := by
  have hlen : ∀ t, (before ++ t :: after).length ≤ maxVariables := by
    intro t
    have hle := p.length_le
    rw [hp] at hle
    simpa using hle
  refine ⟨⟨before ++ Trit.ofBool (!digit) :: after, hlen _⟩, ⟨before ++ .free :: after, hlen _⟩, ?_, rfl⟩
  exact merge?_eq_some_iff.mpr ⟨before, digit, after, hp, rfl, rfl⟩

/-- Every pattern with a free position is merged from two patterns, the lower one of its own weight. -/
theorem exists_merge?_of_free (h : r.freeCount ≠ 0) :
    ∃ p q : Pattern, p.merge? q = some r ∧ p.weight = r.weight ∧ q.weight = r.weight + 1 := by
  have hfree : Trit.free ∈ r.trits := by
    by_contra hnone
    apply h
    rw [freeCount_eq_zero_iff]
    rintro t ht rfl
    exact hnone ht
  obtain ⟨before, after, hr⟩ := List.append_of_mem hfree
  have hlen : ∀ t, (before ++ t :: after).length ≤ maxVariables := by
    intro t
    have hle := r.length_le
    rw [hr] at hle
    simpa using hle
  have hmerge : (⟨before ++ .zero :: after, hlen _⟩ : Pattern).merge? ⟨before ++ .one :: after, hlen _⟩ = some r :=
    merge?_eq_some_iff.mpr ⟨before, false, after, rfl, rfl, hr⟩
  refine ⟨_, _, hmerge, ?_, ?_⟩
  · unfold weight
    rw [hr]
    simp only [count_one_append]
    rfl
  · unfold weight
    rw [hr]
    simp only [count_one_append]
    rfl

end PrimeCover.Pattern
