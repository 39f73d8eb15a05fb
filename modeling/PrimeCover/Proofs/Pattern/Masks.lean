import Mathlib
import PrimeCover.Pattern.Packed
import PrimeCover.Proofs.Pattern.Counting

/-!
# Masks

A bit of a mask says that its position is fixed to the digit of the mask (`getLsbD_mask`). So the two masks of a
pattern have no bit in common and none behind its positions. Their bits count its literals, those of the first one its
weight (`literalCount_eq_cpop`, `weight_eq_cpop`), and together with the length they determine the pattern
(`eq_iff_mask`). Membership and inclusion are tests on whole words (`mem_iff_mask`, `contains_iff_mask`), and the word of
the digits of a number is spread from the number bit by bit (`spread_eq`).
-/

set_option autoImplicit false

namespace PrimeCover

/-! ## Words -/

namespace Binary

variable {bits : List Bool} {x y : BitVec 16} {i : Nat}

/-- A bit of a word is the digit at its place, and zero behind the last one. -/
theorem getLsbD_word (hi : i < 16) : (word bits).getLsbD i = bits[i]?.getD false := by
  simp [word, hi]

/-- The bits of a word are the ones of the list, provided that the list fits. -/
theorem toNat_cpop_word (h : bits.length ≤ 16) : (word bits).cpop.toNat = bits.count true := by
  rw [word, BitVec.toNat_cpop_setWidth_eq_of_le h]
  clear h
  induction bits with
  | nil => rfl
  | cons b bits ih =>
    rw [BitVec.ofBoolListLE, BitVec.toNat_cpop_concat, ih]
    cases b <;> simp [Nat.add_comm]

/-- Words of lists of one length that fit are the same for the same lists only. -/
theorem word_inj {first second : List Bool} (hlen : first.length = second.length) (hfits : first.length ≤ 16) :
    word first = word second ↔ first = second := by
  constructor
  · intro h
    apply List.ext_getElem hlen
    intro i hfirst hsecond
    have hi : i < 16 := by omega
    have hbit : (word first).getLsbD i = (word second).getLsbD i := by rw [h]
    simpa [getLsbD_word hi, hfirst, hsecond] using hbit
  · rintro rfl
    rfl

/-- Two words have no bit in common exactly when no place is set in both. -/
theorem and_eq_zero_iff : x &&& y = 0#16 ↔ ∀ i < 16, x.getLsbD i = true → y.getLsbD i = false := by
  rw [BitVec.eq_of_getLsbD_eq_iff]
  simp [Bool.and_eq_false_imp]

/-- A word keeps another one exactly when it has all bits of the other one. -/
theorem and_eq_right_iff : x &&& y = y ↔ ∀ i, y.getLsbD i = true → x.getLsbD i = true := by
  constructor
  · intro h i hi
    rw [← h, BitVec.getLsbD_and, Bool.and_eq_true] at hi
    exact hi.1
  · intro h
    apply BitVec.eq_of_getLsbD_eq
    intro i _
    rw [BitVec.getLsbD_and]
    cases hy : y.getLsbD i with
    | false => simp
    | true => simp [h i hy]

/-- A word has a bit exactly when the bit is left after a test for it alone. -/
theorem and_bit_ne_zero_iff (hi : i < 16) : x &&& 1#16 <<< i ≠ 0#16 ↔ x.getLsbD i = true := by
  rw [← BitVec.twoPow_eq, BitVec.and_twoPow]
  cases x.getLsbD i with
  | false => simp
  | true =>
    simp only [if_true, iff_true]
    intro h
    have hbit : (BitVec.twoPow 16 i).getLsbD i = true := by simp [hi]
    simp [h] at hbit

/-- To set a bit changes this bit only. -/
theorem getLsbD_or_bit (hi : i < 16) (j : Nat) : (x ||| 1#16 <<< j).getLsbD i = (x.getLsbD i || decide (j = i)) := by
  rw [BitVec.getLsbD_or, ← BitVec.twoPow_eq, BitVec.getLsbD_twoPow]
  by_cases hj : j = i
  · simp [hj, hi]
  · simp [hj]

/-- One more bit behind the others. -/
theorem word_concat (bits : List Bool) (b : Bool) :
    word (bits ++ [b]) = if b then word bits ||| 1#16 <<< bits.length else word bits := by
  apply BitVec.eq_of_getLsbD_eq
  intro i hi
  have hbit : (word (bits ++ [b])).getLsbD i =
      ((word bits).getLsbD i || (b && decide (bits.length = i))) := by
    rw [getLsbD_word hi, getLsbD_word hi]
    rcases Nat.lt_trichotomy i bits.length with hlt | rfl | hgt
    · rw [List.getElem?_append_left hlt]
      simp [hlt.ne']
    · simp
    · have hout : (bits ++ [b]).length ≤ i := by simpa using hgt
      rw [List.getElem?_eq_none hout, List.getElem?_eq_none hgt.le]
      simp [hgt.ne]
  rw [hbit]
  cases b with
  | false => simp
  | true => simp [getLsbD_or_bit hi]

/-- To set bits one by one sets the bits of the listed places. -/
theorem getLsbD_foldl_or {positions : List Nat} (hi : i < 16) :
    (positions.foldl (fun bits j => bits ||| 1#16 <<< j) x).getLsbD i = (x.getLsbD i || decide (i ∈ positions)) := by
  induction positions generalizing x with
  | nil => simp
  | cons j positions ih =>
    rw [List.foldl_cons, ih, getLsbD_or_bit hi]
    simp [Bool.or_assoc, eq_comm]

end Binary

namespace Packed

variable {length i : Nat}

/-- Spreading reverses the digits: the first one has the lowest bit. -/
theorem spread_eq (value length : Nat) : spread value length = Binary.word (Binary.digits length value) := by
  apply BitVec.eq_of_getLsbD_eq
  intro i hi
  rw [spread, Binary.getLsbD_foldl_or hi, Binary.getLsbD_word hi]
  by_cases hlen : i < length
  · rw [Binary.getElem?_digits hlen]
    simp [hlen]
  · simp [hlen]

/-- The low word of a length has the bits of the first places. -/
theorem getLsbD_low (hi : i < 16) : (low length).getLsbD i = decide (i < length) := by
  rw [low, BitVec.getLsbD_ofNat, Nat.one_shiftLeft, Nat.testBit_two_pow_sub_one]
  simp [hi]

end Packed

namespace Pattern

variable {p q : Pattern} {i m : Nat} {b digit : Bool}

/-! ## The bits of a mask -/

/-- A fixed position is a position of the pattern. -/
theorem lt_length_of_get? (h : p.get? i = some b) : i < p.length := by
  obtain ⟨t, ht, -⟩ := Option.bind_eq_some_iff.mp h
  exact (List.getElem?_eq_some_iff.mp ht).1

/-- The positions of a pattern fit into a word. -/
theorem length_le_sixteen (p : Pattern) : p.length ≤ 16 :=
  p.length_le.trans (by decide)

/-- A fixed position has a bit in the word. -/
theorem lt_sixteen_of_get? (h : p.get? i = some b) : i < 16 :=
  (lt_length_of_get? h).trans_le (length_le_sixteen p)

/-- A bit of a mask is set when its position is fixed to the digit of the mask. -/
theorem getLsbD_mask : (p.mask digit).getLsbD i = true ↔ p.get? i = some digit := by
  by_cases hi : i < 16
  · rw [mask, Binary.getLsbD_word hi, List.getElem?_map, get?]
    cases p.trits[i]? <;> simp
  · rw [BitVec.getLsbD_of_ge _ _ (Nat.le_of_not_lt hi)]
    constructor
    · intro h
      exact absurd h Bool.false_ne_true
    · intro h
      exact absurd (lt_sixteen_of_get? h) hi

-- position 0 has the lowest bit
example : (⟨[.one, .zero, .free], by decide⟩ : Pattern).mask true = 0b001#16 ∧
    (⟨[.one, .zero, .free], by decide⟩ : Pattern).mask false = 0b010#16 := by decide

/-- A word is a mask when its bits are the positions that are fixed to the digit. -/
theorem mask_eq_iff {w : BitVec 16} :
    p.mask digit = w ↔ ∀ i < 16, w.getLsbD i = true ↔ p.get? i = some digit := by
  rw [BitVec.eq_of_getLsbD_eq_iff]
  apply forall₂_congr
  intro i _
  rw [Bool.eq_iff_iff, getLsbD_mask]
  exact iff_comm

/-- No position is fixed to both digits. -/
theorem mask_and_mask : p.mask true &&& p.mask false = 0#16 := by
  rw [Binary.and_eq_zero_iff]
  intro i _ hone
  rw [Bool.eq_false_iff, Ne, getLsbD_mask, getLsbD_mask.mp hone]
  simp

/-- The bits of both masks together are the fixed positions. -/
theorem getLsbD_mask_or_mask : (p.mask true ||| p.mask false).getLsbD i = (p.get? i).isSome := by
  rw [BitVec.getLsbD_or, Bool.eq_iff_iff, Bool.or_eq_true, getLsbD_mask, getLsbD_mask]
  cases p.get? i with
  | none => simp
  | some b => cases b <;> simp

/-- The masks have no bit behind the last position. -/
theorem getLsbD_mask_or_mask_of_length_le (h : p.length ≤ i) : (p.mask true ||| p.mask false).getLsbD i = false := by
  rw [getLsbD_mask_or_mask, get?, List.getElem?_eq_none h]
  rfl

/-- Both masks together hold the fixed positions. -/
theorem mask_or_mask (p : Pattern) :
    p.mask true ||| p.mask false = Binary.word (p.trits.map (decide <| · ≠ .free)) := by
  apply BitVec.eq_of_getLsbD_eq
  intro i hi
  rw [getLsbD_mask_or_mask, Binary.getLsbD_word hi, List.getElem?_map, get?]
  cases p.trits[i]? with
  | none => rfl
  | some t => cases t <;> rfl

/-- The bits of a word made from the states are counted on the states. -/
theorem toNat_cpop_word_map (p : Pattern) (holds : Trit → Bool) :
    (Binary.word (p.trits.map holds)).cpop.toNat = p.trits.countP holds := by
  have hlen : (p.trits.map holds).length ≤ 16 := by
    rw [List.length_map]
    exact length_le_sixteen p
  rw [Binary.toNat_cpop_word hlen, List.count_eq_countP, List.countP_map]
  congr 1
  funext t
  simp

/-- The literals are counted by the bits of both masks together. -/
theorem literalCount_eq_cpop (p : Pattern) : p.literalCount = (p.mask true ||| p.mask false).cpop.toNat := by
  rw [mask_or_mask, toNat_cpop_word_map]
  rfl

/-- The ones are counted by the bits of their mask. -/
theorem weight_eq_cpop (p : Pattern) : p.weight = (p.mask true).cpop.toNat := by
  have hone (t : Trit) : (t == .one) = decide (t.value? = some true) := by
    cases t <;> rfl
  rw [mask, toNat_cpop_word_map, weight, List.count_eq_countP]
  exact List.countP_congr fun t _ => by rw [hone]

/-- Every position is fixed or free. -/
theorem literalCount_add_freeCount (p : Pattern) : p.literalCount + p.freeCount = p.length :=
  Nat.add_sub_of_le (literalCount_le_length p)

/-- A join fixes what both patterns fix to the same digit. -/
theorem get?_join (p q : Pattern) (i : Nat) :
    (p.join q).get? i = some digit ↔ p.get? i = some digit ∧ q.get? i = some digit := by
  rw [get?, get?, get?, trits_join, List.getElem?_zipWith]
  cases p.trits[i]? with
  | none => simp
  | some s =>
    cases q.trits[i]? with
    | none => simp
    | some t => cases s <;> cases t <;> cases digit <;> simp [Trit.join, Trit.value?]

/-! ## Membership and inclusion -/

/-- The most significant digit of a number stands in the lowest bit of the word of its digits. -/
theorem getLsbD_word_digits (h : i < p.length) :
    (Binary.word (Binary.digits p.length m)).getLsbD i = m.testBit (p.length - 1 - i) := by
  have hi : i < 16 := h.trans_le (length_le_sixteen p)
  rw [Binary.getLsbD_word hi, Binary.getElem?_digits h, Option.getD_some]

/-- A number with few enough digits belongs to a pattern exactly when its word has no bit of the zeros and misses none
of the ones. -/
theorem mem_iff_mask :
    m ∈ p ↔ m < Binary.capacity p.length ∧ Binary.word (Binary.digits p.length m) &&& p.mask false = 0#16 ∧
      p.mask true &&& ~~~Binary.word (Binary.digits p.length m) = 0#16 := by
  rw [mem_iff, Binary.and_eq_zero_iff, Binary.and_eq_zero_iff]
  apply and_congr_right
  intro _
  constructor
  · intro h
    constructor
    · intro i _ hbit
      rw [Bool.eq_false_iff, Ne, getLsbD_mask]
      intro hget
      rw [getLsbD_word_digits (lt_length_of_get? hget), h i false hget] at hbit
      exact Bool.false_ne_true hbit
    · intro i hi hone
      have hget := getLsbD_mask.mp hone
      simp [hi, getLsbD_word_digits (lt_length_of_get? hget), h i true hget]
  · rintro ⟨hzeros, hones⟩ i b hget
    have hi := lt_sixteen_of_get? hget
    rw [← getLsbD_word_digits (lt_length_of_get? hget)]
    cases b with
    | false =>
      rw [Bool.eq_false_iff]
      intro hbit
      have hclear := hzeros i hi hbit
      rw [getLsbD_mask.mpr hget] at hclear
      exact Bool.false_ne_true hclear.symm
    | true => simpa [hi] using hones i hi (getLsbD_mask.mpr hget)

/-- A list of states includes another one exactly when both have the same length and the other one fixes what the
first one fixes. -/
theorem includes_iff_value? {outer inner : List Trit} :
    includes outer inner = true ↔ outer.length = inner.length ∧
      ∀ (b : Bool) (i : Nat), outer[i]?.bind Trit.value? = some b → inner[i]?.bind Trit.value? = some b := by
  induction outer generalizing inner with
  | nil => cases inner <;> simp [includes]
  | cons s outer ih =>
    cases inner with
    | nil => simp [includes]
    | cons t inner =>
      have hhead : (s = .free ∨ s = t) ↔ ∀ b, s.value? = some b → t.value? = some b := by
        cases s <;> cases t <;> simp [Trit.value?]
      rw [includes, Bool.and_eq_true, Bool.or_eq_true, decide_eq_true_iff, decide_eq_true_iff, hhead, ih]
      constructor
      · rintro ⟨hfirst, hlen, hrest⟩
        refine ⟨by simp [hlen], ?_⟩
        intro b i
        cases i with
        | zero => exact hfirst b
        | succ i => exact hrest b i
      · rintro ⟨hlen, hall⟩
        exact ⟨fun b => hall b 0, by simpa using hlen, fun b i => hall b (i + 1)⟩

/-- A pattern contains another one of its length exactly when the masks of the other one have all bits of its own. -/
theorem contains_iff_mask :
    p.contains q = true ↔ p.length = q.length ∧ ∀ b, q.mask b &&& p.mask b = p.mask b := by
  simp only [Binary.and_eq_right_iff, getLsbD_mask]
  exact includes_iff_value?

/-- The length and the masks determine a pattern. -/
theorem eq_iff_mask : p = q ↔ p.length = q.length ∧ ∀ b, p.mask b = q.mask b := by
  constructor
  · rintro rfl
    exact ⟨rfl, fun b => rfl⟩
  · rintro ⟨hlen, hmask⟩
    have hpq : p.contains q = true := contains_iff_mask.mpr ⟨hlen, by simp [hmask]⟩
    have hqp : q.contains p = true := contains_iff_mask.mpr ⟨hlen.symm, by simp [hmask]⟩
    exact eq_of_contains hpq hqp

end Pattern

end PrimeCover
