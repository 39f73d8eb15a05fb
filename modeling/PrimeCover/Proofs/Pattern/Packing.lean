import Mathlib
import PrimeCover.Proofs.Pattern.Masks

/-!
# Packing

Packing commutes with everything that is done to patterns. Different patterns have different words (`pack_inj`), the
tests on words answer like the tests on states (`get?_pack`, `covers_pack`, `contains_pack`), and what makes a packed
pattern packs what the same construction makes of states: all positions free, a number, a merge, and a text that is read
character by character (`pack_free`, `pack_ofMinterm`, `pack_merge?`, `pack_parse`). A merge rests on the number of
conflicting positions (`adjacent_iff_cpop_conflicts`), and reading on what the words hold after each character
(`foldlM_readChar`).
-/

set_option autoImplicit false

namespace PrimeCover

/-! ## Opposed states -/

/-- Whether two states fix different digits. -/
def Trit.opposed (s t : Trit) : Bool :=
  s ≠ .free ∧ t ≠ .free ∧ s ≠ t

namespace Pattern

variable {first second : List Trit} {p q : Pattern}

/-- Lists of states are the same when they fix the same places and oppose each other nowhere. -/
theorem eq_iff_count_opposed :
    first = second ↔ (first.map (decide <| · ≠ .free)) = second.map (decide <| · ≠ .free) ∧
      (List.zipWith Trit.opposed first second).count true = 0 := by
  induction first generalizing second with
  | nil => cases second <;> simp
  | cons s first ih =>
    cases second with
    | nil => simp
    | cons t second =>
      rw [List.cons.injEq, ih, List.zipWith_cons_cons, List.count_cons, List.map_cons, List.map_cons, List.cons.injEq]
      cases s <;> cases t <;> simp [Trit.opposed]

/-- Lists of states are adjacent when they fix the same places and oppose each other at one of them. -/
theorem adjacentTrits_iff_count_opposed :
    adjacentTrits first second = true ↔ (first.map (decide <| · ≠ .free)) = second.map (decide <| · ≠ .free) ∧
      (List.zipWith Trit.opposed first second).count true = 1 := by
  induction first generalizing second with
  | nil => cases second <;> simp [adjacentTrits]
  | cons s first ih =>
    cases second with
    | nil => simp [adjacentTrits]
    | cons t second =>
      rw [List.zipWith_cons_cons, List.count_cons, List.map_cons, List.map_cons, List.cons.injEq]
      cases s <;> cases t <;> simp [Trit.opposed, adjacentTrits, ih, eq_iff_count_opposed]

/-! ## What packing keeps -/

/-- Different patterns have different words. -/
theorem pack_inj : p.pack = q.pack ↔ p = q := by
  rw [pack, pack, Packed.mk.injEq, eq_iff_mask, Bool.forall_bool, and_comm (a := p.mask true = q.mask true)]

/-- The words answer for a position what the state says. -/
theorem get?_pack (p : Pattern) (i : Nat) : p.pack.get? i = p.get? i := by
  rw [Packed.get?, length_pack, ones_pack, zeros_pack]
  by_cases hlen : p.length ≤ i
  · rw [if_pos hlen, get?, List.getElem?_eq_none hlen]
    rfl
  · have hi : i < 16 := (Nat.lt_of_not_le hlen).trans_le (length_le_sixteen p)
    simp only [hlen, if_false, Binary.and_bit_ne_zero_iff hi, getLsbD_mask]
    cases p.get? i with
    | none => simp
    | some b => cases b <;> simp

/-- The words give the digits of all positions. -/
theorem values_pack (p : Pattern) : p.pack.values = p.values := by
  apply List.ext_getElem (by simp [Packed.values, values, length])
  intro i hpacked hi
  rw [values, List.length_map] at hi
  simp [Packed.values, values, get?_pack, get?, hi]

/-- The words are written like the states. -/
theorem toString_pack (p : Pattern) : toString p.pack = toString p := by
  show String.ofList (p.pack.values.map Packed.symbol) = String.ofList (p.trits.map Trit.toChar)
  rw [values_pack, values, List.map_map]
  congr 2
  funext t
  cases t <;> rfl

/-- The weight is the number of bits in the word of the ones. -/
theorem weight_pack (p : Pattern) : p.pack.weight = p.weight :=
  (weight_eq_cpop p).symm

/-- The literals are the bits of the two words together. -/
theorem literalCount_pack (p : Pattern) : p.pack.literalCount = p.literalCount :=
  (literalCount_eq_cpop p).symm

/-- The free positions are those that neither word has a bit for. -/
theorem freeCount_pack (p : Pattern) : p.pack.freeCount = p.freeCount := by
  rw [Packed.freeCount, literalCount_pack, freeCount, length_pack]

/-- The test on words decides membership. -/
theorem covers_pack (p : Pattern) (m : Nat) : p.pack.covers m = decide (m ∈ p) := by
  have hshift : m >>> p.length ≠ 0 ↔ ¬ m < Binary.capacity p.length := by
    rw [Nat.shiftRight_eq_div_pow, Ne, Nat.div_eq_zero_iff]
    simp [Binary.capacity]
  rw [Bool.eq_iff_iff, decide_eq_true_iff, mem_iff_mask, Packed.covers, length_pack, Packed.spread_eq]
  simp only [hshift]
  split <;> simp_all

/-- The words list the minterms of the pattern in the same order. -/
theorem minterms_pack (p : Pattern) : p.pack.minterms = p.minterms.toList := by
  rw [Packed.minterms, minterms, NatSet.below, Nat.one_shiftLeft]
  exact List.filter_congr fun m _ => covers_pack p m

/-- The test on words decides whether a pattern contains another one. -/
theorem contains_pack (p q : Pattern) : p.pack.contains q.pack = p.contains q := by
  rw [Bool.eq_iff_iff, contains_iff_mask, Bool.forall_bool, and_comm (a := _ = p.mask false)]
  simp [Packed.contains, and_assoc]

/-! ## Packing what is made -/

variable {value length : Nat}

/-- All positions free in words are all positions free, packed. -/
theorem pack_free (length : Nat) : Packed.free length = (free length).map pack := by
  by_cases fits : length ≤ maxVariables
  · have hmask (digit : Bool) : mask ⟨List.replicate length .free, by simpa using fits⟩ digit = 0#16 := by
      rw [mask_eq_iff]
      intro i _
      rw [get?, List.getElem?_replicate]
      split <;> simp [Trit.value?]
    rw [free, dif_pos fits, Packed.free, Packed.checkLength, if_pos fits, Except.map, pack, hmask, hmask,
      Pattern.length, List.length_replicate]
    rfl
  · rw [free, dif_neg fits, Packed.free, Packed.checkLength, if_neg fits]
    rfl

/-- The two tests for a number that has too many digits are the same: by its length, and by its size. -/
theorem length_lt_iff : value ≠ 0 ∧ length < Binary.length value ↔ ¬ value < Binary.capacity length := by
  by_cases hvalue : value = 0
  · simp [hvalue, Binary.capacity]
  · rw [← Binary.length_le_iff hvalue, Nat.not_le]
    simp [hvalue]

/-- The positions fixed at zero are the first ones without those fixed at one. -/
theorem low_and_not_word (bits : List Bool) :
    Packed.low bits.length &&& ~~~Binary.word bits = Binary.word (bits.map (!·)) := by
  apply BitVec.eq_of_getLsbD_eq
  intro i hi
  rw [BitVec.getLsbD_and, BitVec.getLsbD_not, Packed.getLsbD_low hi, Binary.getLsbD_word hi, Binary.getLsbD_word hi,
    List.getElem?_map]
  by_cases hlen : i < bits.length
  · simp [hi, hlen]
  · simp [hlen]

/-- Where digits are fixed everywhere, the words hold the digits and their complements. -/
theorem mask_map_ofBool {bits : List Bool} (fits : (bits.map Trit.ofBool).length ≤ maxVariables) :
    mask ⟨bits.map Trit.ofBool, fits⟩ true = Binary.word bits ∧
      mask ⟨bits.map Trit.ofBool, fits⟩ false = Binary.word (bits.map (!·)) := by
  have hvalue (b digit : Bool) : decide ((Trit.ofBool b).value? = some digit) = (b == digit) := by
    cases b <;> cases digit <;> rfl
  constructor
  · simp [mask, hvalue, Function.comp_def]
  · simp [mask, hvalue, Function.comp_def]

/-- The words of a number are those of its pattern, and both constructions refuse the same numbers alike. -/
theorem pack_ofMinterm (value length : Nat) : Packed.ofMinterm value length = (ofMinterm value length).map pack := by
  by_cases fits : length ≤ maxVariables
  · rw [Packed.ofMinterm, Packed.checkLength, if_pos fits, ofMinterm, dif_pos fits]
    show (if value ≠ 0 ∧ length < Binary.length value then _ else _) = _
    by_cases hvalue : value < Binary.capacity length
    · rw [if_neg (mt length_lt_iff.mp (not_not.mpr hvalue)), if_pos hvalue, Except.map, pack, (mask_map_ofBool _).1,
        (mask_map_ofBool _).2, ← low_and_not_word, Packed.spread_eq, Binary.length_digits]
      simp [Pattern.length, pure, Except.pure]
    · rw [if_pos (length_lt_iff.mpr hvalue), if_neg hvalue]
      rfl
  · rw [ofMinterm, dif_neg fits, Packed.ofMinterm, Packed.checkLength, if_neg fits]
    rfl

/-! ## Packing what is merged -/

/-- The conflicts of two patterns are the places with opposed states. -/
theorem conflicts_pack (p q : Pattern) :
    p.pack.conflicts q.pack = Binary.word (List.zipWith Trit.opposed p.trits q.trits) := by
  apply BitVec.eq_of_getLsbD_eq
  intro i hi
  rw [Binary.getLsbD_word hi, List.getElem?_zipWith]
  simp only [Packed.conflicts, ones_pack, zeros_pack, BitVec.getLsbD_or, BitVec.getLsbD_and, mask, Binary.getLsbD_word hi,
    List.getElem?_map]
  cases p.trits[i]? with
  | none => simp
  | some s =>
    cases q.trits[i]? with
    | none => simp
    | some t => cases s <;> cases t <;> rfl

/-- Patterns are adjacent exactly when they fix the same positions and conflict at one of them. -/
theorem adjacent_iff_cpop_conflicts :
    p.adjacent q = true ↔ (p.length = q.length ∧ p.mask true ||| p.mask false = q.mask true ||| q.mask false) ∧
      (p.pack.conflicts q.pack).cpop = 1#16 := by
  have hopposed : (List.zipWith Trit.opposed p.trits q.trits).length ≤ 16 := by
    rw [List.length_zipWith]
    exact (Nat.min_le_left _ _).trans (length_le_sixteen p)
  have hcpop : (p.pack.conflicts q.pack).cpop = 1#16 ↔ (List.zipWith Trit.opposed p.trits q.trits).count true = 1 := by
    rw [← BitVec.toNat_inj, conflicts_pack, Binary.toNat_cpop_word hopposed]
    rfl
  rw [adjacent, adjacentTrits_iff_count_opposed, hcpop, mask_or_mask, mask_or_mask]
  apply and_congr_left
  intro _
  constructor
  · intro hfixed
    refine ⟨?_, by rw [hfixed]⟩
    simpa [length] using congrArg List.length hfixed
  · rintro ⟨hlen, hwords⟩
    have hmaps : (p.trits.map (decide <| · ≠ .free)).length = (q.trits.map (decide <| · ≠ .free)).length := by
      rw [List.length_map, List.length_map]
      exact hlen
    have hfits : (p.trits.map (decide <| · ≠ .free)).length ≤ 16 := by
      rw [List.length_map]
      exact length_le_sixteen p
    exact (Binary.word_inj hmaps hfits).mp hwords

/-- When the same positions are fixed, the conflicts are what the join frees. -/
theorem mask_join (hfixed : p.mask true ||| p.mask false = q.mask true ||| q.mask false) (digit : Bool) :
    (p.join q).mask digit = p.mask digit &&& ~~~p.pack.conflicts q.pack := by
  rw [mask_eq_iff]
  intro i hi
  have hsome : (p.get? i).isSome = (q.get? i).isSome := by
    rw [← getLsbD_mask_or_mask, hfixed, getLsbD_mask_or_mask]
  have hbit (r : Pattern) (b : Bool) : (r.mask b).getLsbD i = decide (r.get? i = some b) := by
    rw [Bool.eq_iff_iff, getLsbD_mask, decide_eq_true_iff]
  rw [get?_join, Packed.conflicts]
  simp only [ones_pack, zeros_pack, BitVec.getLsbD_and, BitVec.getLsbD_not, BitVec.getLsbD_or, hbit, hi]
  cases hp : p.get? i with
  | none => simp
  | some b =>
    obtain ⟨c, hc⟩ := Option.isSome_iff_exists.mp (hsome ▸ hp ▸ rfl : (q.get? i).isSome = true)
    rw [hc]
    cases b <;> cases c <;> cases digit <;> simp

/-- The join of patterns of one length has this length. -/
theorem length_join (h : p.length = q.length) : (p.join q).length = p.length := by
  rw [length, trits_join, List.length_zipWith]
  exact Nat.min_eq_left h.le

/-- Words merge exactly when the patterns do, and to the words of the merged pattern. -/
theorem pack_merge? (p q : Pattern) : p.pack.merge? q.pack = (p.merge? q).map pack := by
  rw [Packed.merge?, merge?]
  by_cases hdiffer : p.pack.length ≠ q.pack.length ∨ p.pack.ones ||| p.pack.zeros ≠ q.pack.ones ||| q.pack.zeros
  · have hadjacent : ¬ p.adjacent q = true := by
      rw [adjacent_iff_cpop_conflicts]
      rintro ⟨⟨hlen, hfixed⟩, -⟩
      exact hdiffer.elim (absurd hlen) (absurd hfixed)
    rw [if_pos hdiffer, if_neg hadjacent]
    rfl
  · -- with the same positions fixed, the number of conflicts decides
    have hfixed : p.length = q.length ∧ p.mask true ||| p.mask false = q.mask true ||| q.mask false := by
      simpa [not_or] using hdiffer
    rw [if_neg hdiffer]
    by_cases hcpop : (p.pack.conflicts q.pack).cpop = 1#16
    · have hjoin : (p.join q).pack = ⟨p.length, p.mask true &&& ~~~p.pack.conflicts q.pack,
          p.mask false &&& ~~~p.pack.conflicts q.pack⟩ := by
        rw [pack, length_join hfixed.1, mask_join hfixed.2, mask_join hfixed.2]
      rw [if_neg (not_not.mpr hcpop), if_pos (adjacent_iff_cpop_conflicts.mpr ⟨hfixed, hcpop⟩), Option.map_some, hjoin]
      rfl
    · have hadjacent : ¬ p.adjacent q = true := by
        rw [adjacent_iff_cpop_conflicts]
        intro h
        exact hcpop h.2
      rw [if_pos hcpop, if_neg hadjacent]
      rfl

end Pattern

/-! ## Packing what is read -/

namespace Packed

variable {trits : List Trit} {chars : List Char}

/-- What is packed after some positions have been read: only the first ten of them reach the words. -/
def ofTrits (trits : List Trit) : Packed where
  length := trits.length
  ones := Binary.word ((trits.take maxVariables).map (· = .one))
  zeros := Binary.word ((trits.take maxVariables).map (· = .zero))

/-- Reading one more position. -/
theorem add_ofTrits (trits : List Trit) (t : Trit) : (ofTrits trits).add t = ofTrits (trits ++ [t]) := by
  have hword (state : Trit) : Binary.word (((trits ++ [t]).take maxVariables).map (· = state)) =
      if t = state ∧ trits.length < maxVariables then
        Binary.word ((trits.take maxVariables).map (· = state)) ||| 1#16 <<< trits.length
      else Binary.word ((trits.take maxVariables).map (· = state)) := by
    by_cases hroom : trits.length < maxVariables
    · rw [List.take_of_length_le (by simp; omega), List.take_of_length_le hroom.le, List.map_append, List.map_singleton,
        Binary.word_concat]
      simp [hroom]
    · rw [List.take_append_of_le_length (Nat.le_of_not_lt hroom)]
      simp [hroom]
  rw [ofTrits, ofTrits, hword, hword, List.length_append, add]
  rfl

/-- Reading the characters one by one reads the symbols among them. -/
theorem foldlM_readChar (trits : List Trit) :
    chars.foldlM readChar (ofTrits trits) =
      ((chars.filter (!Pattern.isSkipped ·)).mapM Trit.ofChar?).map fun later => ofTrits (trits ++ later) := by
  -- the positions read so far vary, since the words hold all of them
  induction chars generalizing trits with
  | nil => simp
  | cons c chars ih =>
    rw [List.foldlM_cons]
    cases hskip : Pattern.isSkipped c with
    | true => simp [readChar, hskip, ih]
    | false =>
      cases hc : Trit.ofChar? c with
      | none => simp [readChar, hskip, hc]
      | some t =>
        have hstep : readChar (ofTrits trits) c = some (ofTrits (trits ++ [t])) := by
          simp [readChar, hskip, hc, add_ofTrits]
        have hfilter : (c :: chars).filter (!Pattern.isSkipped ·) = c :: chars.filter (!Pattern.isSkipped ·) := by
          simp [hskip]
        rw [hstep, hfilter, List.mapM_cons, hc]
        show chars.foldlM readChar (ofTrits (trits ++ [t])) = _
        rw [ih]
        cases (chars.filter (!Pattern.isSkipped ·)).mapM Trit.ofChar? <;> simp

end Packed

namespace Pattern

/-- The words of a pattern are those of its states as they are read. -/
theorem pack_eq_ofTrits (p : Pattern) : p.pack = Packed.ofTrits p.trits := by
  have hvalue (t : Trit) : (decide (t.value? = some true) = decide (t = .one)) ∧
      (decide (t.value? = some false) = decide (t = .zero)) := by
    cases t <;> decide
  rw [pack, Packed.ofTrits, List.take_of_length_le p.length_le]
  simp [mask, hvalue, length]

/-- A text is read into words as it is read into states, with the same faults. -/
theorem pack_parse (text : String) : Packed.parse text = (parse text).map pack := by
  have hstart : (⟨0, 0#16, 0#16⟩ : Packed) = Packed.ofTrits [] := rfl
  rw [Packed.parse, hstart, Packed.foldlM_readChar, parse, trits?]
  cases (text.toList.filter (!isSkipped ·)).mapM Trit.ofChar? with
  | none => rfl
  | some trits =>
    simp only [Option.map_some, List.nil_append]
    by_cases fits : trits.length ≤ maxVariables
    · rw [ofTrits, dif_pos fits, Except.map, pack_eq_ofTrits]
      simp [Packed.checkLength, Packed.ofTrits, fits]
    · rw [ofTrits, dif_neg fits, Except.map]
      simp [Packed.checkLength, Packed.ofTrits, fits]

end Pattern

end PrimeCover
