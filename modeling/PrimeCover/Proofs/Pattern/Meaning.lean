import Mathlib
import PrimeCover.Proofs.Pattern.Spelling

/-!
# What patterns stand for

The packed patterns that can be made, by whatever chain of constructions, are the words of patterns (`made_iff`): each
step is the same step on patterns, packed. Main statement: `packed_patterns_describe_minterms` says what these words
are like, which numbers they stand for, and that a single number has a pattern when it fits.
-/

set_option autoImplicit false

namespace PrimeCover

namespace Packed

variable {w : Packed}

/-- A result that is packed comes from a pattern. -/
theorem exists_pack_of_map {x : Except Fault Pattern} (h : x.map Pattern.pack = .ok w) : ∃ p : Pattern, p.pack = w := by
  cases x with
  | error fault => exact nomatch h
  | ok p => exact ⟨p, Except.ok.inj h⟩

/-- The packed patterns that can be made are the words of patterns. -/
theorem made_iff : w.Made ↔ ∃ p : Pattern, p.pack = w := by
  constructor
  · intro made
    -- every construction packs the pattern that the same construction makes
    induction made with
    | free h => exact exists_pack_of_map ((Pattern.pack_free _).symm.trans h)
    | ofMinterm h => exact exists_pack_of_map ((Pattern.pack_ofMinterm _ _).symm.trans h)
    | parse h => exact exists_pack_of_map ((Pattern.pack_parse _).symm.trans h)
    | merge _ _ h ihu ihv =>
      obtain ⟨p, rfl⟩ := ihu
      obtain ⟨q, rfl⟩ := ihv
      rw [Pattern.pack_merge?] at h
      obtain ⟨r, -, hr⟩ := Option.map_eq_some_iff.mp h
      exact ⟨r, hr⟩
  · rintro ⟨p, rfl⟩
    -- its text makes it
    have hread : Packed.parse (toString p) = .ok p.pack := by
      rw [Pattern.pack_parse, Pattern.parse_toString]
      rfl
    exact Made.parse hread

end Packed

namespace Pattern

variable {value length : Nat}

/-- A number has a pattern exactly when it fits into an allowed length. -/
theorem exists_ofMinterm_iff :
    (∃ q, ofMinterm value length = .ok q) ↔ length ≤ maxVariables ∧ value < Binary.capacity length := by
  constructor
  · rintro ⟨q, hq⟩
    obtain ⟨hlen, hvalue, -⟩ := ofMinterm_eq_ok_iff.mp hq
    exact ⟨hlen, hvalue⟩
  · rintro ⟨hlen, hvalue⟩
    simp [ofMinterm, hlen, hvalue]

/-- What patterns are in words and what they mean. The packed patterns that can be made are the words of patterns. These
words are disjoint and lie within at most ten positions, so that the literals and the free positions add up to the
length; their bits count the positions fixed at one and the literals. A pattern stands for the numbers of this many
digits that agree with every fixed position, and lists them in ascending order, twice as many for each free position;
the tests on words find the same positions and numbers. A number has a pattern exactly when it fits into the length, and
is then the only minterm. -/
theorem packed_patterns_describe_minterms :
    (∀ w : Packed, w.Made ↔ ∃ p : Pattern, p.pack = w) ∧
    (∀ p : Pattern,
      (p.length ≤ maxVariables ∧ p.pack.ones &&& p.pack.zeros = 0#16 ∧
        ∀ i, p.length ≤ i → (p.pack.ones ||| p.pack.zeros).getLsbD i = false) ∧
      (p.pack.weight = p.weight ∧ p.pack.literalCount = p.literalCount ∧ p.pack.freeCount = p.freeCount ∧
        p.literalCount + p.freeCount = p.length) ∧
      (∀ i, p.pack.get? i = p.get? i) ∧
      (∀ m, p.pack.covers m = decide (m ∈ p) ∧
        (m ∈ p ↔ m < 2 ^ p.length ∧ ∀ i b, p.get? i = some b → m.testBit (p.length - 1 - i) = b)) ∧
      p.pack.minterms = p.minterms.toList ∧ p.minterms.toList.Pairwise (· < ·) ∧
      (∀ m, m ∈ p.minterms.toList ↔ m ∈ p) ∧ p.minterms.toList.length = 2 ^ p.freeCount) ∧
    ∀ value length, Packed.ofMinterm value length = (ofMinterm value length).map pack ∧
      ((∃ q, ofMinterm value length = .ok q) ↔ length ≤ maxVariables ∧ value < 2 ^ length) ∧
      ∀ q, ofMinterm value length = .ok q → q.length = length ∧ ∀ m, m ∈ q ↔ m = value := by
  refine ⟨fun w => Packed.made_iff, ?_, ?_⟩
  · intro p
    refine ⟨⟨p.length_le, mask_and_mask, ?_⟩, ?_, get?_pack p, ?_, minterms_pack p, p.minterms.ascending, ?_,
      size_minterms p⟩
    · intro i
      exact getLsbD_mask_or_mask_of_length_le
    · exact ⟨weight_pack p, literalCount_pack p, freeCount_pack p, literalCount_add_freeCount p⟩
    · intro m
      exact ⟨covers_pack p m, mem_iff⟩
    · intro m
      exact mem_minterms
  · intro value length
    refine ⟨pack_ofMinterm value length, exists_ofMinterm_iff, ?_⟩
    intro q hq
    exact ⟨length_of_ofMinterm hq, mem_iff_of_ofMinterm hq⟩

end Pattern

end PrimeCover
