import Mathlib
import PrimeCover.Proofs.Pattern.Packing

/-!
# Texts of patterns

Reading a pattern drops the characters that only set symbols apart, and what is left has to be the text of a pattern
(`parse_eq_ok_iff`). In particular the text of a pattern is read back (`parse_toString`), and different patterns have
different texts (`toString_inj`). Main statement: `parse_reads_symbols` says for every text which of the three outcomes
it has. A foreign character decides before the number of symbols does, also when it stands behind more than ten of them,
and reading into words decides alike.
-/

set_option autoImplicit false

namespace PrimeCover

/-! ## Symbols -/

namespace Trit

variable {c : Char} {t : Trit}

/-- The characters that stand for the state of a position. -/
def symbols : List Char := ['0', '1', '-']

/-- A character is read as a state exactly when it is the symbol of the state. -/
theorem ofChar?_eq_some_iff : ofChar? c = some t ↔ c = t.toChar := by
  constructor
  · intro h
    exact (toChar_of_ofChar? h).symm
  · rintro rfl
    exact ofChar?_toChar t

/-- A character is read as no state exactly when it is none of the three symbols. -/
theorem ofChar?_eq_none_iff : ofChar? c = none ↔ c ∉ symbols := by
  unfold ofChar? symbols
  split <;> simp_all

end Trit

namespace Pattern

variable {text : String} {p q : Pattern} {chars : List Char} {trits : List Trit} {c : Char}

/-- The characters that only set symbols apart. -/
def gaps : List Char := [' ', '\t', '\'']

/-- The characters that are skipped are the gaps. -/
theorem isSkipped_eq_decide (c : Char) : isSkipped c = decide (c ∈ gaps) := by
  rw [Bool.eq_iff_iff]
  simp [isSkipped, gaps, or_assoc]

/-- No symbol is skipped. -/
theorem notMem_gaps_of_mem_symbols (h : c ∈ Trit.symbols) : c ∉ gaps := by
  simp only [Trit.symbols, List.mem_cons, List.not_mem_nil, or_false] at h
  rcases h with rfl | rfl | rfl <;> decide

/-- The symbol of a state is one of the three. -/
theorem toChar_mem_symbols (t : Trit) : t.toChar ∈ Trit.symbols := by
  cases t <;> decide

/-- Characters are read as states exactly when they are the symbols of these states. -/
theorem mapM_ofChar?_eq_some_iff : chars.mapM Trit.ofChar? = some trits ↔ chars = trits.map Trit.toChar := by
  induction chars generalizing trits with
  | nil => simp [eq_comm]
  | cons c chars ih =>
    simp only [List.mapM_cons, Option.bind_eq_bind, Option.bind_eq_some_iff, Option.pure_def, Option.some.injEq, ih,
      Trit.ofChar?_eq_some_iff]
    constructor
    · rintro ⟨t, rfl, rest, rfl, rfl⟩
      rfl
    · intro h
      cases trits with
      | nil => simp at h
      | cons t rest =>
        obtain ⟨hc, hchars⟩ := List.cons.inj h
        exact ⟨t, hc, rest, hchars, rfl⟩

/-- Characters are read as no states exactly when one of them is no symbol. -/
theorem mapM_ofChar?_eq_none_iff : chars.mapM Trit.ofChar? = none ↔ ∃ c ∈ chars, c ∉ Trit.symbols := by
  simp only [← Trit.ofChar?_eq_none_iff]
  induction chars with
  | nil => simp
  | cons c chars ih =>
    rw [List.exists_mem_cons_iff, ← ih, List.mapM_cons]
    cases Trit.ofChar? c with
    | none => simp
    | some t => cases chars.mapM Trit.ofChar? <;> simp

/-- A pattern is written with the symbols of its states. -/
theorem toList_toString (p : Pattern) : (toString p).toList = p.trits.map Trit.toChar :=
  String.toList_ofList

/-- The pattern made of states is the one with these states. -/
theorem ofTrits_eq_ok_iff : ofTrits trits = .ok p ↔ p.trits = trits := by
  unfold ofTrits
  split
  · next fits =>
    rw [Except.ok.injEq]
    constructor
    · rintro rfl
      rfl
    · rintro rfl
      rfl
  · next long =>
    constructor
    · intro h
      cases h
    · rintro rfl
      exact absurd p.length_le long

/-! ## Reading -/

/-- A text that holds symbols between gaps is read by its symbols, and refused only for their number. -/
theorem parse_of_symbols (h : text.toList.filter (· ∉ gaps) = trits.map Trit.toChar) :
    parse text = ofTrits trits := by
  simp only [parse, trits?, isSkipped_eq_decide, ← decide_not, mapM_ofChar?_eq_some_iff.mpr h]

/-- A text with a foreign character is refused for it, however long it is. -/
theorem parse_of_foreign (hc : c ∈ text.toList) (hforeign : c ∉ Trit.symbols ++ gaps) :
    parse text = .error (.invalidPattern text) := by
  rw [List.mem_append, not_or] at hforeign
  have hkept : c ∈ text.toList.filter (· ∉ gaps) := by simp [hc, hforeign.2]
  have hread : (text.toList.filter (· ∉ gaps)).mapM Trit.ofChar? = none :=
    mapM_ofChar?_eq_none_iff.mpr ⟨c, hkept, hforeign.1⟩
  simp only [parse, trits?, isSkipped_eq_decide, ← decide_not, hread]

/-- The symbols of a text without foreign characters are those of a list of states. -/
theorem exists_trits (h : ∀ c ∈ text.toList, c ∈ Trit.symbols ++ gaps) :
    ∃ trits : List Trit, text.toList.filter (· ∉ gaps) = trits.map Trit.toChar ∧
      text.toList.countP (· ∈ Trit.symbols) = trits.length := by
  have hkept : text.toList.filter (· ∉ gaps) = text.toList.filter (· ∈ Trit.symbols) := by
    apply List.filter_congr
    intro c hc
    rw [decide_eq_decide]
    constructor
    · intro hgap
      exact (List.mem_append.mp (h c hc)).resolve_right hgap
    · exact notMem_gaps_of_mem_symbols
  cases hread : (text.toList.filter (· ∉ gaps)).mapM Trit.ofChar? with
  | none =>
    obtain ⟨c, hc, hforeign⟩ := mapM_ofChar?_eq_none_iff.mp hread
    rw [hkept, List.mem_filter, decide_eq_true_iff] at hc
    exact absurd hc.2 hforeign
  | some trits =>
    have hspelled := mapM_ofChar?_eq_some_iff.mp hread
    refine ⟨trits, hspelled, ?_⟩
    rw [List.countP_eq_length_filter, ← hkept, hspelled, List.length_map]

/-- A text is read as a pattern exactly when it is the text of the pattern with gaps put in. -/
theorem parse_eq_ok_iff : parse text = .ok p ↔ text.toList.filter (· ∉ gaps) = (toString p).toList := by
  rw [toList_toString]
  constructor
  · intro h
    by_cases hknown : ∀ c ∈ text.toList, c ∈ Trit.symbols ++ gaps
    · obtain ⟨trits, hspelled, -⟩ := exists_trits hknown
      rw [parse_of_symbols hspelled, ofTrits_eq_ok_iff] at h
      rw [hspelled, h]
    · push Not at hknown
      obtain ⟨c, hc, hforeign⟩ := hknown
      rw [parse_of_foreign hc hforeign] at h
      cases h
  · intro h
    rw [parse_of_symbols h, ofTrits_eq_ok_iff]

/-- The text of a pattern is read back. -/
theorem parse_toString (p : Pattern) : parse (toString p) = .ok p := by
  rw [parse_eq_ok_iff, List.filter_eq_self, toList_toString]
  intro c hc
  obtain ⟨t, -, rfl⟩ := List.mem_map.mp hc
  exact decide_eq_true (notMem_gaps_of_mem_symbols (toChar_mem_symbols t))

/-- Different patterns have different texts. -/
theorem toString_inj : toString p = toString q ↔ p = q := by
  constructor
  · intro h
    have hread : parse (toString p) = parse (toString q) := by rw [h]
    rw [parse_toString, parse_toString] at hread
    exact Except.ok.inj hread
  · rintro rfl
    rfl

/-- What reading a text gives. A character that is neither a symbol nor a gap makes the text invalid, however many
symbols stand before it. Without such a character, more than ten symbols are reported with their number, and up to ten
are read as the pattern whose text they are. Conversely the text of every pattern is read as this pattern. Reading the
characters one by one into words gives the words of the same pattern or the same fault, and the words have its text. -/
theorem parse_reads_symbols (text : String) :
    (parse text = .error (.invalidPattern text) ↔ ∃ c ∈ text.toList, c ∉ Trit.symbols ++ gaps) ∧
    ((∀ c ∈ text.toList, c ∈ Trit.symbols ++ gaps) →
      (parse text = .error (.tooManyVariables (text.toList.countP (· ∈ Trit.symbols)) maxVariables) ↔
        maxVariables < text.toList.countP (· ∈ Trit.symbols)) ∧
      (text.toList.countP (· ∈ Trit.symbols) ≤ maxVariables →
        ∃ p, parse text = .ok p ∧ toString p = String.ofList (text.toList.filter (· ∉ gaps)))) ∧
    (∀ p : Pattern, parse (toString p) = .ok p) ∧
    Packed.parse text = (parse text).map pack ∧ ∀ p : Pattern, toString p.pack = toString p := by
  refine ⟨?_, ?_, parse_toString, pack_parse text, toString_pack⟩
  · constructor
    · intro h
      by_contra hknown
      push Not at hknown
      obtain ⟨trits, hspelled, -⟩ := exists_trits hknown
      rw [parse_of_symbols hspelled, ofTrits] at h
      split at h <;> cases h
    · rintro ⟨c, hc, hforeign⟩
      exact parse_of_foreign hc hforeign
  · intro hknown
    obtain ⟨trits, hspelled, hcount⟩ := exists_trits hknown
    rw [hcount, parse_of_symbols hspelled, hspelled]
    constructor
    · unfold ofTrits
      split <;> simp <;> omega
    · intro fits
      exact ⟨⟨trits, fits⟩, ofTrits_eq_ok_iff.mpr rfl, rfl⟩

-- the foreign character stands behind eleven symbols
example : parse "01-01-01-01x" = .error (.invalidPattern "01-01-01-01x") := by decide

end Pattern

end PrimeCover
