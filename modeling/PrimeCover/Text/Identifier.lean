/-!
# Identifiers

An identifier is a nonempty word of ASCII letters, ASCII digits and underscores that does not start with a digit.
-/

set_option autoImplicit false

namespace PrimeCover.Text

/-- Whether a character may start an identifier: an ASCII letter or an underscore. -/
def isIdentifierStart (c : Char) : Bool :=
  c.isAlpha || c == '_'

/-- Whether a character may continue an identifier: an ASCII letter or digit or an underscore. -/
def isIdentifierPart (c : Char) : Bool :=
  c.isAlphanum || c == '_'

/-- Whether a text is an identifier. -/
def isIdentifier (text : String) : Bool :=
  match text.toList with
  | [] => false
  | c :: rest => isIdentifierStart c && rest.all isIdentifierPart

/-- What may start an identifier may go on in it. -/
theorem isIdentifierPart_of_isIdentifierStart {c : Char} (h : isIdentifierStart c = true) :
    isIdentifierPart c = true := by
  simp only [isIdentifierStart, isIdentifierPart, Char.isAlphanum, Bool.or_eq_true] at h ⊢
  exact h.imp_left Or.inl

/-- An identifier is a start followed by parts. -/
theorem isIdentifier_iff {text : String} :
    isIdentifier text = true ↔ ∃ c rest, text.toList = c :: rest ∧ isIdentifierStart c = true ∧
      ∀ d ∈ rest, isIdentifierPart d = true := by
  unfold isIdentifier
  cases text.toList with
  | nil => simp
  | cons c rest =>
    constructor
    · intro h
      obtain ⟨hc, hrest⟩ := (Bool.and_eq_true _ _).mp h
      exact ⟨c, rest, rfl, hc, List.all_eq_true.mp hrest⟩
    · rintro ⟨d, later, heq, hd, hlater⟩
      cases heq
      exact (Bool.and_eq_true _ _).mpr ⟨hd, List.all_eq_true.mpr hlater⟩

/-- Every character of an identifier may be part of one. -/
theorem isIdentifierPart_of_isIdentifier {text : String} (h : isIdentifier text = true) {c : Char}
    (hc : c ∈ text.toList) : isIdentifierPart c = true := by
  obtain ⟨first, rest, htext, hfirst, hrest⟩ := isIdentifier_iff.mp h
  rw [htext] at hc
  rcases List.mem_cons.mp hc with rfl | hc
  · exact isIdentifierPart_of_isIdentifierStart hfirst
  · exact hrest c hc

end PrimeCover.Text
