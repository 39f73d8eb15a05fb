import PrimeCover.Pattern.Basic

/-!
# The text of a pattern

A pattern is written with one symbol for each position: `0`, `1` or `-`. Spaces, tabs and single quotes between
the symbols are skipped when a pattern is read. A character with no meaning is reported before a length that is
too large. The canonical form writes a pattern as a product of letters, primed where the digit is zero.
-/

set_option autoImplicit false

namespace PrimeCover.Pattern

/-- Whether a character only sets symbols apart. -/
def isSkipped (c : Char) : Bool :=
  c == ' ' || c == '\t' || c == '\''

/-- The states that a text spells. -/
def trits? (text : String) : Option (List Trit) :=
  (text.toList.filter (!isSkipped ·)).mapM Trit.ofChar?

/-- Reads a pattern. -/
def parse (text : String) : Except Fault Pattern :=
  match trits? text with
  | some trits => ofTrits trits
  | none => .error (.invalidPattern text)

/-- The symbols of the states in order. -/
instance : ToString Pattern where
  toString p := String.ofList (p.trits.map Trit.toChar)

/-- A literal with the canonical letter of its position. -/
def standardLiteral : Nat × Bool → String
  | (position, true) => (Variable.letter position).toString
  | (position, false) => (Variable.letter position).toString ++ "'"

/-- The product of canonical letters; `1` when no position is fixed. -/
def standardForm (p : Pattern) : String :=
  if p.isFree then "1" else String.join (p.fixed.map standardLiteral)

end PrimeCover.Pattern
