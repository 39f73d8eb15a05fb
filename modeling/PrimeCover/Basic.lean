/-!
# Variables and faults

A function has at most ten variables. A variable is known by its position: position 0 belongs to the most
significant binary digit of a minterm, and the positions are lettered from `A` to `J`.

A fault says why a list of minterms, a pattern, a table of names or a rendering is refused. The wording that a user
reads stands in `Fault.message` alone.
-/

set_option autoImplicit false

namespace PrimeCover

/-! ## Variables -/

/-- The largest number of variables of a function, and of positions of a pattern. -/
def maxVariables : Nat := 10

/-- The canonical letter of a position: `A` for position 0, `B` for position 1, and so on. -/
def Variable.letter (position : Nat) : Char :=
  Char.ofNat ('A'.toNat + position)

/-! ## Faults -/

/-- The causes of a refusal. -/
inductive Fault where
  /-- A minterm occurs again later in the list. -/
  | duplicateMinterm (minterm : Nat)
  /-- A token of a list of minterms is no natural number below `2 ^ 32` in decimal digits. -/
  | notAMinterm (token : String)
  /-- More positions are needed than there is room for. -/
  | tooManyVariables (required available : Nat)
  /-- A position that has to be written has no name. -/
  | missingName (position : Nat)
  /-- The text is no identifier. -/
  | invalidName (name : String)
  /-- The name already belongs to an earlier position. -/
  | conflictingName (name : String)
  /-- The text holds a character that has no meaning in a pattern. -/
  | invalidPattern (text : String)
deriving DecidableEq, Repr

/-- The sentence that reports a fault. -/
def Fault.message : Fault → String
  | .duplicateMinterm m => s!"The minterm {m} is listed more than once"
  | .notAMinterm token => s!"'{token}' is not a valid minterm"
  | .tooManyVariables required available =>
    s!"{required} variables are required, at most {available} are supported"
  | .missingName position => s!"No variable name for position {position}"
  | .invalidName name => s!"The name '{name}' is invalid"
  | .conflictingName name => s!"The name '{name}' conflicts with an other variable"
  | .invalidPattern text => s!"Not a valid pattern: '{text}'"

end PrimeCover
