import PrimeCover.Pattern.Basic
import PrimeCover.Text.Identifier
import PrimeCover.Text.Token

/-!
# Name tables

A name table gives names to the first positions of patterns: at most ten distinct ASCII identifiers. Names are
added one by one. A name that is no identifier is refused as such, then one that is taken, then one for which
there is no room.
-/

set_option autoImplicit false

namespace PrimeCover

/-- Names for the positions from 0 on. -/
structure NameTable where
  /-- The names, in the order of the positions. -/
  names : List String
  /-- Every name is an identifier. -/
  identifiers : ∀ name ∈ names, Text.isIdentifier name = true
  /-- No name stands for two positions. -/
  distinct : names.Nodup
  /-- There are no more names than variables. -/
  length_le : names.length ≤ maxVariables
deriving DecidableEq

namespace NameTable

/-- The table without names. -/
def empty : NameTable where
  names := []
  identifiers := List.forall_mem_nil _
  distinct := .nil
  length_le := Nat.zero_le _

/-- Adds the name of the next position. -/
def push (table : NameTable) (name : String) : Except Fault NameTable :=
  if valid : Text.isIdentifier name = true then
    if taken : name ∈ table.names then .error (.conflictingName name)
    else if room : table.names.length < maxVariables then
      .ok {
        names := table.names ++ [name]
        identifiers := List.forall_mem_append.mpr ⟨table.identifiers, List.forall_mem_singleton.mpr valid⟩
        distinct := List.nodup_append.mpr ⟨table.distinct, List.pairwise_singleton _ name, fun a ha b hb same =>
          taken (List.mem_singleton.mp hb ▸ same ▸ ha)⟩
        length_le := by rw [List.length_append]; exact room }
    else .error (.tooManyVariables (table.names.length + 1) maxVariables)
  else .error (.invalidName name)

/-- The table with the given names. -/
def ofList (names : List String) : Except Fault NameTable :=
  names.foldlM push empty

/-- The canonical letters for the first positions. -/
def letters (count : Nat) : Except Fault NameTable :=
  if count ≤ maxVariables then
    ofList ((List.range count).map fun position => (Variable.letter position).toString)
  else .error (.tooManyVariables count maxVariables)

/-- Reads the names of a table, which are written as tokens. -/
def parse (text : String) : Except Fault NameTable :=
  ofList ((Text.tokens text.toList).map String.ofList)

/-- The names in order, with a comma and a blank between them. -/
instance : ToString NameTable where
  toString table := ", ".intercalate table.names

/-- The number of names. -/
def length (table : NameTable) : Nat := table.names.length

/-- Whether no position has a name. -/
def isEmpty (table : NameTable) : Bool := table.names.isEmpty

/-- The name of a position, if it has one. -/
def get? (table : NameTable) (position : Nat) : Option String :=
  table.names[position]?

/-- The name of a position that has to have one. -/
def name (table : NameTable) (position : Nat) : Except Fault String :=
  match table.get? position with
  | some name => .ok name
  | none => .error (.missingName position)

/-- Refuses a pattern with more positions than there are names, whether these positions are fixed or free. -/
def check (table : NameTable) (p : Pattern) : Except Fault Unit :=
  if p.length ≤ table.length then .ok () else .error (.missingName table.length)

end NameTable

end PrimeCover
