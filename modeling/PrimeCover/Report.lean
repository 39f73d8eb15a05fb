import PrimeCover.Style

/-!
# Reports

A report lists alternative solutions in the textbook style, each on a line under its heading. Solutions are
numbered unless there is exactly one, and an empty line stands between them.
-/

set_option autoImplicit false

namespace PrimeCover.Report

/-- The heading of the solution at an index, among so many solutions. -/
def heading (count index : Nat) : String :=
  if count = 1 then "Solution:" else s!"Solution #{index + 1}:"

/-- A heading with its expression. -/
def block (heading expression : String) : String :=
  heading ++ "\n" ++ expression ++ "\n"

/-- Writes all solutions. -/
def render (table : NameTable) (solutions : List SumOfProducts) : Except Fault String := do
  let blocks ← solutions.zipIdx.mapM fun (solution, index) => do
    let expression ← Style.textbook.render table solution
    return block (heading solutions.length index) expression
  return "\n".intercalate blocks

end PrimeCover.Report
