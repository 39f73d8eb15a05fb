import PrimeCover.NameTable
import PrimeCover.SumOfProducts

/-!
# Styles

A style says how a sum of products is written with the names of a table: what stands between products and
between literals, how a negated literal is marked, and how the constants look. There are two of them, the
textbook style (`AB' + C`) and the programming style (`A & !B | C`).
-/

set_option autoImplicit false

namespace PrimeCover

/-- Where the mark of a negated literal stands. -/
inductive MarkSide where
  /-- In front of the name. -/
  | before
  /-- Behind the name. -/
  | after
deriving DecidableEq, Repr

/-- The symbols of a written sum of products. -/
structure Style where
  /-- What stands between two products. -/
  sum : String
  /-- What stands between two literals. -/
  product : String
  /-- The mark of a negated literal. -/
  mark : String
  /-- The side on which the mark stands. -/
  side : MarkSide
  /-- The sum without products. -/
  zero : String
  /-- The product without literals. -/
  one : String

namespace Style

/-- Products are juxtaposed literals, sums use a plus sign, and a quote follows a negated name. -/
def textbook : Style := ⟨" + ", "", "'", .after, "0", "1"⟩

/-- The operators of a programming language. -/
def programming : Style := ⟨" | ", " & ", "!", .before, "0", "1"⟩

/-- A literal: the name itself, or the name with the mark of negation. -/
def literal (style : Style) (name : String) : Bool → String
  | true => name
  | false =>
    match style.side with
    | .before => style.mark ++ name
    | .after => name ++ style.mark

/-- Writes a pattern as a product. Every position needs a name, also a free one. -/
def renderPattern (style : Style) (table : NameTable) (p : Pattern) : Except Fault String := do
  table.check p
  if p.isFree then
    return style.one
  else
    let literals ← p.fixed.mapM fun (position, digit) => do
      let name ← table.name position
      return style.literal name digit
    return style.product.intercalate literals

/-- Writes a sum of products. The sum without products needs no names. -/
def render (style : Style) (table : NameTable) (s : SumOfProducts) : Except Fault String := do
  if s.isEmpty then
    return style.zero
  else
    let products ← s.patterns.mapM (style.renderPattern table)
    return style.sum.intercalate products

end Style

end PrimeCover
