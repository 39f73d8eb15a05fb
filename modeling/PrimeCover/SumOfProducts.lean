import PrimeCover.Term

/-!
# Sums of products

A solution of a minimization is an ordered list of products. Without any product it is the constant `0`.
-/

set_option autoImplicit false

namespace PrimeCover

/-- An ordered list of products. -/
structure SumOfProducts where
  /-- The products, in the order in which they are written. -/
  products : List Term
deriving DecidableEq

namespace SumOfProducts

/-- The number of products. -/
def length (s : SumOfProducts) : Nat := s.products.length

/-- Whether this is the constant zero. -/
def isEmpty (s : SumOfProducts) : Bool := s.products.isEmpty

/-- The patterns of the products, in order. -/
def patterns (s : SumOfProducts) : List Pattern :=
  s.products.map Term.pattern

/-- The minterms of all products. -/
def covered (s : SumOfProducts) : NatSet :=
  s.products.foldl (fun covered t => covered ∪ t.covered) ∅

/-- The number of literals of all products together. -/
def literalCount (s : SumOfProducts) : Nat :=
  s.patterns.foldl (fun total p => total + p.literalCount) 0

/-- The sum with canonical letters; `0` without any product. -/
def standardForm (s : SumOfProducts) : String :=
  if s.isEmpty then "0" else " + ".intercalate (s.patterns.map Pattern.standardForm)

/-- The canonical form: the products in order, with a plus between them, and zero for the empty sum. -/
instance : ToString SumOfProducts where
  toString := standardForm

end SumOfProducts

end PrimeCover
