import PrimeCover.Petrick

/-!
# Products as lists

A product may be kept as no more than the list of its labels, in ascending order. Two products are multiplied by merging
their lists and keeping one of equal neighbours, and a label is looked for by binary search. Both need the order: in a
list out of order, equal labels need not stand together, and the search may pass a label over. Nothing in the type
keeps the order; the operations do.
-/

set_option autoImplicit false

namespace PrimeCover.Petrick

/-- A product as the list of its labels. -/
abbrev Product := List Nat

namespace Product

/-- Merges the labels of two products and keeps one of equal neighbours. -/
def union (p q : Product) : Product :=
  (p.merge q).eraseReps

/-- Whether binary search finds a label in a product. -/
def finds (p : Product) (label : Nat) : Bool :=
  p.toArray.binSearchContains label fun a b => a < b

/-- Whether every label of the first product is found in the second one. -/
def isSubset (small large : Product) : Bool :=
  small.all large.finds

/-- Sorts products and keeps one of each. -/
def sortDistinct (products : List Product) : List Product :=
  (products.mergeSort inOrder).eraseReps

/-- Drops the products in which all labels of a shorter one are found. -/
def absorb (products : List Product) : List Product :=
  products.filter fun p => !products.any fun q => q.length < p.length && isSubset q p

/-- Multiplies two sums of products: all unions, less those that are absorbed. -/
def multiply (left right : List Product) : List Product :=
  absorb (sortDistinct (left.flatMap fun p => right.map (union p)))

/-- The products of a single sum: one for each label. -/
def singletons (sum : List Nat) : List Product :=
  sortDistinct (sum.map fun label => [label])

/-- Multiplies sums out; the product of no sums is the empty product. -/
def expand : List (List Nat) → List Product
  | [] => [[]]
  | sum :: rest => rest.foldl (fun products next => multiply products (singletons next)) (singletons sum)

end Product

end PrimeCover.Petrick
