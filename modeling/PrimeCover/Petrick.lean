import PrimeCover.Coverage.Basic
import PrimeCover.Label

/-!
# Choosing the smallest covers

What the reduction leaves over is a product of sums. A candidate is labelled by its place in the pool, and
every active minterm contributes the sum of the labels of the candidates that cover it. A set of labels that
meets every sum is a cover. The product is multiplied out sum by sum; a product of labels that contains
another one is absorbed on the way, since it cannot be among the smallest.
-/

set_option autoImplicit false

namespace PrimeCover

/-- A pool of candidates and the sums of labels that have to be met. -/
structure Petrick where
  /-- The candidates; the label of a candidate is its place. -/
  candidates : List Term
  /-- The labels of the candidates that cover each minterm. -/
  sums : List NatSet
deriving DecidableEq

namespace Petrick

/-- The product of sums for the active minterms of a coverage problem. -/
def ofCoverage (c : Coverage) : Petrick where
  candidates := c.candidates
  sums := c.table

/-- The candidate with a label. -/
def candidate? (petrick : Petrick) (label : Nat) : Option Term :=
  petrick.candidates[label]?

/-- The labels that occur in some sum. -/
def usedLabels (petrick : Petrick) : NatSet :=
  petrick.sums.foldl (· ∪ ·) ∅

/-- The candidates that occur in some sum, in the order of the pool, each with its label in letters. -/
def labels (petrick : Petrick) : List (String × Term) :=
  petrick.usedLabels.toList.filterMap fun label =>
    (petrick.candidate? label).map (Label.ofIndex label, ·)

/-! ## Products of labels -/

/-- The lexicographic order of lists of labels. -/
def inOrder : List Nat → List Nat → Bool
  | [], _ => true
  | _ :: _, [] => false
  | a :: as, b :: bs => a < b || (a = b && inOrder as bs)

/-- The order of products: lexicographic on their ascending labels. -/
def precedes (p q : NatSet) : Bool :=
  inOrder p.toList q.toList

/-- Sorts products and keeps one of each. -/
def sortDistinct (products : List NatSet) : List NatSet :=
  (products.mergeSort precedes).eraseReps

/-- Drops the products that strictly contain another one. -/
def absorb (products : List NatSet) : List NatSet :=
  products.filter fun p => !products.any (· ⊂ p)

/-- Multiplies two sums of products: all unions, less those that are absorbed. -/
def multiply (left right : List NatSet) : List NatSet :=
  absorb (sortDistinct (left.flatMap fun p => right.map (p ∪ ·)))

/-- The products of a single sum: one for each label. -/
def singletons (sum : NatSet) : List NatSet :=
  sum.toList.map fun label => {label}

/-- Multiplies sums out; the product of no sums is the empty product. -/
def expand : List NatSet → List NatSet
  | [] => [∅]
  | sum :: rest => rest.foldl (fun products next => multiply products (singletons next)) (singletons sum)

/-- The products with the fewest labels. -/
def smallest (products : List NatSet) : List NatSet :=
  products.filter fun p => products.all (p.size ≤ ·.size)

/-- The smallest sets of labels that meet every sum, in lexicographic order. -/
def solve (petrick : Petrick) : List NatSet :=
  smallest (expand petrick.sums)

/-! ## Hitting sets -/

/-- A set of labels hits a list of sums when it shares a label with each of them. -/
def Hits (sums : List NatSet) (labels : NatSet) : Prop :=
  ∀ sum ∈ sums, ∃ label, label ∈ labels ∧ label ∈ sum

/-- A hitting set with no hitting set strictly inside. -/
def HitsMinimally (sums : List NatSet) (labels : NatSet) : Prop :=
  Hits sums labels ∧ ∀ other, Hits sums other → ¬ other ⊂ labels

/-- A hitting set with the fewest labels. -/
def HitsCheaply (sums : List NatSet) (labels : NatSet) : Prop :=
  Hits sums labels ∧ ∀ other, Hits sums other → labels.size ≤ other.size

end Petrick

end PrimeCover
