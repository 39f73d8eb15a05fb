import PrimeCover.Pattern.Merge
import PrimeCover.Pattern.Text

/-!
# Terms

A term is a pattern together with the set of minterms that were folded into it. Terms start from a single
minterm or from a whole pattern, and grow by merging; `Built` holds of the terms that arise this way.
-/

set_option autoImplicit false

namespace PrimeCover

/-- A pattern and the minterms folded into it. -/
structure Term where
  /-- What the term fixes. -/
  pattern : Pattern
  /-- The minterms folded into the term. -/
  covered : NatSet
deriving DecidableEq

namespace Term

/-- A number belongs to a term when it was folded into it. -/
instance : Membership Nat Term where
  mem t m := m ∈ t.covered

/-- Membership is decided on the covered set. -/
instance (m : Nat) (t : Term) : Decidable (m ∈ t) :=
  inferInstanceAs (Decidable (m ∈ t.covered))

/-- A term is written as its pattern. -/
instance : ToString Term where
  toString t := toString t.pattern

/-- The term of a single minterm. -/
def leaf (value length : Nat) : Except Fault Term := do
  let pattern ← Pattern.ofMinterm value length
  return ⟨pattern, {value}⟩

/-- The term of all minterms of a pattern. -/
def ofPattern (p : Pattern) : Term :=
  ⟨p, p.minterms⟩

/-- The number of positions fixed at one. -/
def weight (t : Term) : Nat :=
  t.pattern.weight

/-- Whether the patterns of two terms are adjacent, so that the terms merge. -/
def adjacent (a b : Term) : Bool :=
  a.pattern.adjacent b.pattern

/-- The term of two patterns together, with the minterms of both terms folded into it. -/
def join (a b : Term) : Term :=
  ⟨a.pattern.join b.pattern, a.covered ∪ b.covered⟩

/-- The term that two adjacent terms merge to. -/
def merge? (a b : Term) : Option Term :=
  if a.adjacent b then some (a.join b) else none

/-- A term dominates another one when it covers all its minterms and more. -/
def Dominates (a b : Term) : Prop :=
  b.covered ⊂ a.covered

/-- Dominance is decided on the covered sets. -/
instance (a b : Term) : Decidable (a.Dominates b) :=
  inferInstanceAs (Decidable (b.covered ⊂ a.covered))

/-- The terms that arise from single minterms and whole patterns by merging. -/
inductive Built : Term → Prop where
  | leaf {value length : Nat} {t : Term} (made : Term.leaf value length = .ok t) : Built t
  | ofPattern (p : Pattern) : Built (Term.ofPattern p)
  | merge {a b t : Term} (left : Built a) (right : Built b) (made : a.merge? b = some t) : Built t

end Term

end PrimeCover
