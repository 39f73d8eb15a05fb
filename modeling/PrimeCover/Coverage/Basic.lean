import PrimeCover.Term

/-!
# Coverage

The second stage of the method works on a coverage problem: the active minterms, which still have to be
covered, the pool of candidates for this, and the primes that were chosen so far. The column of a minterm is
the set of the candidates that cover it, each known by its place in the pool. A coverage also keeps the
reduction steps that led to it.
-/

set_option autoImplicit false

namespace PrimeCover

/-- One application of a reduction rule. -/
inductive Step where
  /-- The prime was the only candidate that covered the minterm. -/
  | essential (minterm : Nat) (prime : Pattern)
  /-- The discarded candidate covered less than the kept one. -/
  | row (kept discarded : Pattern)
  /-- Whatever covers the kept minterm covers the discarded one. -/
  | column (kept discarded : Nat)
deriving DecidableEq

namespace Step

/-- The line that reports a step. -/
instance : ToString Step where
  toString
    | essential minterm prime => s!"essential: {prime} (only cover of {minterm})"
    | row kept discarded => s!"row dominance: {discarded} discarded by {kept}"
    | column kept discarded => s!"column dominance: {discarded} dropped, implied by {kept}"

end Step

/-- What has to be covered, what may cover it, and what was chosen. -/
structure Coverage where
  /-- The active minterms in ascending order. -/
  minterms : List Nat
  /-- The pool of candidates. -/
  candidates : List Term
  /-- The chosen primes, in the order of choice. -/
  primes : List Term
  /-- The recorded reduction steps, in order. -/
  steps : List Step
deriving DecidableEq

namespace Coverage

/-- The problem in which all minterms are active and all candidates in the pool. -/
def start (minterms : List Nat) (candidates : List Term) : Coverage where
  minterms := minterms.mergeSort
  candidates := candidates
  primes := []
  steps := []

/-- Whether no minterm is active any more. -/
def isCovered (c : Coverage) : Bool :=
  c.minterms.isEmpty

/-- The places of the candidates that cover a minterm. -/
def column (c : Coverage) (m : Nat) : NatSet :=
  NatSet.positions (fun t : Term => m ∈ t) c.candidates

/-- The columns of the active minterms, in order. -/
def table (c : Coverage) : List NatSet :=
  c.minterms.map c.column

/-- A selection of terms covers a list of minterms when each of them belongs to a selected term. -/
def Covers (selection : List Term) (minterms : List Nat) : Prop :=
  ∀ m ∈ minterms, ∃ t ∈ selection, m ∈ t

end Coverage

end PrimeCover
