import PrimeCover.Coverage.Reduction
import PrimeCover.Minterm
import PrimeCover.Petrick
import PrimeCover.SumOfProducts
import PrimeCover.Tabulation

/-!
# Minimization

The whole method: tabulate the minterms, reduce the coverage problem of the candidates, and choose among the
candidates that are left. A solution lists the chosen candidates in the order of the pool and then the primes
in the order of choice. All smallest solutions are given. The function without minterms takes no variable and
has the constant zero as its one solution.
-/

set_option autoImplicit false

namespace PrimeCover

/-- The record of a minimization. -/
structure Minimization where
  /-- The number of variables: the digits of the largest minterm. -/
  variableCount : Nat
  /-- The first stage, which finds the candidates. -/
  tabulation : Tabulation
  /-- The coverage problem at the end of the reduction. -/
  coverage : Coverage
  /-- The choice that is left when the primes do not cover everything. -/
  petrick? : Option Petrick
  /-- All smallest solutions. -/
  solutions : List SumOfProducts

namespace Minimization

/-- The solution that adds the candidates of a product of labels to the primes. -/
def assemble (petrick : Petrick) (primes : List Term) (product : NatSet) : SumOfProducts where
  products := product.toList.filterMap petrick.candidate? ++ primes

/-- The record that starts from the terms of the minterms. -/
def ofLeaves (variableCount : Nat) (minterms : List Nat) (leaves : List Term) : Minimization :=
  let tabulation := Tabulation.ofTerms leaves
  let coverage := (Coverage.start minterms tabulation.candidates).reduce
  if coverage.isCovered then
    ⟨variableCount, tabulation, coverage, none, [⟨coverage.primes⟩]⟩
  else
    let petrick := Petrick.ofCoverage coverage
    ⟨variableCount, tabulation, coverage, some petrick, petrick.solve.map (assemble petrick coverage.primes)⟩

/-- Minimizes the function with the given minterms. -/
def solve (minterms : List Nat) : Except Fault Minimization := do
  Minterm.check minterms
  let variableCount := Minterm.width minterms
  let sorted := minterms.mergeSort
  let leaves ← sorted.mapM fun m => Term.leaf m variableCount
  return ofLeaves variableCount sorted leaves

end Minimization

/-- All smallest sums of products for the function with the given minterms. -/
def minimize (minterms : List Nat) : Except Fault (List SumOfProducts) := do
  let record ← Minimization.solve minterms
  return record.solutions

end PrimeCover
