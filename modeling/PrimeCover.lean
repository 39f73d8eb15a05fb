import PrimeCover.Basic
import PrimeCover.Binary
import PrimeCover.Label
import PrimeCover.NatSet
import PrimeCover.Text.Token
import PrimeCover.Text.Identifier
import PrimeCover.Minterm
import PrimeCover.Pattern.Trit
import PrimeCover.Pattern.Basic
import PrimeCover.Pattern.Merge
import PrimeCover.Pattern.Text
import PrimeCover.Pattern.Packed
import PrimeCover.Term
import PrimeCover.Tabulation
import PrimeCover.Coverage.Basic
import PrimeCover.Coverage.Reduction
import PrimeCover.Petrick
import PrimeCover.Petrick.Product
import PrimeCover.SumOfProducts
import PrimeCover.Minimization
import PrimeCover.NameTable
import PrimeCover.Style
import PrimeCover.Report
import PrimeCover.Proofs.NatSet
import PrimeCover.Proofs.Traversal
import PrimeCover.Proofs.Text.Joining
import PrimeCover.Proofs.NameTable
import PrimeCover.Proofs.Pattern.Inclusion
import PrimeCover.Proofs.Pattern.Merging
import PrimeCover.Proofs.Pattern.Counting
import PrimeCover.Proofs.Pattern.Union
import PrimeCover.Proofs.Pattern.Primality
import PrimeCover.Proofs.Pattern.Fixed
import PrimeCover.Proofs.Pattern.Masks
import PrimeCover.Proofs.Pattern.Packing
import PrimeCover.Proofs.Pattern.Spelling
import PrimeCover.Proofs.Pattern.Meaning
import PrimeCover.Proofs.Term.Exactness
import PrimeCover.Proofs.Term.Inclusion
import PrimeCover.Proofs.Tabulation.Levels
import PrimeCover.Proofs.Tabulation.Run
import PrimeCover.Proofs.Tabulation.Primes
import PrimeCover.Proofs.Coverage.Places
import PrimeCover.Proofs.Coverage.Step
import PrimeCover.Proofs.Coverage.FixedPoint
import PrimeCover.Proofs.Coverage.Selection
import PrimeCover.Proofs.Coverage.Conservation
import PrimeCover.Proofs.Coverage.Optimum
import PrimeCover.Proofs.Coverage.Phases
import PrimeCover.Proofs.Coverage.Columns
import PrimeCover.Proofs.Coverage.Firing
import PrimeCover.Proofs.Coverage.Replay
import PrimeCover.Proofs.Petrick.Absorption
import PrimeCover.Proofs.Petrick.Expansion
import PrimeCover.Proofs.Petrick.HittingSets
import PrimeCover.Proofs.Petrick.Labels
import PrimeCover.Proofs.Minimization.Record
import PrimeCover.Proofs.Minimization.Covers
import PrimeCover.Proofs.Minimization.Optimality
import PrimeCover.Proofs.Minimization.Trace
import PrimeCover.Proofs.Minimization.Remainder
import PrimeCover.Proofs.Minimization.Assembly
import PrimeCover.Proofs.Minterm.Spelling
import PrimeCover.Proofs.Minterm.Reading
import PrimeCover.Proofs.Style.Rendering
import PrimeCover.Proofs.Style.Reading
import PrimeCover.Proofs.Tabulation.Conservation
import PrimeCover.Proofs.Minimization.Order
import PrimeCover.Proofs.Tabulation.Implicants
import PrimeCover.Proofs.Style.MissingNames
import PrimeCover.Proofs.Label.Numerals
import PrimeCover.Proofs.Label.Words
import PrimeCover.Proofs.NameTable.Acceptance
import PrimeCover.Proofs.NameTable.Spelling
import PrimeCover.Proofs.Petrick.LabelTable
import PrimeCover.Proofs.Petrick.Products
import PrimeCover.Proofs.Tabulation.Pairs
import PrimeCover.Proofs.Coverage.Places
