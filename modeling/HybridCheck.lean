import HybridCheck.Main
import HybridCheck.Search.Span
import HybridCheck.Solver.Script
import HybridCheck.Proofs.Meaning
import HybridCheck.Proofs.Operator
import HybridCheck.Proofs.Subterm
import HybridCheck.Proofs.Constraint
import HybridCheck.Proofs.Convexity
import HybridCheck.Proofs.Expansion
import HybridCheck.Proofs.Separation
import HybridCheck.Proofs.Tabulation
import HybridCheck.Proofs.Unrolling
import HybridCheck.Proofs.Reachability
import HybridCheck.Proofs.Symbols
import HybridCheck.Proofs.Nesting
import HybridCheck.Proofs.Workers
import HybridCheck.Proofs.Refutation
import HybridCheck.Proofs.Skolemization
import HybridCheck.Proofs.TraceConstraints
import HybridCheck.Proofs.BoundedEncoding
import HybridCheck.Proofs.Enclosing
import HybridCheck.Proofs.Negation
import HybridCheck.Proofs.Resolution
import HybridCheck.Proofs.Inlining
import HybridCheck.Proofs.Arithmetic
import HybridCheck.Proofs.Deepening
import HybridCheck.Proofs.Translation
import HybridCheck.Proofs.Totality
import HybridCheck.Proofs.Provenance
import HybridCheck.Proofs.NormalForm
import HybridCheck.Proofs.SignInvariance
import HybridCheck.Proofs.ActiveMode
import HybridCheck.Proofs.Objections
import HybridCheck.Proofs.Interpretation
import HybridCheck.Proofs.Rewriting
import HybridCheck.Proofs.Acceptance
import HybridCheck.Proofs.Identity
import HybridCheck.Proofs.Chronology
import HybridCheck.Proofs.TimeBound
import HybridCheck.Proofs.Locality
import HybridCheck.Proofs.References
import HybridCheck.Proofs.Rates
import HybridCheck.Proofs.Closedness
import HybridCheck.Proofs.Printing
import HybridCheck.Proofs.Support
import HybridCheck.Proofs.Modes
import HybridCheck.Proofs.Identifiers
import HybridCheck.Proofs.Listing
import HybridCheck.Proofs.FoldedForm
import HybridCheck.Proofs.Coverage
