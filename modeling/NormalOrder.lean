import NormalOrder.Main
import NormalOrder.Proofs.Reachability
import NormalOrder.Proofs.Stability
import NormalOrder.Proofs.Storage
import NormalOrder.Shell.Completion
import NormalOrder.Proofs.Indentation
import NormalOrder.Proofs.Failures
import NormalOrder.Proofs.Turn
import NormalOrder.Proofs.Recovery
import NormalOrder.Proofs.Breakdowns
import NormalOrder.Proofs.Alike
import NormalOrder.Proofs.Interactive
import NormalOrder.Proofs.Locations
import NormalOrder.Proofs.Attribution
import NormalOrder.Proofs.Prelude.Recursion
import NormalOrder.Proofs.Legibility
import NormalOrder.Proofs.Colour
import NormalOrder.Proofs.Grammar.Viability
import NormalOrder.Proofs.Outcomes
import NormalOrder.Proofs.Tiling
import NormalOrder.Proofs.Grammar.Culprits
import NormalOrder.Proofs.Grouping
import NormalOrder.Proofs.Loading
import NormalOrder.Proofs.ReadBack.Abbreviation
import NormalOrder.Proofs.Substitution
import NormalOrder.Proofs.Protection
import NormalOrder.Proofs.Continuation
