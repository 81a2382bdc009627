import Whence.Gallery.Basic
import Whence.Session
import Whence.Main
import Whence.View.Snapshot
import Whence.View.Trace
import Whence.Proofs.Memoization
import Whence.Proofs.Reference.Runs
import Whence.Proofs.Slice.NonInterference
import Whence.Proofs.Explanations
import Whence.Proofs.Slice.Duality
import Whence.Proofs.Isolation
import Whence.Proofs.Persistence
import Whence.Proofs.LeastBounds
import Whence.Proofs.WriteOrder
import Whence.Proofs.Slice.Accumulation
import Whence.Proofs.Slice.Loss
import Whence.Proofs.Safety
import Whence.Proofs.Clauses.Order
import Whence.Proofs.Finding.Runs
import Whence.Proofs.Refusals
import Whence.Proofs.Depth
import Whence.Proofs.Termination
import Whence.Proofs.Reevaluation
import Whence.Proofs.Library.Runs
import Whence.Proofs.Concatenation
import Whence.Proofs.Renderings
import Whence.Proofs.Traces
import Whence.Proofs.Arena
import Whence.Proofs.Slice.Restriction
import Whence.Proofs.ListLiterals.Evaluation
import Whence.Proofs.Knots.Sessions
import Whence.Proofs.Lineages
import Whence.Proofs.Programs.Runs
import Whence.Proofs.Edits.Outdated
