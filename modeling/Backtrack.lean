import Backtrack.Allowance
import Backtrack.Enumeration
import Backtrack.Main
import Backtrack.Proofs.Chain
import Backtrack.Proofs.Honest
import Backtrack.Proofs.Interleaving
import Backtrack.Proofs.Limit
import Backtrack.Proofs.Parallel
import Backtrack.Proofs.Rows
import Backtrack.Proofs.Successes
import Backtrack.Proofs.World
import Backtrack.Session.Request
import Backtrack.Proofs.Demand
import Backtrack.Proofs.Starting
import Backtrack.Proofs.Draining
import Backtrack.Proofs.Termination
import Backtrack.Proofs.Expressions
import Backtrack.Proofs.Readings
import Backtrack.Proofs.Calculation
import Backtrack.Proofs.Causality
import Backtrack.Proofs.Spans
import Backtrack.Proofs.MonadLaws
import Backtrack.Proofs.Exactness
import Backtrack.Proofs.Shifting
import Backtrack.Proofs.Completeness
import Backtrack.Proofs.Extension
import Backtrack.Proofs.LongestFirst
import Backtrack.Proofs.Verdicts
import Backtrack.Proofs.ChoiceLaws
import Backtrack.Proofs.FastPath
import Backtrack.Proofs.Sequencing
import Backtrack.Proofs.Remainders
import Backtrack.Proofs.RepetitionLaws
import Backtrack.Proofs.Stack
import Backtrack.Proofs.Tiling
import Backtrack.Proofs.Prefixes
import Backtrack.Proofs.StackInvariant
import Backtrack.Proofs.Exhaustion
import Backtrack.Proofs.Lookahead
import Backtrack.Proofs.Renaming
import Backtrack.Proofs.Folding
import Backtrack.Proofs.LeftChains
