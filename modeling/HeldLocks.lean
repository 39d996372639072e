import HeldLocks.Main
import HeldLocks.Proofs.Successors
import HeldLocks.Session.Run
import HeldLocks.Proofs.Sessions
import HeldLocks.Proofs.Replays
import HeldLocks.Proofs.Calls
import HeldLocks.Proofs.Counts
import HeldLocks.Proofs.Reductions
import HeldLocks.Proofs.Summaries
import HeldLocks.Proofs.Flattening
import HeldLocks.Proofs.Levels
import HeldLocks.Proofs.Edits
import HeldLocks.Proofs.Differences
import HeldLocks.Proofs.Sharing
import HeldLocks.Proofs.Interchange
import HeldLocks.Proofs.Workshops
import HeldLocks.Proofs.Representation
import HeldLocks.Proofs.Ancestors
import HeldLocks.Proofs.Commits
import HeldLocks.Proofs.RoundTrip
import HeldLocks.Proofs.Grammar
import HeldLocks.Proofs.Lifetimes
import HeldLocks.Proofs.Monotonicity
import HeldLocks.Proofs.Limits
import HeldLocks.Proofs.Sameness
import HeldLocks.Proofs.Precedence
import HeldLocks.Proofs.Shortest
import HeldLocks.Proofs.Transcripts
import HeldLocks.Proofs.Agreement
import HeldLocks.Proofs.Keys
import HeldLocks.Proofs.Accounts
import HeldLocks.Proofs.Concatenation
import HeldLocks.Proofs.Stages
import HeldLocks.Proofs.Restorations
import HeldLocks.Proofs.Legibility
import HeldLocks.Proofs.Counters
import HeldLocks.Proofs.CounterReplays
import HeldLocks.Proofs.CounterReductions
import HeldLocks.Proofs.CounterSessions
import HeldLocks.Proofs.Overflow
import HeldLocks.Proofs.FixedPoints
import HeldLocks.Proofs.ByteOrder
import HeldLocks.Proofs.LockOrder
import HeldLocks.Proofs.Touches
