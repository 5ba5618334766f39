import LatentExpr.Scenario.Run
import LatentExpr.Value.Debug
import LatentExpr.Proofs.Heap.Agreement
import LatentExpr.Proofs.Heap.Growth
import LatentExpr.Proofs.Eval.Timing
import LatentExpr.Proofs.Eval.Passive
import LatentExpr.Proofs.Eval.Parallel
import LatentExpr.Proofs.Eval.Run
import LatentExpr.Proofs.Eval.Foretold
import LatentExpr.Proofs.Eval.Transparency
import LatentExpr.Proofs.Symbols.Longest
import LatentExpr.Proofs.Source.Marks
import LatentExpr.Proofs.Token.Reads
import LatentExpr.Proofs.Token.Requests
import LatentExpr.Proofs.Grammar.Derives
import LatentExpr.Proofs.Grammar.Requests
import LatentExpr.Proofs.Grammar.Soundness
import LatentExpr.Proofs.Grammar.Completeness
import LatentExpr.Proofs.Grammar.WellFormed
import LatentExpr.Proofs.Print.Pieces
import LatentExpr.Proofs.Print.Written
import LatentExpr.Proofs.Print.Rederived
import LatentExpr.Proofs.Print.Unique
import LatentExpr.Proofs.Print.Printed
import LatentExpr.Proofs.Print.RoundTrip
import LatentExpr.Proofs.Token.Tracked
import LatentExpr.Proofs.Engine.Configured
import LatentExpr.Proofs.Eval.Recorded
import LatentExpr.Proofs.Eval.Direct
import LatentExpr.Proofs.Eval.Synchronous
import LatentExpr.Proofs.Eval.Sequential
import LatentExpr.Proofs.Eval.Untimed
import LatentExpr.Proofs.Heap.Bisimilar
import LatentExpr.Proofs.Heap.Structural
import LatentExpr.Proofs.Expr.Throughout
import LatentExpr.Proofs.Eval.Discipline
import LatentExpr.Proofs.Eval.Resolved
import LatentExpr.Proofs.Token.Tables
import LatentExpr.Proofs.Grammar.Admitted
import LatentExpr.Proofs.Eval.Failures
import LatentExpr.Proofs.Engine.History
import LatentExpr.Proofs.Token.Filler
import LatentExpr.Proofs.Token.Partition
import LatentExpr.Proofs.Grammar.Respaced
import LatentExpr.Proofs.Engine.Accepted
import LatentExpr.Proofs.Token.Cuts
import LatentExpr.Proofs.Engine.Tokenizable
import LatentExpr.Proofs.Token.Onward
import LatentExpr.Proofs.Token.Undivided
import LatentExpr.Proofs.Token.Continued
import LatentExpr.Proofs.Grammar.Grouped
import LatentExpr.Proofs.Token.Faulted
import LatentExpr.Proofs.Grammar.Pointed
import LatentExpr.Proofs.Token.Lookahead
import LatentExpr.Proofs.Token.Bytewise
import LatentExpr.Proofs.Token.Boundaries
import LatentExpr.Proofs.Token.Strings
import LatentExpr.Proofs.Number.Nearest
import LatentExpr.Proofs.Number.Digits
import LatentExpr.Proofs.Token.Numerals
import LatentExpr.Proofs.Number.Shortest
import LatentExpr.Proofs.Number.Layout
import LatentExpr.Proofs.Number.RoundTrip
import LatentExpr.Proofs.Heap.Stored
import LatentExpr.Proofs.Heap.Joined
import LatentExpr.Proofs.Heap.Walked
import LatentExpr.Proofs.Heap.Unshared
import LatentExpr.Proofs.Heap.Untracked
import LatentExpr.Proofs.Value.Equalities
import LatentExpr.Proofs.Text.Encoded
import LatentExpr.Proofs.Value.TextOrder
import LatentExpr.Proofs.Value.IndexKeys
import LatentExpr.Proofs.Value.Positions
import LatentExpr.Proofs.Symbols.Canonical
import LatentExpr.Proofs.Symbols.States
import LatentExpr.Proofs.Engine.Replayed
import LatentExpr.Proofs.Number.Clamped
import LatentExpr.Proofs.Value.Slices
import LatentExpr.Proofs.Eval.Reading
import LatentExpr.Proofs.Eval.Literals
import LatentExpr.Proofs.Value.ElementKeys
import LatentExpr.Proofs.Token.Interned
import LatentExpr.Proofs.Grammar.Termination
