import FindBoundary.Gossip
import FindBoundary.Builder
import FindBoundary.Invariant
import FindBoundary.Merge
import FindBoundary.Quotient
import FindBoundary.HashOrder
import FindBoundary.Interchange
import FindBoundary.Fixpoint
import FindBoundary.LiveLoop
import FindBoundary.Iterators
import FindBoundary.Attribution
import FindBoundary.Bodies
import FindBoundary.Descent
import FindBoundary.Outcome
import FindBoundary.Main
import FindBoundary.Termination
import FindBoundary.Faults
import FindBoundary.Names
import FindBoundary.Classification
import FindBoundary.Callees
import FindBoundary.Margin
import FindBoundary.Dot
import FindBoundary.RootCaller
import FindBoundary.Report
import FindBoundary.RootTable
import FindBoundary.Pieces
import FindBoundary.Directories
import FindBoundary.Writes
import FindBoundary.SavedAsts
import FindBoundary.Footprint
import FindBoundary.View
import FindBoundary.Commute
import FindBoundary.Sites
import FindBoundary.Messages
import FindBoundary.Recorded
import FindBoundary.Lifetime
import FindBoundary.Lines
import FindBoundary.Printing
import FindBoundary.Nesting
import FindBoundary.Tool
import FindBoundary.EndToEnd
import FindBoundary.Growth
import FindBoundary.Dump
import FindBoundary.Unfolding
import FindBoundary.Traverse
import FindBoundary.DotText
import FindBoundary.Uncalled
import FindBoundary.Unused
