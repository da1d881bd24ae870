import BranchAndCut.Document.Benchmark
import BranchAndCut.Document.Plugins
import BranchAndCut.Document.Search
import BranchAndCut.Main
import BranchAndCut.Proofs.Constraint.Fixpoint
import BranchAndCut.Proofs.Linear.Elimination
import BranchAndCut.Proofs.Lp.Crossing
import BranchAndCut.Text.Literal
import BranchAndCut.Proofs.Domain.Following
import BranchAndCut.Proofs.Tree.Children
import BranchAndCut.Proofs.Tree.Coverage
import BranchAndCut.Proofs.Branching.Partition
import BranchAndCut.Proofs.Constraint.Activation
import BranchAndCut.Proofs.Cut.Pool
import BranchAndCut.Proofs.Order
import BranchAndCut.Proofs.Model.Building
import BranchAndCut.Proofs.Relaxation.Contents
import BranchAndCut.Proofs.Solve.Columns
import BranchAndCut.Proofs.Solve.Counts
import BranchAndCut.Proofs.Solve.NodeRounds
import BranchAndCut.Proofs.Solve.Nodes
import BranchAndCut.Proofs.Solve.Acceptance
import BranchAndCut.Proofs.Solve.Enforcement
import BranchAndCut.Proofs.Solve.Probed
import BranchAndCut.Proofs.Solve.Processing
import BranchAndCut.Proofs.Solve.Splitting
import BranchAndCut.Proofs.Solve.Watch
import BranchAndCut.Proofs.Tree.HeapOrder
import BranchAndCut.Proofs.Tree.HeapSizes
import BranchAndCut.Proofs.Tree.History
import BranchAndCut.Proofs.Tree.OpenSet
import BranchAndCut.Proofs.Tree.Selection
import BranchAndCut.Proofs.Solve.Descent
import BranchAndCut.Proofs.Solve.FiniteTree
import BranchAndCut.Proofs.Solve.Protocol
import BranchAndCut.Proofs.Model.Partitions
import BranchAndCut.Proofs.Model.Refusal
import BranchAndCut.Proofs.Retention.Run
import BranchAndCut.Proofs.Domain.Saving
import BranchAndCut.Proofs.Constraint.Settling
import BranchAndCut.Proofs.Row
import BranchAndCut.Proofs.Constraint.Lock
import BranchAndCut.Proofs.Constraint.Closing
import BranchAndCut.Proofs.Model.Assembly
import BranchAndCut.Proofs.Cut.Gomory
import BranchAndCut.Proofs.Solve.Rounding
import BranchAndCut.Proofs.Solve.Decided
import BranchAndCut.Proofs.Solve.Walk
import BranchAndCut.Proofs.Relaxation.History
import BranchAndCut.Proofs.Relaxation.Calls
import BranchAndCut.Proofs.Relaxation.WarmStart
import BranchAndCut.Proofs.Tree.Refusal
import BranchAndCut.Proofs.Solve.Permanence
import BranchAndCut.Proofs.Cut.Bookkeeping
import BranchAndCut.Proofs.Cut.Parallel
import BranchAndCut.Proofs.Solve.Reordering
import BranchAndCut.Proofs.Lp.Freshness
import BranchAndCut.Proofs.Linear.Products
import BranchAndCut.Proofs.Benchmark.Families
