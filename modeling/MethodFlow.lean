import MethodFlow.Body.Assembler
import MethodFlow.Body.Basic
import MethodFlow.Body.Instruction
import MethodFlow.Body.Region
import MethodFlow.Body.Variable
import MethodFlow.Calls.Build
import MethodFlow.Calls.Graph
import MethodFlow.Cfg.Basic
import MethodFlow.Cfg.Build
import MethodFlow.Config
import MethodFlow.Data.BitSet
import MethodFlow.Data.Ordered
import MethodFlow.Data.SortedMap
import MethodFlow.Data.SortedSet
import MethodFlow.Error
import MethodFlow.Flow.Analysis
import MethodFlow.Flow.Copies
import MethodFlow.Flow.Liveness
import MethodFlow.Flow.Types
import MethodFlow.Graph.Digraph
import MethodFlow.Graph.Dominators
import MethodFlow.Graph.Loops
import MethodFlow.Graph.Order
import MethodFlow.Graph.Search
import MethodFlow.Graph.View
import MethodFlow.Heap.Graph
import MethodFlow.Heap.Object
import MethodFlow.Heap.PointsTo
import MethodFlow.Hierarchy
import MethodFlow.Info
import MethodFlow.Log
import MethodFlow.Model.MethodRef
import MethodFlow.Model.Universe
import MethodFlow.Proofs.Data.Folds
import MethodFlow.Proofs.Graph.Digraph
import MethodFlow.Proofs.Graph.Search
import MethodFlow.Proofs.Graph.Worklists
import MethodFlow.Report
import MethodFlow.Ssa.Build
import MethodFlow.Ssa.Form
import MethodFlow.Text.CodeRanges
import MethodFlow.Text.ExtendingMark
import MethodFlow.Text.Invisible
import MethodFlow.Text.Label
import MethodFlow.Text.Quoted
import MethodFlow.Text.Unassigned
import MethodFlow.Proofs.Graph.Paths
import MethodFlow.Proofs.Graph.Dominance
import MethodFlow.Proofs.Cfg.Layout
import MethodFlow.Proofs.Cfg.Acceptance
import MethodFlow.Proofs.Cfg.Runs
import MethodFlow.Proofs.Graph.DominatorTree
import MethodFlow.Proofs.Ssa.Environments
import MethodFlow.Proofs.Ssa.Steps
import MethodFlow.Proofs.Ssa.Construction
import MethodFlow.Proofs.Ssa.Turns
import MethodFlow.Proofs.Ssa.Meaning
import MethodFlow.Proofs.Graph.Order
import MethodFlow.Proofs.Flow.Passes
import MethodFlow.Proofs.Flow.Ascent
import MethodFlow.Proofs.Flow.CopyConvergence
import MethodFlow.Proofs.Flow.Widening
import MethodFlow.Proofs.Flow.TypeConvergence
import MethodFlow.Proofs.Cfg.Executions
import MethodFlow.Proofs.Flow.CopySoundness
import MethodFlow.Proofs.Cfg.Handlers
import MethodFlow.Proofs.Flow.CopyHandlers
import MethodFlow.Proofs.Flow.Carried
import MethodFlow.Proofs.Heap.Graph
import MethodFlow.Proofs.Heap.Sites
import MethodFlow.Proofs.Heap.Soundness
import MethodFlow.Proofs.Heap.Aliases
import MethodFlow.Proofs.Heap.Integrity
import MethodFlow.Proofs.Flow.Growth
import MethodFlow.Proofs.Heap.Monotone
import MethodFlow.Proofs.Heap.Failures
import MethodFlow.Proofs.Heap.Convergence
import MethodFlow.Proofs.Heap.Unions
import MethodFlow.Proofs.Heap.Edits
import MethodFlow.Proofs.Ssa.Phis
import MethodFlow.Proofs.Ssa.SingleAssignment
import MethodFlow.Proofs.Calls.Closure
import MethodFlow.Proofs.Calls.Links
import MethodFlow.Proofs.Calls.Traversal
import MethodFlow.Proofs.Flow.TypeSoundness
import MethodFlow.Proofs.Cfg.Blocks
import MethodFlow.Proofs.Cfg.Edges
import MethodFlow.Proofs.Graph.Ancestors
import MethodFlow.Proofs.Graph.Frontiers
import MethodFlow.Proofs.Graph.FrontierSearch
import MethodFlow.Proofs.Graph.Converging
import MethodFlow.Proofs.Graph.Joins
import MethodFlow.Proofs.Ssa.Placement
import MethodFlow.Proofs.Cfg.Loops
import MethodFlow.Proofs.Cfg.LoopForest
import MethodFlow.Proofs.Cfg.LoopSearch
import MethodFlow.Proofs.Cfg.LoopNesting
import MethodFlow.Proofs.Graph.Inversions
import MethodFlow.Proofs.Cfg.Orders
import MethodFlow.Proofs.Graph.DepthFirst
import MethodFlow.Proofs.Hierarchy.Subtypes
import MethodFlow.Proofs.Calls.Dispatch
import MethodFlow.Proofs.Flow.CommonSupertypes
import MethodFlow.Proofs.Flow.JoinOrder
import MethodFlow.Proofs.Flow.CopyPrecision
import MethodFlow.Proofs.Ssa.DefUse
import MethodFlow.Proofs.Body.Labels
import MethodFlow.Proofs.Graph.Histories
import MethodFlow.Proofs.Model.WrittenForm
import MethodFlow.Proofs.Body.Patching
import MethodFlow.Proofs.Data.FiniteSets
import MethodFlow.Proofs.Data.PackedWords
import MethodFlow.Proofs.Data.PackedSets
import MethodFlow.Proofs.Flow.CopyChains
