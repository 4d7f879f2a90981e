import Dataflow.Analysis.Kind
import Dataflow.Analysis.Liveness
import Dataflow.Analysis.MayPointTo
import Dataflow.Analysis.Probe
import Dataflow.Analysis.Reaching
import Dataflow.Analysis.Session
import Dataflow.Codec.Decode
import Dataflow.Codec.Fact
import Dataflow.Codec.Function
import Dataflow.Codec.Result
import Dataflow.Command.Arguments
import Dataflow.Command.Basic
import Dataflow.Command.FileTree
import Dataflow.Decimal
import Dataflow.Dict
import Dataflow.Fact.Cell
import Dataflow.Fact.IndexSet
import Dataflow.Fact.JoinLattice
import Dataflow.Fact.PointsTo
import Dataflow.Fact.Printable
import Dataflow.Graph.Basic
import Dataflow.Graph.BlockGraph
import Dataflow.Graph.Edge
import Dataflow.IR.Complete
import Dataflow.IR.Draft
import Dataflow.IR.Fault
import Dataflow.IR.Function
import Dataflow.IR.Listing
import Dataflow.IR.Opcode
import Dataflow.IR.Operand
import Dataflow.IR.Tally
import Dataflow.IR.Ty
import Dataflow.Json
import Dataflow.Main
import Dataflow.Order
import Dataflow.Proofs.Acceptance
import Dataflow.Proofs.Agenda
import Dataflow.Proofs.BlockGraph
import Dataflow.Proofs.BlockOrder
import Dataflow.Proofs.Completeness
import Dataflow.Proofs.Construction
import Dataflow.Proofs.Convergence
import Dataflow.Proofs.Counting
import Dataflow.Proofs.Dominance
import Dataflow.Proofs.Drafting
import Dataflow.Proofs.Encoding
import Dataflow.Proofs.FactText
import Dataflow.Proofs.Filling
import Dataflow.Proofs.GenKill
import Dataflow.Proofs.Graph
import Dataflow.Proofs.History
import Dataflow.Proofs.Idempotence
import Dataflow.Proofs.InRange
import Dataflow.Proofs.Lattice
import Dataflow.Proofs.Layout
import Dataflow.Proofs.LeastSolution
import Dataflow.Proofs.LineNumbers
import Dataflow.Proofs.Linking
import Dataflow.Proofs.LivenessPaths
import Dataflow.Proofs.Lowering
import Dataflow.Proofs.Modules
import Dataflow.Proofs.Neighbours
import Dataflow.Proofs.Numbering
import Dataflow.Proofs.Operands
import Dataflow.Proofs.Outlets
import Dataflow.Proofs.Padding
import Dataflow.Proofs.PhiPairs
import Dataflow.Proofs.PhiUses
import Dataflow.Proofs.PointerMachine
import Dataflow.Proofs.PointsToFacts
import Dataflow.Proofs.PointsToFlow
import Dataflow.Proofs.PointsToShape
import Dataflow.Proofs.PointsToUpdates
import Dataflow.Proofs.Provenance
import Dataflow.Proofs.QueueOrder
import Dataflow.Proofs.Reachability
import Dataflow.Proofs.ReachingPaths
import Dataflow.Proofs.Regularity
import Dataflow.Proofs.Relabelling
import Dataflow.Proofs.Renumbering
import Dataflow.Proofs.Resolution
import Dataflow.Proofs.Rules
import Dataflow.Proofs.Scanning
import Dataflow.Proofs.Sessions
import Dataflow.Proofs.Spelling
import Dataflow.Proofs.Termination
import Dataflow.Proofs.TransferLaws
import Dataflow.Proofs.TypeText
import Dataflow.Proofs.ValueNames
import Dataflow.Proofs.Verdicts
import Dataflow.Proofs.Visit
import Dataflow.Proofs.Worklist
import Dataflow.Report.Basic
import Dataflow.Report.Config
import Dataflow.Report.Page
import Dataflow.Solver.EdgeStore
import Dataflow.Solver.Engine
import Dataflow.Solver.Flow
import Dataflow.Solver.Result
import Dataflow.Solver.Worklist
import Dataflow.SortedMap
import Dataflow.SortedSet
import Dataflow.Source.Grammar
import Dataflow.Source.Lowering
import Dataflow.Source.Problem
import Dataflow.Source.Reader
import Dataflow.Source.Scan
import Dataflow.Source.Tree
