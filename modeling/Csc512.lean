import Csc512.Lib.ObservedSystem
import Csc512.Lib.Voting
import Csc512.Lib.Dict
import Csc512.Lib.RunTable
import Csc512.Lib.Text
import Csc512.Lib.Double
import Csc512.Lib.Json
import Csc512.Lib.Exec
import Csc512.Lib.Pattern
import Csc512.Lib.Braced
import Csc512.Raft.Server
import Csc512.Raft.Cluster
import Csc512.Raft.VoteDiscipline
import Csc512.Raft.ElectionSafety
import Csc512.Cdup.Ir
import Csc512.Cdup.CodeSegs
import Csc512.Cdup.BlockDecomposition
import Csc512.Cdup.Statements
import Csc512.Cdup.SplitExact
import Csc512.Cdup.BraceScan
import Csc512.Cdup.SourcePlaces
import Csc512.Cdup.Normalize
import Csc512.Cdup.Classify
import Csc512.Cdup.ExprParser
import Csc512.Cdup.ParseFile
import Csc512.Cdup.HeaderAttribution
import Csc512.Cdup.Flatten
import Csc512.Cdup.CloneScan
import Csc512.Cdup.PyValue
import Csc512.Cdup.SegmentTree
import Csc512.Cdup.VmState
import Csc512.Cdup.Kernel
import Csc512.Cdup.Control
import Csc512.Cdup.VmEval
import Csc512.Cdup.Vm
import Csc512.Cdup.BranchChain
import Csc512.Cdup.Matrix
import Csc512.Cdup.Pairing
import Csc512.Cdup.Dag
import Csc512.Cdup.StatementRows
import Csc512.Cdup.VmQuiet
import Csc512.Cdup.VmCongruence
import Csc512.Cdup.InterpCongruence
import Csc512.Cdup.UnrollLimit
import Csc512.Cdup.StackAddresses
import Csc512.Cdup.Termination
import Csc512.Cdup.CloneClasses
import Csc512.Cdup.ClonePlaces
import Csc512.Lib.Cover
import Csc512.Cdup.CloneReport
import Csc512.Cdup.CloneFilters
import Csc512.Cdup.CombinedTypes
import Csc512.Cdup.Merge
import Csc512.Cdup.Type2Forms
import Csc512.Cdup.AssignParsers
import Csc512.Cdup.Unbalanced
import Csc512.Cdup.ExactStructural
import Csc512.Cdup.JavaGenerics
import Csc512.Cdup.BlockText
import Csc512.Cdup.Expansion
import Csc512.Cdup.BlockTypes
import Csc512.Cdup.ExactClones
import Csc512.Toolkit.Report
import Csc512.Cdup.NearMiss
import Csc512.Cdup.NearMissFilters
import Csc512.Cdup.NearMissClusters
import Csc512.Cdup.NearMissClasses
import Csc512.Lib.TupleText
import Csc512.Cdup.SemanticClones
import Csc512.Cdup.BlockTrees
import Csc512.Cdup.ExternalValues
import Csc512.Cdup.CleanText
import Csc512.Lib.OpenBlocks
import Csc512.Cdup.StatementCuts
import Csc512.Cdup.Comments
import Csc512.Toolkit.Accounting
import Csc512.Toolkit.MemoryForensics
import Csc512.Toolkit.FalsePositives
import Csc512.Chaos.Metrics
import Csc512.Chaos.Report
import Csc512.Raft.TermDiscipline
import Csc512.Cdup.HeapBlocks
import Csc512.Cdup.ExprPrinter
import Csc512.Cdup.ExprRoundTrip
import Csc512.Comments.Extractor
import Csc512.Comments.LineCount
import Csc512.Comments.Lexing
import Csc512.Cdup.KernelAgreement
import Csc512.Cdup.ScopePaths
import Csc512.Cdup.KernelDivision
import Csc512.Cdup.HeapRoom
import Csc512.Cdup.ShortCircuit
import Csc512.Cdup.PrefixOperators
import Csc512.Cdup.BackEdges
import Csc512.Cdup.ArrayCells
import Csc512.Cdup.ForLoops
import Csc512.Cdup.Stores
import Csc512.Cdup.StringBuiltins
import Csc512.Cdup.Printf
import Csc512.Cdup.Declarations
import Csc512.Cdup.NumericLiterals
import Csc512.Cdup.CapWarning
import Csc512.Cdup.Switch
import Csc512.Cdup.TypedefStructs
import Csc512.Cdup.Calls
import Csc512.Cdup.FrameCongruence
import Csc512.Cdup.CallText
import Csc512.Comments.Merging
import Csc512.Comments.Positions
import Csc512.Comments.Scoring
import Csc512.Cdup.BraceLists
import Csc512.Cdup.SlotResolution
import Csc512.Chaos.ReportErrors
import Csc512.Raft.Campaigns
import Csc512.Raft.Messages
import Csc512.Raft.Progress
import Csc512.Lib.JsonWriter
import Csc512.Cdup.IrJson
import Csc512.Cdup.SemanticClasses
import Csc512.Cdup.MergedMatrix
import Csc512.Cdup.DefUse
import Csc512.Cdup.VmGrowth
import Csc512.Raft.OverNetwork
import Csc512.Raft.Restarts
import Csc512.Raft.Realized
