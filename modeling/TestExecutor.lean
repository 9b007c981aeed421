import TestExecutor.Library.LittleEndian
import TestExecutor.Library.OrderedMap
import TestExecutor.Library.Dictionary
import TestExecutor.Library.Utf16
import TestExecutor.Library.ByteReader
import TestExecutor.IL.OpcodeTable
import TestExecutor.Profiler.State
import TestExecutor.Profiler.CoverageTracker
import TestExecutor.Profiler.ThreadTracker
import TestExecutor.Profiler.Probes
import TestExecutor.Profiler.FrameBalance
import TestExecutor.Profiler.ExceptionBalance
import TestExecutor.Profiler.Abort
import TestExecutor.Profiler.NestedUnwinding
import TestExecutor.Profiler.Instrumenter
import TestExecutor.Profiler.EntryMethod
import TestExecutor.Profiler.Interleaving
import TestExecutor.Profiler.Rounds
import TestExecutor.Coverage.Deserializer
import TestExecutor.Coverage.RoundTrip
import TestExecutor.Library.NodeList
import TestExecutor.Library.Forall2
import TestExecutor.Library.HashSet
import TestExecutor.Library.Runs
import TestExecutor.Profiler.Shutdown
import TestExecutor.Profiler.JitRequests
import TestExecutor.Profiler.Steps
import TestExecutor.Profiler.ClearedHistory
import TestExecutor.Profiler.Mutexes
import TestExecutor.Profiler.Delivery
import TestExecutor.Profiler.MethodTable
import TestExecutor.Profiler.ReportClosure
import TestExecutor.Profiler.Recorded
import TestExecutor.Profiler.Reported
import TestExecutor.IL.IlCode
import TestExecutor.Rewriter.ILInstr
import TestExecutor.Rewriter.Import
import TestExecutor.IL.MethodInstrBuilder
import TestExecutor.IL.DecoderAgreement
import TestExecutor.IL.MethodBody
import TestExecutor.IL.ControlFlow
import TestExecutor.IL.Cfg
import TestExecutor.IL.CfgInvariant
import TestExecutor.IL.CfgWalk
import TestExecutor.IL.CfgDfs
import TestExecutor.IL.CfgExact
import TestExecutor.IL.CallSites
import TestExecutor.Rewriter.Export
import TestExecutor.Rewriter.ExportLayout
import TestExecutor.Rewriter.ReadBack
import TestExecutor.Rewriter.Edits
import TestExecutor.Rewriter.ExportRoundTrip
import TestExecutor.Rewriter.RewriteIL
import TestExecutor.Rewriter.Insertions
import TestExecutor.Rewriter.Scan
import TestExecutor.Rewriter.OwnProbes
import TestExecutor.Rewriter.Placement
import TestExecutor.Rewriter.Rewritten
import TestExecutor.Rewriter.Imported
import TestExecutor.Rewriter.Annotation
import TestExecutor.Rewriter.Groups
import TestExecutor.Rewriter.DanglingTargets
import TestExecutor.Rewriter.Successors
import TestExecutor.Profiler.Assertions
import TestExecutor.Rewriter.ProbeOffsets
import TestExecutor.Rewriter.Unmodified
import TestExecutor.Rewriter.Exported
import TestExecutor.Rewriter.RewrittenBody
import TestExecutor.Rewriter.RegionLayout
import TestExecutor.Rewriter.ExceptionRegions
import TestExecutor.Rewriter.StackGrowth
import TestExecutor.Rewriter.StackTotal
import TestExecutor.Rewriter.StackDepth
import TestExecutor.Rewriter.MaxStack
import TestExecutor.Library.Bisimulation
import TestExecutor.Core.ObjectGraph
import TestExecutor.Core.ObjectsComparer
import TestExecutor.Core.ComparerRuns
import TestExecutor.Core.ComparisonWalk
import TestExecutor.Core.DefaultEquality
import TestExecutor.Core.GraphEquality
import TestExecutor.Core.UserEquality
import TestExecutor.Core.InheritedFields
import TestExecutor.Library.Memo
import TestExecutor.Core.TypesCache
import TestExecutor.Library.BlockCopy
import TestExecutor.Core.ValueBytes
import TestExecutor.Core.GenericStructs
import TestExecutor.Core.Reinterpret
import TestExecutor.Coverage.FastDecoding
import TestExecutor.Library.ReaderPrefix
import TestExecutor.Coverage.Truncated
import TestExecutor.Library.Walks
import TestExecutor.Library.BreadthFirst
import TestExecutor.Library.Loops
import TestExecutor.Utils.GraphUtils
import TestExecutor.Utils.CachedSearch
import TestExecutor.Utils.Floyd
import TestExecutor.Core.TestResolver
import TestExecutor.Library.Matching
import TestExecutor.Core.DescribedHeap
import TestExecutor.Core.ResolvedHeap
import TestExecutor.Core.CachedResolver
import TestExecutor.Library.DepthFirst
import TestExecutor.IL.LoopEntries
import TestExecutor.IL.BlockLookup
import TestExecutor.Rewriter.Layouts
import TestExecutor.Rewriter.ExportStores
import TestExecutor.Rewriter.BufferContents
import TestExecutor.Library.LinkedRings
import TestExecutor.Rewriter.NodeHeap
import TestExecutor.Library.Outcomes
import TestExecutor.Rewriter.Failures
import TestExecutor.Profiler.InstrumentFailures
import TestExecutor.Rewriter.ListRuns
import TestExecutor.Rewriter.Simulation
import TestExecutor.Rewriter.Preserved
import TestExecutor.Rewriter.PathBalance
import TestExecutor.Rewriter.CallOffsets
import TestExecutor.Rewriter.BlockProbes
import TestExecutor.Library.Doubles
import TestExecutor.Coverage.CoverageTool
import TestExecutor.IL.GraphQueries
import TestExecutor.Coverage.CoveredBlocks
import TestExecutor.Coverage.CoverageShare
import TestExecutor.Coverage.LocatedCalls
import TestExecutor.Coverage.VisitedBlocks
import TestExecutor.Utils.MethodCache
import TestExecutor.Library.Interleaved
import TestExecutor.Coverage.SharedCursor
import TestExecutor.Core.ConcreteExecutorService
import TestExecutor.Coverage.CoverageOfRuns
import TestExecutor.Coverage.ReportedRuns
import TestExecutor.IL.FinalStarts
import TestExecutor.Coverage.CountedBlocks
import TestExecutor.IL.Sinks
