import TldrCode.Gvn.Sound
import TldrCode.Dfg.ReachingBitvec
import TldrCode.Dfg.BlockOrder
import TldrCode.Alias.Extraction
import TldrCode.Alias.Termination
import TldrCode.Alias.MustAlias
import TldrCode.Octagon.Incremental
import TldrCode.Octagon.Lattice
import TldrCode.Octagon.Saturating
import TldrCode.Octagon.Assign
import TldrCode.Octagon.Guard
import TldrCode.Octagon.Tight
import TldrCode.Dataflow.Redundant
import TldrCode.Dataflow.Widening
import TldrCode.Dataflow.Guard
import TldrCode.Store.Generations
import TldrCode.Store.FunctionArtifacts
import TldrCode.Store.Snapshots
import TldrCode.Daemon.SearchIndex
import TldrCode.Daemon.WarmBuild
import TldrCode.Semantic.Publication
import TldrCode.Semantic.VectorFiles
import TldrCode.Callgraph.Serialization
import TldrCode.Security.TaintFlows
import TldrCode.Ssa.DeadCodeExact
import TldrCode.Store.Impact
import TldrCode.Security.FlowPaths
import TldrCode.Security.SsaChains
import TldrCode.Ssa.OverwrittenStores
import TldrCode.Callgraph.ConcurrentInterner
import TldrCode.Dfg.Uninitialized
import TldrCode.Ssa.ValueNumbersSound
import TldrCode.Dataflow.DivZero
import TldrCode.Dataflow.ExpressionSlices
import TldrCode.Ssa.AvailableExpressionsSound
import TldrCode.Daemon.Watcher
import TldrCode.Gvn.KeyOrder
import TldrCode.Daemon.HotCacheIndex
import TldrCode.Store.Components
import TldrCode.Store.SingleFlight
import TldrCode.Semantic.Atomicity
import TldrCode.Semantic.FixedShape
import TldrCode.Semantic.Reconciliation
import TldrCode.Semantic.StructuralPlanner
import TldrCode.Clones.RollingHash
import TldrCode.Clones.Classes
import TldrCode.Clones.Labels
import TldrCode.Clones.Candidates
import TldrCode.Semantic.EmbeddingCodec
import TldrCode.Semantic.StreamingBuild
import TldrCode.Analysis.DepCycles
import TldrCode.Analysis.PageRank
import TldrCode.Ssa.MemoryQueries
import TldrCode.Pdg.Chop
import TldrCode.Inheritance.Patterns
