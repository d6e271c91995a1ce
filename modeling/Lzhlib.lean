import Lzhlib.Programs
import Lzhlib.Runs
import Lzhlib.Rings
import Lzhlib.Machine
import Lzhlib.IndexedList
import Lzhlib.ListUpdates
import Lzhlib.FormList
import Lzhlib.ListFamily
import Lzhlib.ListRuns
import Lzhlib.ValueRepo
import Lzhlib.ObjectPool
import Lzhlib.RepoRings
import Lzhlib.RepoRefinement
import Lzhlib.RepoRuns
import Lzhlib.RepoTraversal
import Lzhlib.DeadIds
import Lzhlib.RepoValues
import Lzhlib.Bracketings
import Lzhlib.ResolveMult
import Lzhlib.ChainProducts
import Lzhlib.ProductExpressions
import Lzhlib.KeyedSets
import Lzhlib.SearchTrees
import Lzhlib.RepoMaps
import Lzhlib.GraphRecords
import Lzhlib.UndirectedGraph
import Lzhlib.GraphMaps
import Lzhlib.Incidence
import Lzhlib.UndirectedEffects
import Lzhlib.UndirectedRuns
import Lzhlib.Dangling
import Lzhlib.DirectedRuns
import Lzhlib.Interleaving
import Lzhlib.Segments
import Lzhlib.Custody
import Lzhlib.ThreadQueue
import Lzhlib.QueueLocks
import Lzhlib.QueueChain
import Lzhlib.QueueClose
import Lzhlib.QueueHistory
import Lzhlib.QueueWakeups
import Lzhlib.PushWakeups
import Lzhlib.ThreadPool
import Lzhlib.PoolRoles
import Lzhlib.PoolShutdown
import Lzhlib.PoolHistory
import Lzhlib.PoolDrain
import Lzhlib.OutIncidence
import Lzhlib.Adjacency
import Lzhlib.AddEdgeFailure
import Lzhlib.UndirectedRemovals
import Lzhlib.SelfLoops
import Lzhlib.MixedTypes
import Lzhlib.Decimals
import Lzhlib.PredefinedReaders
import Lzhlib.DynamicReader
import Lzhlib.ReaderRuns
import Lzhlib.IntegerLiterals
import Lzhlib.QuotedStrings
import Lzhlib.ReaderCopies
import Lzhlib.RepoGrowth
import Lzhlib.PresizedRepos
import Lzhlib.SplitTables
import Lzhlib.ParallelEdges
import Lzhlib.TextStreams
import Lzhlib.EdgeStreams
import Lzhlib.RepoStreams
import Lzhlib.Linearizability
import Lzhlib.QueueLinear
import Lzhlib.QueueProgress
import Lzhlib.PoolProgress
import Lzhlib.Ownership
import Lzhlib.QueueMemory
import Lzhlib.Settling
import Lzhlib.PoolContents
import Lzhlib.GraphCalls
import Lzhlib.Multigraphs
import Lzhlib.GraphRefinement
import Lzhlib.GraphSimulation
import Lzhlib.DegreeSums
import Lzhlib.RepoWalks
import Lzhlib.PackagedTasks
import Lzhlib.PoolFutures
import Lzhlib.DataRaces
import Lzhlib.Overtaking
import Lzhlib.PoolOrder
import Lzhlib.Deadlocks
import Lzhlib.PoolWaiting
import Lzhlib.BoundedChains
import Lzhlib.TypedColumns
import Lzhlib.RepoCursors
import Lzhlib.ListInterface
