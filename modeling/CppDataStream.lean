import CppDataStream.Library.Streams
import CppDataStream.Library.Digraph
import CppDataStream.Library.Paths
import CppDataStream.Library.Transitions
import CppDataStream.Library.Rounding
import CppDataStream.Library.Linearizability
import CppDataStream.Library.BoundedQueue
import CppDataStream.Library.Masks
import CppDataStream.Library.Ring
import CppDataStream.Library.SharedOwnership
import CppDataStream.Library.CountedHeap
import CppDataStream.Block
import CppDataStream.BlockHeap
import CppDataStream.Graph
import CppDataStream.Sync.Visitor
import CppDataStream.Sync.PushData
import CppDataStream.Sync.Calls
import CppDataStream.Sync.Compose
import CppDataStream.Sync.FanIn
import CppDataStream.Sync.Flood
import CppDataStream.Sync.EndOfProcessing
import CppDataStream.Sync.Chain
import CppDataStream.Threaded.Machine
import CppDataStream.Threaded.Confinement
import CppDataStream.Threaded.Stacks
import CppDataStream.Threaded.History
import CppDataStream.Threaded.Element
import CppDataStream.Threaded.Conservation
import CppDataStream.Threaded.Measure
import CppDataStream.Threaded.Progress
import CppDataStream.Threaded.Tree
import CppDataStream.Threaded.Refinement
import CppDataStream.Threaded.Deadlock
import CppDataStream.Threaded.Guard
import CppDataStream.Moodycamel.LightweightSemaphore
import CppDataStream.Moodycamel.CircularBuffer
import CppDataStream.Moodycamel.Invariant
import CppDataStream.Moodycamel.BoundedFifo
import CppDataStream.Moodycamel.Progress
import CppDataStream.Threaded.Queued
import CppDataStream.Threaded.QueuedSimulation
import CppDataStream.Threaded.QueuedProgress
import CppDataStream.Threaded.Application
import CppDataStream.Threaded.QueuedApplication
import CppDataStream.Threaded.Chains
import CppDataStream.Threaded.Backlog
import CppDataStream.Common.Utilities
import CppDataStream.Examples.Source
import CppDataStream.Examples.Elements
import CppDataStream.Examples.SourceMain
import CppDataStream.Examples.SimpleMain
import CppDataStream.Examples.QueuedMains
