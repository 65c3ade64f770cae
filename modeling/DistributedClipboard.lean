import DistributedClipboard.Thread.Sections
import DistributedClipboard.Mem.Linearizable
import DistributedClipboard.Mem.Shutdown
import DistributedClipboard.Mem.Waiters
import DistributedClipboard.Interfaces.Tables
import DistributedClipboard.Lib.Mutex
import DistributedClipboard.Interfaces.ClipSlave
import DistributedClipboard.Interfaces.ClipTable
import DistributedClipboard.Interfaces.AppTable
import DistributedClipboard.Interfaces.Connections
import DistributedClipboard.Interfaces.ClipChanges
import DistributedClipboard.Interfaces.Search
import DistributedClipboard.Interfaces.LinkCodec
import DistributedClipboard.Lib.Frames
import DistributedClipboard.Interfaces.Links
import DistributedClipboard.Interfaces.WholeFrames
import DistributedClipboard.Interfaces.Role
import DistributedClipboard.Interfaces.RootOrChild
import DistributedClipboard.Interfaces.Origins
import DistributedClipboard.Lib.Tree
import DistributedClipboard.Network.Flood
import DistributedClipboard.Network.Conservation
import DistributedClipboard.Network.Routes
import DistributedClipboard.Network.Delivery
import DistributedClipboard.Lib.Precedence
import DistributedClipboard.Network.Ties
import DistributedClipboard.Network.Convergence
import DistributedClipboard.Lib.Stream
import DistributedClipboard.Interfaces.AppSlave
import DistributedClipboard.Library.ClientApi
import DistributedClipboard.Interfaces.AppSession
import DistributedClipboard.Lib.Linked
import DistributedClipboard.Thread.Queue
import DistributedClipboard.Thread.QueueLocks
import DistributedClipboard.Thread.QueueMemory
import DistributedClipboard.Thread.QueueFifo
import DistributedClipboard.Thread.QueueReject
import DistributedClipboard.Lib.Discipline
import DistributedClipboard.Interfaces.Cleanup
import DistributedClipboard.Interfaces.CleanupLedger
import DistributedClipboard.Interfaces.CleanupRuns
import DistributedClipboard.Interfaces.Teardown
import DistributedClipboard.Lib.Ownership
import DistributedClipboard.Interfaces.Broadcasts
import DistributedClipboard.Interfaces.BroadcastSteps
import DistributedClipboard.Interfaces.BroadcastHeap
import DistributedClipboard.Interfaces.FrozenPackets
import DistributedClipboard.Interfaces.LastGoodbye
import DistributedClipboard.Lib.Descriptors
import DistributedClipboard.Daemon.Main
import DistributedClipboard.Daemon.MainSteps
import DistributedClipboard.Daemon.TableCloses
import DistributedClipboard.Daemon.Descriptors
import DistributedClipboard.Daemon.DescriptorSteps
import DistributedClipboard.Daemon.ClosedOnce
import DistributedClipboard.Lib.Latest
import DistributedClipboard.Mem.Puts
import DistributedClipboard.Mem.Representation
import DistributedClipboard.Utils.ShortReads
import DistributedClipboard.Library.ClientReads
import DistributedClipboard.Library.ClientCopies
import DistributedClipboard.Lib.Turns
import DistributedClipboard.Interfaces.AppBuffers
import DistributedClipboard.Interfaces.AppTurns
import DistributedClipboard.Interfaces.ClipBuffers
import DistributedClipboard.Interfaces.FrameBoundaries
import DistributedClipboard.Interfaces.ServedRequests
import DistributedClipboard.Interfaces.ExactLengths
import DistributedClipboard.Utils.Time
import DistributedClipboard.Interfaces.LocalCopies
import DistributedClipboard.Thread.SectionRuns
import DistributedClipboard.Thread.QueueWakeups
import DistributedClipboard.Network.ClockSkew
import DistributedClipboard.Lib.Ledger
import DistributedClipboard.Interfaces.AppCalls
import DistributedClipboard.Interfaces.RequestBuffers
import DistributedClipboard.Interfaces.RequestTurns
import DistributedClipboard.Interfaces.ReleasedOnce
import DistributedClipboard.Lib.Termination
import DistributedClipboard.Network.Quiescence
import DistributedClipboard.Network.Pastes
import DistributedClipboard.Mem.TornCounts
import DistributedClipboard.Mem.Sleepers
import DistributedClipboard.Lib.Heap
import DistributedClipboard.Thread.QueueNodes
import DistributedClipboard.Interfaces.Settling
import DistributedClipboard.Mem.Blocks
import DistributedClipboard.Lib.LockOrder
import DistributedClipboard.Interfaces.ShutdownRuns
import DistributedClipboard.Library.ClientWaits
import DistributedClipboard.Lib.Rooted
import DistributedClipboard.Network.BrokenLinks
import DistributedClipboard.Network.SyncWaves
import DistributedClipboard.Network.LastCopy
import DistributedClipboard.Network.Handshake
import DistributedClipboard.Interfaces.AnyBytes
import DistributedClipboard.Thread.Overtaking
import DistributedClipboard.Daemon.Arguments
import DistributedClipboard.Network.Joining
import DistributedClipboard.Lib.Simulation
import DistributedClipboard.Lib.Reading
import DistributedClipboard.Network.Bytes
import DistributedClipboard.Network.BytesRefinement
import DistributedClipboard.Network.BytesSettling
