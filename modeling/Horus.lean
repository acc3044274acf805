import Horus.Config.Accepted
import Horus.FlowGroup.Assign
import Horus.FlowGroup.Migrate
import Horus.FlowGroup.Model
import Horus.FlowGroup.Packets
import Horus.FlowGroup.Target
import Horus.FlowGroup.Timeout
import Horus.FlowGroup.Timers
import Horus.Handshake.Batch
import Horus.Handshake.Model
import Horus.Handshake.Run
import Horus.Handshake.Safety
import Horus.Handshake.Trace
import Horus.Handshake.Worker
import Horus.Lib.Calls
import Horus.Lib.DList
import Horus.Lib.Deferred
import Horus.Lib.EndAround
import Horus.Lib.Exclusive
import Horus.Lib.FirstMax
import Horus.Lib.HList
import Horus.Lib.History
import Horus.Lib.LinkedList
import Horus.Lib.LinkedQueue
import Horus.Lib.Ownership
import Horus.Lib.Packed
import Horus.Lib.Paths
import Horus.Lib.Reassembly
import Horus.Lib.Ring
import Horus.Lib.SharedMemory
import Horus.Lib.SortedLists
import Horus.Lib.Transition
import Horus.Libix.Recv
import Horus.Libix.Send
import Horus.Net.Chksum
import Horus.Net.Parse
import Horus.Net.Recv
import Horus.Net.Rounds
import Horus.Net.Send
import Horus.Nic.Descriptor
import Horus.Nic.Reclaim
import Horus.Nic.RxRing
import Horus.Nic.RxRun
import Horus.Nic.SamePacket
import Horus.Nic.TxDrivers
import Horus.Nic.TxRing
import Horus.Nic.TxRun
import Horus.Page.Disjoint
import Horus.Page.Mmap
import Horus.Page.Model
import Horus.Pool.Cache
import Horus.Pool.Calls
import Horus.Pool.Conservation
import Horus.Pool.Create
import Horus.Pool.Layout
import Horus.Pool.Lists
import Horus.Pool.Model
import Horus.Pool.Refinement
import Horus.Pool.Single
import Horus.Preemptive.Accounts
import Horus.Preemptive.Control
import Horus.Preemptive.Life
import Horus.Preemptive.Model
import Horus.Preemptive.Slo
import Horus.Preemptive.Tasks
import Horus.Rq.Batch
import Horus.Rq.Mbufs
import Horus.Rq.Model
import Horus.Rq.Reassembly
import Horus.Rq.Refinement
import Horus.Rq.Routing
import Horus.Rq.RxQueue
import Horus.Rq.Sized
import Horus.Search.Bounds
import Horus.Search.Header
import Horus.Search.Index
import Horus.Search.Intersection
import Horus.Search.Model
import Horus.Search.Query
import Horus.Search.Result
import Horus.Server.Conservation
import Horus.Server.Frqueue
import Horus.Server.IdleSignal
import Horus.Server.LeafView
import Horus.Server.Mailbox
import Horus.Server.Memory
import Horus.Server.Model
import Horus.Server.Places
import Horus.Server.Pools
import Horus.Server.QueueLength
import Horus.Server.Stacks
import Horus.Server.TaskCells
import Horus.Server.TaskQueues
import Horus.Timer.Cancel
import Horus.Timer.Clock
import Horus.Timer.Deadline
import Horus.Timer.DeadlineRun
import Horus.Timer.Early
import Horus.Timer.FlowGroup
import Horus.Timer.Invokes
import Horus.Timer.Lost
import Horus.Timer.Migrate
import Horus.Timer.Run
import Horus.Timer.Steps
import Horus.Timer.User
import Horus.Timer.Wheel
import Horus.Transmit.Arp
import Horus.Transmit.Bookkeeping
import Horus.Transmit.Lengths
import Horus.Transmit.Locks
import Horus.Transmit.Lookup
import Horus.Transmit.Model
import Horus.Transmit.Moves
import Horus.Transmit.Outcomes
import Horus.Transmit.Owners
import Horus.Transmit.Ownership
import Horus.Transmit.Pending
import Horus.Transmit.PendingRun
import Horus.Transmit.Send
import Horus.Transmit.Settle
import Horus.Transmit.Static
import Horus.Transmit.System
import Horus.Transmit.Table
import Horus.Tx.Backpressure
import Horus.Tx.Model
import Horus.Tx.Ring
import Horus.Wire.Client
import Horus.Wire.Message
import Horus.Wire.Query
import Horus.Wire.Reply
import Horus.Wire.RequestIds
import Horus.Wire.Results
import Horus.Wire.Segments
import Horus.Wire.StackBytes
