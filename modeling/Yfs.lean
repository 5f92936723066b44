import Yfs.Lib.Run
import Yfs.Lib.Simulation
import Yfs.Lib.Ballot
import Yfs.Lib.IStream
import Yfs.Paxos.Protocol
import Yfs.Paxos.Log
import Yfs.Paxos.Acceptor
import Yfs.Paxos.Torn
import Yfs.Rsm.View
import Yfs.Paxos.Recovery
import Yfs.Paxos.Cluster
import Yfs.Paxos.Crash
import Yfs.Paxos.Messages
import Yfs.Paxos.Durability
import Yfs.Paxos.Slot
import Yfs.Paxos.Agreement
import Yfs.Paxos.SingleInstance
import Yfs.Paxos.Decide
import Yfs.Paxos.Gapless
import Yfs.Rsm.Config
import Yfs.Rsm.Views
import Yfs.Rsm.Cluster
import Yfs.Paxos.History
import Yfs.Rsm.History
import Yfs.Rsm.Restore
import Yfs.Rsm.Heartbeat
import Yfs.Rpc.AtMostOnce
import Yfs.Rpc.Outstanding
import Yfs.Rpc.Ack
import Yfs.Rpc.Contract
import Yfs.Rpc.Forgotten
import Yfs.Lib.BigEndian
import Yfs.Lib.OrderedMap
import Yfs.Rpc.Marshall
import Yfs.Rpc.Format
import Yfs.Rpc.Contained
import Yfs.Lib.Framing
import Yfs.Rpc.Connection
import Yfs.Rpc.Delivery
import Yfs.Rpc.Overrun
import Yfs.Rpc.Handle
import Yfs.Rpc.Counted
import Yfs.Rpc.RefCount
import Yfs.Rpc.Safebind
import Yfs.Rpc.ThrPool
import Yfs.Rpc.Shutdown
import Yfs.Lib.Register
import Yfs.Rpc.Timespec
import Yfs.Rpc.Retry
import Yfs.Rpc.Growth
import Yfs.Rpc.Select
import Yfs.Rpc.PollMgr
import Yfs.Rpc.Callbacks
import Yfs.Rpc.Wakeup
import Yfs.Rpc.EPoll
import Yfs.Rpc.Wired
import Yfs.Rpc.Tended
import Yfs.Rpc.Served
import Yfs.Rpc.Answer
import Yfs.Rpc.Calling
import Yfs.Rpc.Referred
import Yfs.Rpc.Cancelled
import Yfs.Rsm.Stub
import Yfs.Extent.Cache
import Yfs.Extent.Coherence
import Yfs.Extent.Transparent
import Yfs.Extent.Flush
import Yfs.Extent.Attributes
import Yfs.Extent.Locked
import Yfs.Extent.LockedCoherence
import Yfs.Lib.Weight
import Yfs.Lock.Client
import Yfs.Lock.Mutex
import Yfs.Lock.Workers
import Yfs.Lock.Phase
import Yfs.Lock.Revoke
import Yfs.Lock.Releasing
import Yfs.Lib.Replay
import Yfs.Lib.Locks
import Yfs.Rsm.Locks
import Yfs.Rsm.InView
import Yfs.Rsm.Order
import Yfs.Rsm.Node
import Yfs.Rsm.Survive
import Yfs.Rsm.Stalled
import Yfs.Rsm.Primary
import Yfs.Rsm.Succession
import Yfs.Rsm.Refused
import Yfs.Rsm.Client
