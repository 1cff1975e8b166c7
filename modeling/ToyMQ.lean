import ToyMQ.Lib.Bytes
import ToyMQ.Lib.Run
import ToyMQ.Lib.Signal
import ToyMQ.Lib.Framing
import ToyMQ.Lib.Decimal
import ToyMQ.Lib.Lru
import ToyMQ.Lib.Text
import ToyMQ.Lib.Path
import ToyMQ.Wal.Record
import ToyMQ.Wal.Accepted
import ToyMQ.Wal.Segment
import ToyMQ.Wal.Log
import ToyMQ.Wal.Recovery
import ToyMQ.Wal.Discovery
import ToyMQ.Wal.Invariant
import ToyMQ.Wal.Durability
import ToyMQ.Wal.Crash
import ToyMQ.Wal.Committer
import ToyMQ.Wal.Fsynced
import ToyMQ.Wal.Closing
import ToyMQ.Wal.PowerLoss
import ToyMQ.Wal.Reopen
import ToyMQ.Wal.Spec
import ToyMQ.Wal.Reader
import ToyMQ.Wal.Representation
import ToyMQ.Wal.ReaderExact
import ToyMQ.Wal.ReaderRetention
import ToyMQ.Wal.ReaderStart
import ToyMQ.Wal.Torn
import ToyMQ.Wal.FailedWrite
import ToyMQ.Wal.FailedAppend
import ToyMQ.Broker.Consumer
import ToyMQ.Broker.Node
import ToyMQ.Broker.Routing
import ToyMQ.Broker.Delivery
import ToyMQ.Broker.Feed
import ToyMQ.Broker.Resume
import ToyMQ.Broker.Window
import ToyMQ.Broker.Wakeup
import ToyMQ.Broker.Attempts
import ToyMQ.Broker.Poison
import ToyMQ.Broker.Retention
import ToyMQ.Broker.AgePolicy
import ToyMQ.Broker.TopicDirs
import ToyMQ.Broker.TopicCreation
import ToyMQ.Broker.DedupeIndex
import ToyMQ.Broker.AckedSet
import ToyMQ.Broker.OffsetsFlush
import ToyMQ.Replication.StateMachine
import ToyMQ.Replication.Envelope
import ToyMQ.Replication.Convergence
import ToyMQ.Replication.Data
import ToyMQ.Replication.Shape
import ToyMQ.Replication.Agreement
import ToyMQ.Replication.Transport
import ToyMQ.Replication.Replay
import ToyMQ.Replication.Skipping
import ToyMQ.Replication.Dedupe
import ToyMQ.Server.Session
import ToyMQ.Server.Standalone
import ToyMQ.Server.Pausing
import ToyMQ.Server.Modes
import ToyMQ.Server.Delays
import ToyMQ.Server.Retry
import ToyMQ.Server.Parser
import ToyMQ.Server.Reader
import ToyMQ.Server.TopicNames
import ToyMQ.Server.Limits
import ToyMQ.Server.WaitBarrier
import ToyMQ.Server.WaitNotify
import ToyMQ.Server.Shutdown
import ToyMQ.Client.Request
import ToyMQ.Client.Connection
import ToyMQ.Client.Cancel
import ToyMQ.Client.Drain
import ToyMQ.Client.Pairing
import ToyMQ.Client.OwnResponse
import ToyMQ.Client.AckLoop
import ToyMQ.Client.Turn
import ToyMQ.Client.Capacity
import ToyMQ.Client.RequestFrames
import ToyMQ.Client.Addressing
import ToyMQ.Client.ResponseFrames
import ToyMQ.Client.Link
import ToyMQ.Client.SubOrder
import ToyMQ.Client.Answers
import ToyMQ.Client.Cluster
