import Helpz.Lib.Bytes
import Helpz.Lib.Store
import Helpz.Lib.Parts
import Helpz.Lib.SortedMap
import Helpz.Lib.Run
import Helpz.Lib.Cut
import Helpz.Lib.Interference
import Helpz.Lib.Updates
import Helpz.Net.Defs
import Helpz.Net.Message
import Helpz.Net.Fragment
import Helpz.Net.State
import Helpz.Net.Window
import Helpz.Net.Waiting
import Helpz.Net.Wire
import Helpz.Net.Dispatch
import Helpz.Net.Framing
import Helpz.Net.Run
import Helpz.Net.FrameQueue
import Helpz.Net.Stream
import Helpz.Net.Recovery
import Helpz.Net.Bookkeeping
import Helpz.Net.Chunks
import Helpz.Net.RoundTrip
import Helpz.Net.Custody
import Helpz.Net.Outcome
import Helpz.Net.Orderly
import Helpz.Net.Findable
import Helpz.Net.Receive
import Helpz.Net.Effects
import Helpz.Net.Posting
import Helpz.Net.Traffic
import Helpz.Net.Integrity
import Helpz.Net.Cyclic
import Helpz.Net.LostWindow
import Helpz.Net.Arrivals
import Helpz.Net.Sending
import Helpz.Net.Lossy
import Helpz.Net.Late
import Helpz.Net.Modular
import Helpz.Net.Sequence
import Helpz.Net.Silence
import Helpz.Net.Reuse
import Helpz.Net.Timers
import Helpz.Net.Completion
import Helpz.Net.Files
import Helpz.Server.Records
import Helpz.Db.DeleteRow
import Helpz.Db.Statements
import Helpz.Db.Cascade
import Helpz.Net.Limit
import Helpz.Net.Missing
import Helpz.Net.Continuing
import Helpz.Net.Transfers
import Helpz.Net.Announced
import Helpz.Net.Deadline
import Helpz.Net.WaitingList
import Helpz.Net.ProtocolTimer
import Helpz.Net.Fragmentation
import Helpz.Net.Oversized
import Helpz.Net.Productive
import Helpz.Db.FieldIn
import Helpz.Base.DataStream
import Helpz.Db.Binding
import Helpz.Server.Node
import Helpz.Server.Clients
import Helpz.Server.Frozen
import Helpz.Lib.Pool
import Helpz.Db.Thread
import Helpz.Net.Delivery
import Helpz.Server.RecordThreads
import Helpz.Client.KeepAlive
import Helpz.Client.Thread
import Helpz.Base.ApplyParse
import Helpz.Db.Objects
import Helpz.Db.Repository
import Helpz.Base.Settings
import Helpz.Lib.Frames
import Helpz.Service.Commands
