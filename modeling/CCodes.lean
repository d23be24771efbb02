import CCodes.Lib.Runs
import CCodes.Lib.Heap
import CCodes.Lib.HeapPart
import CCodes.Lib.Segment
import CCodes.Lib.DummyList
import CCodes.Lib.CString
import CCodes.Lib.Framing
import CCodes.Lib.SelectLoop
import CCodes.Lib.Doubling
import CCodes.Lib.Weights
import CCodes.Lib.Commute
import CCodes.Lib.Descriptors
import CCodes.Lib.Decimal
import CCodes.Dsa.CirDqueu
import CCodes.Dsa.CirDqueuTheorems
import CCodes.Dsa.Queues
import CCodes.Dsa.QueueLlTheorems
import CCodes.Dsa.Printing
import CCodes.Dsa.StackLl
import CCodes.Dsa.CirQTheorems
import CCodes.Assignment.Records
import CCodes.Assignment.Server
import CCodes.Assignment.Connection
import CCodes.Assignment.ServerTheorems
import CCodes.Assignment.Registration
import CCodes.Assignment.FailedRead
import CCodes.Assignment.Opening
import CCodes.Assignment.Isolation
import CCodes.Assignment.Client
import CCodes.Assignment.Wire
import CCodes.Assignment.ShortReads
import CCodes.Assignment.Protocol
import CCodes.Assignment.ProtocolTheorems
import CCodes.Assignment.Quiescence
import CCodes.Assignment.Determinacy
import CCodes.Assignment.Answered
import CCodes.Assignment.Copy
import CCodes.Assignment.Typing
import CCodes.Assignment.SessionList
import CCodes.Assignment.SessionListTheorems
import CCodes.Assignment.StudentList
import CCodes.Assignment.StudentListTheorems
import CCodes.Assignment.HeapServer
import CCodes.Assignment.HeapServerTheorems
import CCodes.Assignment.HeapLaws
import CCodes.Assignment.ListWalks
import CCodes.Fork.Child
import CCodes.Fork.ChildTheorems
import CCodes.Fork.EndOfStream
import CCodes.Fork.Parent
import CCodes.Fork.ParentTheorems
import CCodes.Relay.SelectServer
import CCodes.Relay.SelectServerTheorems
import CCodes.Relay.FdSet
import CCodes.Stream.BindLoop
import CCodes.Stream.StreamServer
import CCodes.Stream.StreamServerTheorems
import CCodes.Utils.StringLen
import CCodes.Upper.UppRecvServer
import CCodes.Iterative.Servers
import CCodes.Iterative.ServersTheorems
import CCodes.Iterative.Echo
import CCodes.Iterative.UppRecv
import CCodes.Iterative.Chat
import CCodes.Iterative.DateServers
import CCodes.Unix.ForkPipe
import CCodes.Older.Server
import CCodes.Older.ServerTheorems
import CCodes.Older.Answers
import CCodes.Older.OwnStudent
import CCodes.Older.Client
import CCodes.Older.Deadlock
