import Libks.Base.Memory
import Libks.Base.Word
import Libks.Base.CString
import Libks.Base.Rfc6455
import Libks.Base.Outcome
import Libks.Base.Http
import Libks.Kws.Transport
import Libks.Kws.State
import Libks.Kws.Handshake
import Libks.Kws.Establish
import Libks.Kws.ReadFrame
import Libks.Kws.WriteFrame
import Libks.Kws.RawRead
import Libks.Kws.FrameHeader
import Libks.Kws.FramePayload
import Libks.Kws.FrameRun
import Libks.Kws.Fragments
import Libks.Kws.ReadSafety
import Libks.Kws.FrameSafety
import Libks.Kws.WriteRun
import Libks.Kws.RawWrite
import Libks.Kws.SizeLimit
import Libks.Kws.Headers
import Libks.Kws.ReadRun
import Libks.Kws.Certificate
import Libks.Kws.ClientHandshake
import Libks.Text.Separate
import Libks.Text.Escape
import Libks.Text.Bounds
import Libks.Text.Url
import Libks.Base.Calls
import Libks.Base.Links
import Libks.Base.Heap
import Libks.Base.Keyed
import Libks.Base.Driven
import Libks.Base.Percent
import Libks.Base.Cond
import Libks.Fault
import Libks.Status
import Libks.Buffer.State
import Libks.Buffer.Bounds
import Libks.Buffer.Fifo
import Libks.Buffer.Limit
import Libks.Buffer.Loops
import Libks.Buffer.Packets
import Libks.Pool.State
import Libks.Pool.Blocks
import Libks.Pool.Stats
import Libks.Queue.State
import Libks.Queue.Nodes
import Libks.Queue.Fifo
import Libks.Queue.Wakeups
import Libks.Base.Threads
import Libks.Base.Locks
import Libks.Pool.Cleanup
import Libks.Pool.Callbacks
import Libks.ThreadPool.State
import Libks.ThreadPool.Counters
import Libks.ThreadPool.Stranded
import Libks.ThreadPool.Deadlock
import Libks.ThreadPool.Steps
import Libks.ThreadPool.Shrink
import Libks.ThreadPool.Workers
import Libks.Base.RwLock
import Libks.Rwl.State
import Libks.Rwl.Nesting
import Libks.Kws.Messages
import Libks.Tls.Close
import Libks.Kws.Close
import Libks.Kws.Request
import Libks.Kws.Path
import Libks.Kws.QueryString
import Libks.Kws.HeaderFields
import Libks.Kws.Keepalive
import Libks.Kws.RequestLine
import Libks.Kws.Leftover
import Libks.Kws.Connect
import Libks.Base.Buckets
import Libks.Base.KeyMap
import Libks.Hash.State
import Libks.Hash.Map
import Libks.Hash.Threads
import Libks.Base.Prefix
import Libks.Acl.State
import Libks.Acl.Cidr
import Libks.Acl.Families
import Libks.Base.Argmax
import Libks.Acl.Specific
import Libks.Acl.Entries
import Libks.Base.Base64
import Libks.Text.Base64
import Libks.Kws.Base64
import Libks.Kws.Agreement
import Libks.Hash.Caseless
import Libks.Hash.Nodes
import Libks.Hash.Iterator
import Libks.Json.Check
import Libks.Base.Rfc3986
import Libks.Json.UriReference
import Libks.Sb.State
import Libks.Sb.Text
import Libks.Base.Hep3
import Libks.Hep.Capture
import Libks.Base.Printf
import Libks.Log.State
import Libks.Log.Bounds
import Libks.Base.Decimal
import Libks.Json.Numbers
import Libks.Pool.Regions
import Libks.Pool.Strings
import Libks.Text.Cleanup
import Libks.Kws.HeaderLines
import Libks.Kws.HeaderPieces
import Libks.Kws.HeaderEntries
import Libks.Kws.HeaderTable
import Libks.Kws.RequestHead
import Libks.Base.Rounding
import Libks.Base.Rearrange
import Libks.Simclist.State
import Libks.Simclist.Entries
import Libks.Simclist.Edits
import Libks.Simclist.Sort
import Libks.Simclist.Store
import Libks.Simclist.Iterate
import Libks.Hash.Ownership
import Libks.Base.Double
import Libks.Json.Bounds
import Libks.Json.Print
import Libks.Json.RoundTrip
