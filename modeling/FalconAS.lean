import FalconAS.Http.Data
import FalconAS.Seq.Split
import FalconAS.Machine.Run
import FalconAS.Machine.Loop
import FalconAS.Http.StringHelper
import FalconAS.Http.Theorems.Splitting
import FalconAS.Http.Parser
import FalconAS.Http.Cpp11
import FalconAS.Http.Cpp23
import FalconAS.Http.Blocks
import FalconAS.Http.Lemmas.Call
import FalconAS.Http.Lemmas.Walk
import FalconAS.Http.Lemmas.Examine
import FalconAS.Http.Theorems.Exceptions
import FalconAS.Http.Theorems.Stranded
import FalconAS.Http.Theorems.BadRequest
import FalconAS.Http.Theorems.Announced
import FalconAS.Http.Theorems.PendingBody
import FalconAS.Http.Theorems.Contiguous
import FalconAS.Http.Lemmas.Headers
import FalconAS.Http.Theorems.Legacy
import FalconAS.Http.Reader
import FalconAS.Http.Theorems.Chunking
import FalconAS.Http.Pipeline
import FalconAS.Http.Lemmas.Rendering
import FalconAS.Http.Theorems.Pipelines
import FalconAS.Http.Theorems.LockStep
import FalconAS.Http.Theorems.Parameters
import FalconAS.Http.Generator
import FalconAS.Http.Theorems.Sending
import FalconAS.Http.Theorems.Transmission
import FalconAS.Http.Theorems.HeaderBlock
import FalconAS.Http.Theorems.Isolation
import FalconAS.Http.Theorems.RequestLine
import FalconAS.Http.Theorems.HeaderLines
import FalconAS.Json.Tokens
import FalconAS.Json.Value
import FalconAS.Http.Json
import FalconAS.Http.Theorems.Payload
import FalconAS.Seq.Frames
import FalconAS.Seq.Cursor
import FalconAS.Seq.Keep
import FalconAS.Xml.Framing
import FalconAS.Xml.Theorems.Exact
import FalconAS.Xml.Theorems.Prepared
import FalconAS.Xml.Lemmas.Shift
import FalconAS.Xml.Lemmas.Leaves
import FalconAS.Xml.Source
import FalconAS.Xml.Dtd
import FalconAS.Xml.Theorems.ZeroCopy
import FalconAS.Xml.Theorems.Mirror
import FalconAS.Xml.Theorems.Streams
import FalconAS.Xml.Theorems.Lifetime
import FalconAS.Xml.Theorems.Pointers
import FalconAS.Memory.Object
import FalconAS.Memory.Lifetime
import FalconAS.Shm.Vector
import FalconAS.Shm.Lemmas.Exec
import FalconAS.Shm.Theorems.Release
import FalconAS.Shm.Lemmas.Slots
import FalconAS.Shm.Theorems.Region
import FalconAS.Shm.Theorems.Refines
import FalconAS.Machine.Spinlock
import FalconAS.Shm.Threads
import FalconAS.Shm.Theorems.Queue
import FalconAS.Shm.Theorems.Full
import FalconAS.Shm.Theorems.Lifetimes
import FalconAS.Shm.Theorems.References
import FalconAS.Machine.Sections
import FalconAS.Shm.Processes
import FalconAS.Shm.Lemmas.Alone
import FalconAS.Shm.Theorems.Interleaved
import FalconAS.Server.MemoryManager
import FalconAS.Server.Vector
import FalconAS.Machine.Checked
import FalconAS.Static.Filesystem
import FalconAS.Static.Lemmas.Files
import FalconAS.Static.Theorems.Served
import FalconAS.Machine.Events
import FalconAS.Machine.Readiness
import FalconAS.Server.Kernel
import FalconAS.Server.Loop
import FalconAS.Server.System
import FalconAS.Server.Lemmas.Kept
import FalconAS.Server.Theorems.Sessions
import FalconAS.Server.Theorems.Wakeups
import FalconAS.Server.Theorems.Progress
import FalconAS.Server.Theorems.Shutdown
import FalconAS.Server.Lemmas.Session
import FalconAS.Server.Theorems.LockStep
