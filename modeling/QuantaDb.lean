import QuantaDb.Engine.Access
import QuantaDb.Engine.Codec
import QuantaDb.Engine.Expression
import QuantaDb.Engine.KeyOrder
import QuantaDb.Engine.Keyspace
import QuantaDb.Engine.Recorded
import QuantaDb.Engine.Session
import QuantaDb.Engine.Statements
import QuantaDb.Engine.Transaction
import QuantaDb.Engine.Typing
import QuantaDb.Engine.Value
import QuantaDb.Engine.Writing
import QuantaDb.Index.Build
import QuantaDb.Index.Capacity
import QuantaDb.Index.Cursor
import QuantaDb.Index.EditLimits
import QuantaDb.Index.EditPlans
import QuantaDb.Index.Editor
import QuantaDb.Index.Edits
import QuantaDb.Index.Grouping
import QuantaDb.Index.Layout
import QuantaDb.Index.Node
import QuantaDb.Index.NodeCodec
import QuantaDb.Index.Tree
import QuantaDb.Index.Untrusted
import QuantaDb.Lib.Binary64
import QuantaDb.Lib.Crash
import QuantaDb.Lib.Fallible
import QuantaDb.Lib.LittleEndian
import QuantaDb.Lib.Looping
import QuantaDb.Lib.Ordered
import QuantaDb.Lib.Parsing
import QuantaDb.Lib.Recency
import QuantaDb.Lib.Redo
import QuantaDb.Lib.Scanning
import QuantaDb.Lib.Simulation
import QuantaDb.Lib.Timeline
import QuantaDb.Lib.TreeMaps
import QuantaDb.Lib.Utf8
import QuantaDb.Mvcc.Commits
import QuantaDb.Mvcc.Footprint
import QuantaDb.Mvcc.Isolation
import QuantaDb.Mvcc.Machine
import QuantaDb.Mvcc.Merge
import QuantaDb.Mvcc.Opening
import QuantaDb.Mvcc.Packing
import QuantaDb.Mvcc.Persisted
import QuantaDb.Mvcc.Prefix
import QuantaDb.Mvcc.Reads
import QuantaDb.Mvcc.Reclaim
import QuantaDb.Mvcc.Record
import QuantaDb.Mvcc.Runs
import QuantaDb.Mvcc.Scans
import QuantaDb.Mvcc.Snapshot
import QuantaDb.Mvcc.State
import QuantaDb.Mvcc.Writers
import QuantaDb.Server.Framing
import QuantaDb.Server.Placeholders
import QuantaDb.Storage.Allocator
import QuantaDb.Storage.Appends
import QuantaDb.Storage.Background
import QuantaDb.Storage.Batches
import QuantaDb.Storage.ByteLru
import QuantaDb.Storage.Calls
import QuantaDb.Storage.Checkpoint
import QuantaDb.Storage.Durability
import QuantaDb.Storage.Flush
import QuantaDb.Storage.Frame
import QuantaDb.Storage.FrameReader
import QuantaDb.Storage.FrameRuns
import QuantaDb.Storage.FrameSegment
import QuantaDb.Storage.GroupCommit
import QuantaDb.Storage.Groups
import QuantaDb.Storage.History
import QuantaDb.Storage.Invariant
import QuantaDb.Storage.LogSteps
import QuantaDb.Storage.Loops
import QuantaDb.Storage.Machine
import QuantaDb.Storage.Memory
import QuantaDb.Storage.Page
import QuantaDb.Storage.ReaderRuns
import QuantaDb.Storage.Readers
import QuantaDb.Storage.Recovery
import QuantaDb.Storage.Refusals
import QuantaDb.Storage.Rotation
import QuantaDb.Storage.Runs
import QuantaDb.Storage.Store
import QuantaDb.Storage.Wal
import QuantaDb.Syntax.Ast
import QuantaDb.Syntax.Complete
import QuantaDb.Syntax.Depth
import QuantaDb.Syntax.Grammar
import QuantaDb.Syntax.Lexer
import QuantaDb.Syntax.OperatorRuns
import QuantaDb.Syntax.Parser
import QuantaDb.Syntax.Precedence
import QuantaDb.Syntax.Sound
import QuantaDb.Syntax.Spanned
import QuantaDb.Syntax.Spans
import QuantaDb.Syntax.StatementSound
import QuantaDb.Syntax.Token
