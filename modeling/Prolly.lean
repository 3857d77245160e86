import Prolly.Basic
import Prolly.Blob
import Prolly.Boundary
import Prolly.Builder
import Prolly.Builder.Levels
import Prolly.CascadeOrder
import Prolly.ChangedSpans
import Prolly.ChunkSizes
import Prolly.Chunks
import Prolly.Crdt.Model
import Prolly.Crdt.MultiValue
import Prolly.DetectorRuns
import Prolly.Diff.Cursor
import Prolly.Diff.Model
import Prolly.Diff.Page
import Prolly.Diff.Range
import Prolly.Diff.Traversal
import Prolly.Dynamo.Key
import Prolly.Dynamo.Number
import Prolly.Emitter
import Prolly.FileStore
import Prolly.Fixture
import Prolly.Forest
import Prolly.Format
import Prolly.FormatCodec
import Prolly.Gc
import Prolly.Indexed.Basic
import Prolly.Indexed.Key
import Prolly.Indexed.Lifecycle
import Prolly.Indexed.Query
import Prolly.Indexed.Retention
import Prolly.Indexed.State
import Prolly.Lib.BuzHash
import Prolly.Lib.Digits
import Prolly.Lib.Edits
import Prolly.Lib.Emission
import Prolly.Lib.EntryDiff
import Prolly.Lib.Grouping
import Prolly.Lib.KeyMap
import Prolly.Lib.Optimistic
import Prolly.Lib.OrderCode
import Prolly.Lib.Paging
import Prolly.Lib.Patch
import Prolly.Lib.PrefixCode
import Prolly.Lib.RingBuffer
import Prolly.Lib.Serializable
import Prolly.Lib.SortedAssoc
import Prolly.Lib.SortedMap
import Prolly.Lib.StackLoop
import Prolly.Lib.WhileLoop
import Prolly.Lib.Worklist
import Prolly.Lineage
import Prolly.Node
import Prolly.NodeCache
import Prolly.NodeCodec
import Prolly.NodeDecode
import Prolly.NodeRoundTrip
import Prolly.NodeSize
import Prolly.NodeSizer
import Prolly.Proof.Complete
import Prolly.Proof.DiffPage
import Prolly.Proof.Key
import Prolly.Proof.Model
import Prolly.Proof.Prove
import Prolly.Proof.ProvedPages
import Prolly.Proof.Range
import Prolly.ReadNode
import Prolly.ReadSearch
import Prolly.Reads
import Prolly.Replicas
import Prolly.RollingWindow
import Prolly.Scan.Iter
import Prolly.Scan.Model
import Prolly.Scan.Page
import Prolly.Scan.Path
import Prolly.SessionReads
import Prolly.Store
import Prolly.Transaction
import Prolly.VersionedMap.Commits
import Prolly.VersionedMap.Edits
import Prolly.VersionedMap.Model
import Prolly.VersionedMap.Pages
import Prolly.VersionedMap.Runs
import Prolly.Write.Basic
import Prolly.Write.Canonical
import Prolly.Write.DeleteRange
import Prolly.Write.Islands
import Prolly.Write.LeafEdits
import Prolly.Write.Leaves
import Prolly.Write.RangeDelete
import Prolly.Write.Replay
import Prolly.WriteSession
