import MiniKV.Library.FiniteMap
import MiniKV.Library.LittleEndian
import MiniKV.Library.HashChain
import MiniKV.Library.FramedLog
import MiniKV.Library.Machine
import MiniKV.Library.Stuttering
import MiniKV.Library.AtomicObject
import MiniKV.Library.LockOrder
import MiniKV.Library.Recency
import MiniKV.Library.AtomicRewrite
import MiniKV.Library.Packing
import MiniKV.Library.Grammar
import MiniKV.Concrete.Status
import MiniKV.Concrete.Record
import MiniKV.Concrete.Header
import MiniKV.Concrete.AppendOnlyStore
import MiniKV.Concrete.Opening
import MiniKV.Concrete.LruCache
import MiniKV.Concrete.KeyValueStore
import MiniKV.Concrete.CommandParser
import MiniKV.Concrete.Shell
import MiniKV.Cache.RecencyList
import MiniKV.Cache.LeastRecent
import MiniKV.Cache.Inclusion
import MiniKV.Format.HeaderLayout
import MiniKV.Format.LogEntry
import MiniKV.Format.Replay
import MiniKV.Format.Stored
import MiniKV.Format.HeaderCodec
import MiniKV.Format.Rewriting
import MiniKV.Recovery.Scan
import MiniKV.Recovery.Language
import MiniKV.Recovery.Crash
import MiniKV.Recovery.Faults
import MiniKV.Recovery.Damage
import MiniKV.Recovery.ContentDamage
import MiniKV.Recovery.Salvage
import MiniKV.Store.Effects
import MiniKV.Store.Ledger
import MiniKV.Store.LogLedger
import MiniKV.Store.View
import MiniKV.Store.PutArea
import MiniKV.Store.Sections
import MiniKV.Store.CompactSection
import MiniKV.Store.Runs
import MiniKV.Store.Faultless
import MiniKV.Store.Recovered
import MiniKV.Store.TimedMap
import MiniKV.Store.Refinement
import MiniKV.Store.Compaction
import MiniKV.Store.InStep
import MiniKV.Store.FailedCompaction
import MiniKV.Store.Acknowledged
import MiniKV.Store.Transparency
import MiniKV.Store.ValueDamage
import MiniKV.Store.AppendOnly
import MiniKV.Store.Opening
import MiniKV.Store.ReportedGone
import MiniKV.Store.FailedWrites
import MiniKV.Store.Leftover
import MiniKV.Store.CompactionCrash
import MiniKV.Store.Lasting
import MiniKV.Store.Lifetime
import MiniKV.Store.Packed
import MiniKV.Store.StatusCodes
import MiniKV.Store.Honest
import MiniKV.Store.Restarts
import MiniKV.Store.Maintenance
import MiniKV.Store.Statistics
import MiniKV.Concurrent.System
import MiniKV.Concurrent.NoStaleRead
import MiniKV.Concurrent.Listing
import MiniKV.Concurrent.Closing
import MiniKV.Concurrent.Settled
import MiniKV.Concurrent.Quiesce
import MiniKV.Concurrent.Reopening
import MiniKV.Concurrent.Cleaner
import MiniKV.Concurrent.Calls
import MiniKV.Concurrent.Agreement
import MiniKV.Concurrent.Undisturbed
import MiniKV.Concurrent.Linearizable
import MiniKV.Concurrent.Survival
import MiniKV.Concurrent.LockPaths
import MiniKV.Concurrent.Locking
import MiniKV.Command.Grammar
import MiniKV.Command.Words
import MiniKV.Command.Language
import MiniKV.Command.Quoting
import MiniKV.Shell.Transcript
import MiniKV.Shell.Script
import MiniKV.Shell.Options
