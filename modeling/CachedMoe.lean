import CachedMoe.Framework.System
import CachedMoe.Framework.Update
import CachedMoe.Framework.Region
import CachedMoe.Framework.Checked
import CachedMoe.Framework.Newest
import CachedMoe.Framework.Reader
import CachedMoe.Framework.Table
import CachedMoe.Framework.Scan
import CachedMoe.Framework.Sampling
import CachedMoe.Framework.Attempt
import CachedMoe.Core.Types
import CachedMoe.Core.Json
import CachedMoe.Store.Slab
import CachedMoe.Store.ExpertStore
import CachedMoe.Store.Moves
import CachedMoe.Store.Invariant
import CachedMoe.Store.Guard
import CachedMoe.Store.Fill
import CachedMoe.Store.Planner
import CachedMoe.Store.Frozen
import CachedMoe.Store.Atomic
import CachedMoe.Store.Victim
import CachedMoe.Store.Stream
import CachedMoe.Store.StreamVictim
import CachedMoe.Store.Backfill
import CachedMoe.Store.EvictionOrder
import CachedMoe.Store.Restore
import CachedMoe.Store.Lru
import CachedMoe.Storage.Chunks
import CachedMoe.Storage.IoEngine
import CachedMoe.Storage.Request
import CachedMoe.Storage.Refinement
import CachedMoe.Storage.Completion
import CachedMoe.Storage.Failover
import CachedMoe.Storage.Accounting
import CachedMoe.Storage.Submit
import CachedMoe.Storage.Drain
import CachedMoe.Storage.Meters
import CachedMoe.Storage.Priority
import CachedMoe.Storage.QueueDepth
import CachedMoe.Storage.IoUring
import CachedMoe.Storage.EndOfFile
import CachedMoe.Storage.RingBooks
import CachedMoe.Storage.RingWork
import CachedMoe.Runtime.KvStore
import CachedMoe.Runtime.Replay
import CachedMoe.Runtime.Fp4
import CachedMoe.Runtime.KvPack
import CachedMoe.Runtime.Speculate
import CachedMoe.Runtime.DsparkTree
import CachedMoe.Runtime.KvFile
import CachedMoe.Runtime.KvSave
import CachedMoe.Runtime.KvSessions
import CachedMoe.Runtime.KvUnpack
import CachedMoe.Runtime.ExpertCacheState
import CachedMoe.Runtime.Reheat
import CachedMoe.Runtime.ResidentQueue
import CachedMoe.Runtime.KvDiskWriter
import CachedMoe.Runtime.SessionPool
import CachedMoe.Runtime.Nucleus
import CachedMoe.Runtime.PoolBooks
import CachedMoe.Runtime.PoolSaves
import CachedMoe.Runtime.PoolResume
import CachedMoe.Gpu.Prefill
import CachedMoe.Gpu.Batches
import CachedMoe.Gpu.PrefillReads
import CachedMoe.Gpu.PrefillFailure
import CachedMoe.Gpu.GpuPrefill
import CachedMoe.Text.Utf8
import CachedMoe.Text.Tokenizer
import CachedMoe.Text.StreamDecoder
import CachedMoe.Text.Alphabet
import CachedMoe.Text.Split
import CachedMoe.Text.Bpe
import CachedMoe.Text.Load
import CachedMoe.Text.Loaded
import CachedMoe.Text.RoundTrip
import CachedMoe.Text.NaiveBpe
import CachedMoe.Text.BpeNaive
import CachedMoe.Core.JsonParse
import CachedMoe.Core.JsonText
import CachedMoe.Core.JsonTokens
import CachedMoe.Core.JsonComplete
import CachedMoe.Core.JsonPairs
import CachedMoe.Model.Manifest
import CachedMoe.Model.ManifestCheck
import CachedMoe.Model.ManifestBounds
import CachedMoe.Framework.Outline
import CachedMoe.Runtime.MultiStream
import CachedMoe.Runtime.StreamGuards
import CachedMoe.Runtime.GuardedSchedules
import CachedMoe.Framework.Journal
import CachedMoe.Runtime.Ring
import CachedMoe.Runtime.Decode
import CachedMoe.Runtime.SpecStep
import CachedMoe.Runtime.SpecCommit
import CachedMoe.Framework.Emit
import CachedMoe.Runtime.Schedule
import CachedMoe.Runtime.ScheduleOrder
import CachedMoe.Framework.Transfer
import CachedMoe.Gpu.TransitRing
import CachedMoe.Gpu.TransitSlot
import CachedMoe.Gpu.RingSafety
import CachedMoe.Web.Serve
import CachedMoe.Web.Replies
import CachedMoe.Web.Bridge
import CachedMoe.Web.CancelScope
import CachedMoe.Framework.Regex
import CachedMoe.Text.WordRegex
import CachedMoe.Framework.Ranking
import CachedMoe.Runtime.MaskWait
import CachedMoe.Framework.Double
import CachedMoe.Runtime.ResidentRoute
import CachedMoe.Runtime.AcceptTopK
import CachedMoe.Framework.Trellis
import CachedMoe.Runtime.LatticePath
import CachedMoe.Framework.Signed
import CachedMoe.Runtime.EngramTables
import CachedMoe.Runtime.EngramRange
import CachedMoe.Runtime.EngramRows
import CachedMoe.Runtime.EngramSlots
import CachedMoe.Runtime.EngramCache
import CachedMoe.Runtime.ExpertCacheFile
import CachedMoe.Runtime.ReplayLength
import CachedMoe.Storage.ChunkCover
import CachedMoe.Runtime.BatchWindow
import CachedMoe.Framework.Interning
import CachedMoe.Runtime.UnionStage
import CachedMoe.Gpu.WeightCache
import CachedMoe.Framework.Cursor
import CachedMoe.Runtime.BakedPrompt
import CachedMoe.Framework.Packing
import CachedMoe.Runtime.KvLayout
import CachedMoe.Framework.CountingSort
import CachedMoe.Gpu.MoeJobs
import CachedMoe.Gpu.PrefillTopK
import CachedMoe.Framework.Balance
import CachedMoe.Storage.SourceRouter
import CachedMoe.Storage.RouterBalance
import CachedMoe.Store.Writes
import CachedMoe.Store.VictimOrder
import CachedMoe.Store.Ranked
import CachedMoe.Store.RankOrder
import CachedMoe.Runtime.HeatAges
import CachedMoe.Runtime.PromptReuse
import CachedMoe.Runtime.WindowRing
import CachedMoe.Runtime.WindowBooks
import CachedMoe.Runtime.WindowRun
