import RingDB.Threads.Guard
import RingDB.Threads.SingleThread
import RingDB.LevelZero.Handover
import RingDB.LevelZero.SortedPool
import RingDB.LevelZero.MemTableMap
import RingDB.LevelZero.InsertedReads
import RingDB.LevelZero.EmptiedTable
import RingDB.LevelZero.TableRanges
import RingDB.LevelZero.IndexRanges
import RingDB.Requests.SingleThreadQueue
import RingDB.Requests.StackOrder
import RingDB.Requests.MemtableImage
import RingDB.Levels.FilterOrder
import RingDB.Levels.FilterBounds
import RingDB.Levels.Partition
import RingDB.Levels.RangeVisit
import RingDB.Levels.FilterKeys
import RingDB.Levels.FilterAlgebra
import RingDB.Levels.NewestVersion
import RingDB.Levels.Compaction
import RingDB.Worker.CacheHistory
import RingDB.Worker.IntervalLookup
import RingDB.Worker.EndOfFile
import RingDB.Worker.BufferOrder
import RingDB.Worker.DistributionLoop
import RingDB.Worker.CachedRanges
import RingDB.Worker.BlockRounding
import RingDB.Worker.Splitting
import RingDB.Worker.StackDepth
import RingDB.Worker.FileName
import RingDB.Worker.PageCacheLayout
import RingDB.Worker.InitReading
import RingDB.Worker.WaitingFlag
import RingDB.Worker.Traversal
import RingDB.Worker.BatchOrder
import RingDB.Worker.CopiedValues
import RingDB.Worker.RoundRobin
import RingDB.Worker.SearchLoop
import RingDB.Worker.WriteOnce
import RingDB.Worker.Classification
import RingDB.Worker.InitBarrier
import RingDB.Worker.Handshake
import RingDB.Worker.PracticallyFull
import RingDB.Worker.Recovery
import RingDB.Worker.Submission
import RingDB.Worker.Answers
import RingDB.Network.ReceivedBytes
import RingDB.Network.Grouping
import RingDB.Network.Entries
import RingDB.Network.Passes
import RingDB.Network.Responses
import RingDB.Network.Dispatch
import RingDB.Pipeline.Pairing
import RingDB.Pipeline.EmptyStore
import RingDB.Pipeline.Rings
import RingDB.Pipeline.CompactionPath
import RingDB.Pipeline.LinkedQueues
