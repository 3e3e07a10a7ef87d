import SplitKV.Lib.KMerge
import SplitKV.Lib.SharedReads
import SplitKV.Coding
import SplitKV.Coding.Varint
import SplitKV.Crc32
import SplitKV.MemTable
import SplitKV.SSTable
import SplitKV.Wal
import SplitKV.DBImpl.Open
import SplitKV.Faults.Gc
import SplitKV.BloomFilter
import SplitKV.VLog.Pointers
import SplitKV.Recovery.Open
import SplitKV.Faults.Shape
import SplitKV.Faults.Get
import SplitKV.SSTable.RoundTrip
import SplitKV.Concurrent.Get
import SplitKV.Concurrent.Atomic
import SplitKV.PowerLoss.Sequence
import SplitKV.PowerLoss.Reads
import SplitKV.PowerLoss.Newest
import SplitKV.Recovery.Crashes
import SplitKV.Recovery.TornSegment
import SplitKV.Recovery.Listing
import SplitKV.Recovery.FileIds
import SplitKV.VLog.Failures
import SplitKV.SSTable.Reads
import SplitKV.Recovery.Shutdown
import SplitKV.SSTable.Positioned
import SplitKV.Concurrent.Manifest
import SplitKV.PowerLoss.Promises
import SplitKV.AvlTree.Height
import SplitKV.VLog.Corruption
import SplitKV.VLog.Sizes
import SplitKV.Wal.Burst
import SplitKV.SSTable.Seek
import SplitKV.SSTable.Malformed
import SplitKV.SSTable.Scans
import SplitKV.Recovery.LevelBounds
import SplitKV.Server
import SplitKV.Concurrent.Collect
import SplitKV.Concurrent.CollectRun
import SplitKV.Concurrent.GetCollect
import SplitKV.Background.Compacted
import SplitKV.Recovery.Unharmed
import SplitKV.Tools.Clients
import SplitKV.Background.Wait
import SplitKV.Recovery.LogAlone
import SplitKV.Concurrent.Durable
import SplitKV.Concurrent.Quiescent
import SplitKV.Concurrent.Locks
import SplitKV.Concurrent.Lifetimes
import SplitKV.Concurrent.Callers
import SplitKV.Store.Idle
