import GemOS.Lib.Heap
import GemOS.Lib.Chain
import GemOS.Lib.Bitmap
import GemOS.Lib.Run
import GemOS.Objstore.Block
import GemOS.Objstore.Cache
import GemOS.Objstore.Lru
import GemOS.Objstore.LruRuns
import GemOS.Objstore.Buckets
import GemOS.Objstore.CacheShape
import GemOS.Objstore.Transparent
import GemOS.Objstore.CacheRuns
import GemOS.Objstore.Durable
import GemOS.Objstore.Layer
import GemOS.Objstore.Store
import GemOS.Objstore.HashTable
import GemOS.Objstore.Records
import GemOS.Lib.Lookup
import GemOS.Objstore.Names
import GemOS.Objstore.FiniteMap
import GemOS.Objstore.Rename
import GemOS.Objstore.RenameMoves
import GemOS.Lib.Segment
import GemOS.Objstore.Destroy
import GemOS.Objstore.Remount
import GemOS.Objstore.Data
import GemOS.Objstore.Values
import GemOS.Objstore.Isolation
import GemOS.Objstore.Objects
import GemOS.Objstore.Listing
import GemOS.Objstore.Linked
import GemOS.Objstore.SlotRuns
import GemOS.Objstore.Space
import GemOS.Lib.Cyclic
import GemOS.Lib.Ledger
import GemOS.Sched.Context
import GemOS.Sched.Schedule
import GemOS.Sched.Steps
import GemOS.Sched.Invariant
import GemOS.Sched.Overtaking
import GemOS.Sched.Sleep
import GemOS.Sched.Alarms
import GemOS.Sched.Registers
import GemOS.Sched.Stacks
import GemOS.Lib.Radix
import GemOS.Paging.Table
import GemOS.Paging.Tree
import GemOS.Paging.Segments
import GemOS.Paging.Frames
import GemOS.Paging.Regions
import GemOS.Objstore.Files
import GemOS.Objstore.FilesExact
import GemOS.Objstore.Allocators
import GemOS.Objstore.Reserved
import GemOS.Objstore.RemountMaps
import GemOS.Paging.Walk
import GemOS.Paging.Faults
import GemOS.Paging.Context
import GemOS.Paging.ContextMaps
import GemOS.Paging.ContextFrees
import GemOS.Objstore.Fuse
import GemOS.Objstore.Unique
import GemOS.Objstore.Reads
import GemOS.Objstore.Loose
import GemOS.Objstore.Serve
import GemOS.Objstore.OwnData
import GemOS.Objstore.ReadRuns
import GemOS.Objstore.Failures
import GemOS.Paging.Shrink
import GemOS.Paging.Write
import GemOS.Objstore.Overwrite
import GemOS.Objstore.LongReads
import GemOS.Objstore.FullDisk
import GemOS.Objstore.Sizes
import GemOS.Objstore.ReadFailures
import GemOS.Objstore.LongKeys
import GemOS.Lib.X86
import GemOS.HW1.Prime
import GemOS.Lib.Recall
import GemOS.Paging.Accesses
import GemOS.Paging.Rights
import GemOS.Paging.Processes
import GemOS.Paging.ContextRuns
import GemOS.Paging.Protection
import GemOS.Lib.Threads
import GemOS.Lib.Simulation
import GemOS.Objstore.FileCalls
import GemOS.Objstore.Stack
import GemOS.Objstore.StackCache
import GemOS.Objstore.FileSystem
import GemOS.Objstore.FileSystemRuns
import GemOS.Pthreads.Mutex
import GemOS.Pthreads.Counter
import GemOS.Lib.Rotation
import GemOS.Sched.RoundRobin
import GemOS.Sched.Latency
import GemOS.Paging.Output
