import ShikiOS.Common.CircularList
import ShikiOS.Common.Format
import ShikiOS.Common.LockFree
import ShikiOS.Common.PostAllSem
import ShikiOS.Common.Rbtree
import ShikiOS.Common.RbtreeErase
import ShikiOS.Common.RbtreeInsert
import ShikiOS.Common.RbtreeRep
import ShikiOS.Common.RbtreeSet
import ShikiOS.Common.Sem
import ShikiOS.Common.SemLedger
import ShikiOS.Common.Spinlock
import ShikiOS.Common.Str
import ShikiOS.Driver.VirtioBlk
import ShikiOS.Driver.VirtioFrame
import ShikiOS.Driver.VirtioInvariant
import ShikiOS.Driver.VirtioQueue
import ShikiOS.Driver.VirtioRequests
import ShikiOS.Fs.Bcache
import ShikiOS.Fs.BcacheAlloc
import ShikiOS.Fs.BcacheCoherence
import ShikiOS.Fs.BcacheCommit
import ShikiOS.Fs.BcacheCrash
import ShikiOS.Fs.BcacheInvariant
import ShikiOS.Fs.BcacheJournal
import ShikiOS.Fs.BcacheLru
import ShikiOS.Fs.BcachePhase
import ShikiOS.Fs.BcacheRep
import ShikiOS.Fs.BcacheRun
import ShikiOS.Fs.BitmapAlloc
import ShikiOS.Fs.BitmapFree
import ShikiOS.Fs.BlockDevice
import ShikiOS.Fs.BlockOwnership
import ShikiOS.Fs.CacheInvariant
import ShikiOS.Fs.CacheModel
import ShikiOS.Fs.CacheOwnership
import ShikiOS.Fs.Defines
import ShikiOS.Fs.DirMap
import ShikiOS.Fs.DirNames
import ShikiOS.Fs.Directory
import ShikiOS.Fs.FileBlocks
import ShikiOS.Fs.FileContent
import ShikiOS.Fs.FileReadWrite
import ShikiOS.Fs.FileWrite
import ShikiOS.Fs.Inode
import ShikiOS.Fs.InodeBlocks
import ShikiOS.Fs.InodeClear
import ShikiOS.Fs.InodeFormat
import ShikiOS.Fs.InodeHoles
import ShikiOS.Fs.InodeJournal
import ShikiOS.Fs.InodeLedger
import ShikiOS.Fs.InodeMap
import ShikiOS.Fs.InodeOp
import ShikiOS.Fs.InodeRelease
import ShikiOS.Fs.InodeSound
import ShikiOS.Fs.LogArea
import ShikiOS.Fs.LogDurability
import ShikiOS.Fs.LogInvariant
import ShikiOS.Fs.LogIsolation
import ShikiOS.Fs.LogModel
import ShikiOS.Fs.Namex
import ShikiOS.Fs.OpBudget
import ShikiOS.Fs.Pipe
import ShikiOS.Fs.PipeQueue
import ShikiOS.Fs.Store
import ShikiOS.Fs.Volume
import ShikiOS.Fs.VolumeRun
import ShikiOS.Kernel.AddressSpace
import ShikiOS.Kernel.Alarm
import ShikiOS.Kernel.Console
import ShikiOS.Kernel.ConsoleLock
import ShikiOS.Kernel.Copyout
import ShikiOS.Kernel.Descriptors
import ShikiOS.Kernel.Exec
import ShikiOS.Kernel.ExecImage
import ShikiOS.Kernel.ExecLoad
import ShikiOS.Kernel.ExecRun
import ShikiOS.Kernel.ExecStack
import ShikiOS.Kernel.FileMapping
import ShikiOS.Kernel.FileTable
import ShikiOS.Kernel.FreeForeign
import ShikiOS.Kernel.FreePages
import ShikiOS.Kernel.FreePgdir
import ShikiOS.Kernel.Image
import ShikiOS.Kernel.InodeLocks
import ShikiOS.Kernel.Isolation
import ShikiOS.Kernel.KallocInvariant
import ShikiOS.Kernel.KallocLarge
import ShikiOS.Kernel.KallocModel
import ShikiOS.Kernel.KallocRun
import ShikiOS.Kernel.KallocSteps
import ShikiOS.Kernel.Kill
import ShikiOS.Kernel.KillCall
import ShikiOS.Kernel.LazyMapping
import ShikiOS.Kernel.MappingRemoval
import ShikiOS.Kernel.Mem
import ShikiOS.Kernel.OutOfMemory
import ShikiOS.Kernel.PageFault
import ShikiOS.Kernel.PageMap
import ShikiOS.Kernel.PageTable
import ShikiOS.Kernel.PageTree
import ShikiOS.Kernel.PickNext
import ShikiOS.Kernel.Pid
import ShikiOS.Kernel.Pipe2
import ShikiOS.Kernel.Printk
import ShikiOS.Kernel.ProcDfs
import ShikiOS.Kernel.RefCounts
import ShikiOS.Kernel.Sbrk
import ShikiOS.Kernel.Sched
import ShikiOS.Kernel.SchedBypass
import ShikiOS.Kernel.SchedInvariant
import ShikiOS.Kernel.SchedWait
import ShikiOS.Kernel.SemInvariant
import ShikiOS.Kernel.SemModel
import ShikiOS.Kernel.SemParts
import ShikiOS.Kernel.SharedFile
import ShikiOS.Kernel.Slab
import ShikiOS.Kernel.SlabFree
import ShikiOS.Kernel.SysCrash
import ShikiOS.Kernel.SysJournal
import ShikiOS.Kernel.Syscalls
import ShikiOS.Kernel.Timer
import ShikiOS.Kernel.Unlink
import ShikiOS.Kernel.UserPtr
import ShikiOS.Kernel.UvmCopy
import ShikiOS.Kernel.Uvmunmap
import ShikiOS.Kernel.VmaLists
import ShikiOS.Kernel.WaitExit
import ShikiOS.Lib.Bytes
import ShikiOS.Lib.Chain
import ShikiOS.Lib.Count
import ShikiOS.Lib.FirstMax
import ShikiOS.Lib.Linked
import ShikiOS.Lib.Monitor
import ShikiOS.Lib.RedBlack
import ShikiOS.Lib.RedoLog
import ShikiOS.Lib.Reservation
import ShikiOS.Lib.RingBuffer
import ShikiOS.Lib.Run
import ShikiOS.Lib.Serial
import ShikiOS.Lib.Trace
import ShikiOS.Lib.Triple
import ShikiOS.Lib.Wp
