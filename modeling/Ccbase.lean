import Ccbase.Lib.SizeT
import Ccbase.Lib.OrdSet
import Ccbase.Lib.OrdMap
import Ccbase.Lib.Chain
import Ccbase.Memory.EagerCount
import Ccbase.Memory.EventCount
import Ccbase.Memory.VmmHandles
import Ccbase.Net.TaskQueue
import Ccbase.Net.ConnectionPool
import Ccbase.Net.TcpClient
import Ccbase.Net.EpollEvents
import Ccbase.Lib.Fragments
import Ccbase.Lib.Iovec
import Ccbase.Net.SocketOperation
import Ccbase.Net.Transfer
import Ccbase.Net.Returns
import Ccbase.Net.Resume
import Ccbase.Net.Message
import Ccbase.Net.Flush
import Ccbase.Net.ParseMessage
import Ccbase.Lib.MultiMap
import Ccbase.Lib.Tiling
import Ccbase.DynamicMem.Blocks
import Ccbase.DynamicMem.BestFit
import Ccbase.DynamicMem.Inv
import Ccbase.DynamicMem.Steps
import Ccbase.DynamicMem.Free
import Ccbase.DynamicMem.Pool
import Ccbase.DynamicMem.Live
import Ccbase.DynamicMem.Stats
import Ccbase.Testing.Philox
import Ccbase.Testing.Random
import Ccbase.Lib.Ring
import Ccbase.Optimizer.MemoryMap
import Ccbase.Libc.RobinHood
import Ccbase.Libc.RobinHoodInsert
import Ccbase.Libc.RobinHoodErase
import Ccbase.Lib.Links
import Ccbase.Nice.HQueue
import Ccbase.Libc.ConcurrentQueue
import Ccbase.Libc.ConcurrentQueueAnswers
import Ccbase.Libc.ConcurrentQueueInv
import Ccbase.Libc.ConcurrentQueueWake
import Ccbase.Application.SkipList
import Ccbase.Application.SkipListInv
import Ccbase.Application.SkipListOps
import Ccbase.Lib.Bytes
import Ccbase.Copilot.Malloc
import Ccbase.Copilot.MallocOps
import Ccbase.Copilot.MallocRuns
import Ccbase.Application.DefaultAllocator
import Ccbase.Application.DefaultAllocatorRuns
import Ccbase.Memory.BlockSize
import Ccbase.Memory.VmmRuns
import Ccbase.Memory.VmmFits
import Ccbase.Memory.VmmEagerFree
import Ccbase.Memory.Tidy
import Ccbase.Memory.TidyMalloc
import Ccbase.Memory.Sweep
import Ccbase.Memory.AllocatorRuns
import Ccbase.Testing.ThreadPool
import Ccbase.Testing.ThreadPoolInv
import Ccbase.Memory.Cut
import Ccbase.Net.MessageSize
import Ccbase.Net.ReceiveMessage
import Ccbase.Net.ReceiveRuns
import Ccbase.Net.ReceiveSpec
import Ccbase.Net.FlushQueue
import Ccbase.Net.SockAddr
import Ccbase.Memory.MemoryPool
import Ccbase.Memory.TraceReplay
import Ccbase.Memory.VmmOverlap
import Ccbase.Memory.VmmMmap
import Ccbase.Memory.Unpaired
import Ccbase.Lib.BitSmear
import Ccbase.Net.EventLoopGroup
import Ccbase.Libc.RobinHoodReturns
import Ccbase.Nice.HQueueCapacity
import Ccbase.Nice.HQueueThreadsRun
import Ccbase.Nice.HQueueAnswers
import Ccbase.Application.SkipListFault
import Ccbase.DynamicMem.Used
import Ccbase.DynamicMem.Keep
import Ccbase.DynamicMem.FreePart
import Ccbase.DynamicMem.Continuous
import Ccbase.DynamicMem.Calls
import Ccbase.DynamicMem.CallRuns
import Ccbase.DynamicMem.Recycle
import Ccbase.DynamicMem.KeepMisled
import Ccbase.Lib.Outcome
import Ccbase.DynamicMem.Opt
import Ccbase.DynamicMem.OptWrites
import Ccbase.DynamicMem.OptSteps
import Ccbase.DynamicMem.OptIndex
import Ccbase.Testing.PhiloxStream
import Ccbase.Testing.PhiloxBlock
import Ccbase.Testing.ThreadPoolResult
import Ccbase.Copilot.MallocCoalesce
import Ccbase.Application.SkipListBack
import Ccbase.Lib.Numeral
import Ccbase.Libc.NumberText
import Ccbase.Application.SkipListFile
import Ccbase.Lib.Overlay
import Ccbase.Libc.Vsnprintf
import Ccbase.Libc.VsnprintfTruncation
import Ccbase.Libc.VsnprintfWidth
import Ccbase.Libc.VsnprintfFormats
import Ccbase.Optimizer.BufferPool
import Ccbase.Memory.Counters
import Ccbase.Memory.Tame
import Ccbase.Memory.Release
import Ccbase.Memory.PartFree
import Ccbase.Memory.UsedSize
import Ccbase.Memory.TempStats
import Ccbase.Memory.Coalesced
import Ccbase.Memory.KeptRanges
import Ccbase.Memory.Continuous
import Ccbase.Memory.Retry
import Ccbase.Net.Link
import Ccbase.DynamicMem.OptRefines
import Ccbase.Nice.HQueueConcurrent
