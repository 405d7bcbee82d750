import Beryllium.Machine.Memory
import Beryllium.Machine.System
import Beryllium.Machine.Search
import Beryllium.Machine.CStr
import Beryllium.Machine.Bytes
import Beryllium.Machine.DList
import Beryllium.Machine.Forest
import Beryllium.Machine.Fifo
import Beryllium.Machine.ArrayLoop
import Beryllium.Machine.ShiftQueue
import Beryllium.Machine.RoundRobin
import Beryllium.Machine.X86
import Beryllium.Lib.Mem
import Beryllium.Lib.Str
import Beryllium.Lib.Lock
import Beryllium.Lib.Tree
import Beryllium.Lib.List
import Beryllium.Lib.ListSeq
import Beryllium.Lib.LinkedTree
import Beryllium.Lib.TreeWalk
import Beryllium.Lib.TreeSystem
import Beryllium.Lib.TreeStep
import Beryllium.Lib.TreeBooks
import Beryllium.Heap.Malloc
import Beryllium.Heap.Block
import Beryllium.Heap.Chain
import Beryllium.Heap.Surgery
import Beryllium.Heap.Step
import Beryllium.Heap.Safety
import Beryllium.X86.PageAllocator
import Beryllium.X86.Ownership
import Beryllium.X86.Paging
import Beryllium.X86.FrameCount
import Beryllium.X86.IdentityMap
import Beryllium.X86.Memory
import Beryllium.X86.PageMap
import Beryllium.X86.HeapBreak
import Beryllium.X86.Dealloc
import Beryllium.X86.PageRuns
import Beryllium.X86.Keyboard
import Beryllium.IntegratorCp.Memory
import Beryllium.Vfs.Path
import Beryllium.Vfs.Mount
import Beryllium.Vfs.MountMap
import Beryllium.Vfs.Node
import Beryllium.Vfs.MountPoint
import Beryllium.Vfs.Open
import Beryllium.Vfs.Create
import Beryllium.Vfs.PathBlocks
import Beryllium.Vfs.MountOpen
import Beryllium.Vfs.OpenBlocks
import Beryllium.Vfs.OpenValid
import Beryllium.Initrd.Init
import Beryllium.Initrd.Populate
import Beryllium.Initrd.Safe
import Beryllium.Initrd.Build
import Beryllium.Initrd.RoundTrip
import Beryllium.Initrd.Lookup
import Beryllium.X86.Placement
import Beryllium.IntegratorCp.Sbrk
import Beryllium.Heap.Coalesce
import Beryllium.Heap.Realloc
import Beryllium.Heap.Request
import Beryllium.Printf.DoPrintf
import Beryllium.Printf.Emit
import Beryllium.Printf.Format
import Beryllium.Printf.Scan
import Beryllium.Timing.Timer
import Beryllium.Timing.Tick
import Beryllium.Timing.Firing
import Beryllium.Timing.Pending
import Beryllium.Kernel.Input
import Beryllium.Kernel.Scheduler
import Beryllium.Kernel.Terminal
import Beryllium.Kernel.Thread
import Beryllium.Kernel.Device
import Beryllium.Kernel.Watchdog
import Beryllium.Lib.ListWhole
import Beryllium.Lib.TreeRoot
import Beryllium.Kernel.ThreadStack
import Beryllium.X86.Regions
import Beryllium.X86.RegionList
import Beryllium.Timing.Handlers
import Beryllium.Timing.Deregister
import Beryllium.Timing.Replace
import Beryllium.Printf.Overread
import Beryllium.Timing.Uptime
import Beryllium.X86.FrameSet
import Beryllium.X86.OrderedArray
import Beryllium.Lib.MemRange
import Beryllium.Initrd.Verify
import Beryllium.Vfs.Sysfs
import Beryllium.Kernel.DeviceTree
import Beryllium.X86.PlacementRuns
import Beryllium.X86.PageSearch
import Beryllium.Lib.Strtok
import Beryllium.Machine.I386
import Beryllium.Machine.Nested
import Beryllium.X86.Stubs
import Beryllium.Machine.Pic
import Beryllium.X86.Irq
import Beryllium.Machine.Descriptor
import Beryllium.X86.Descriptors
import Beryllium.Timing.Periodic
import Beryllium.Kernel.Ticks
import Beryllium.Machine.Transmitter
import Beryllium.X86.Serial
import Beryllium.IntegratorCp.Serial
import Beryllium.Kernel.Coroutines
import Beryllium.Kernel.Klog
import Beryllium.Machine.Counter
import Beryllium.X86.Pit
import Beryllium.X86.Reader
import Beryllium.X86.Heap
import Beryllium.Vfs.Devices
