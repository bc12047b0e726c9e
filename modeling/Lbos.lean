import Lbos.Mem.PageFrameAllocator
import Lbos.Lib.Chain
import Lbos.Lib.Transition
import Lbos.Mem.FrameBitmap
import Lbos.Lib.Loop
import Lbos.Mem.Paging
import Lbos.Mem.PagingSpec
import Lbos.Mem.MappingLaws
import Lbos.Arch.Cpu
import Lbos.Mem.Process
import Lbos.Arch.Traps
import Lbos.Mem.AddressSpace
import Lbos.Kernel.System
import Lbos.Arch.Interrupt
import Lbos.Kernel.Spawn
import Lbos.Kernel.Consistent
import Lbos.Kernel.Invariant
import Lbos.Kernel.Boot
import Lbos.Kernel.DirectMap
import Lbos.Kernel.SyscallReturn
import Lbos.Kernel.UserReturn
import Lbos.Kernel.ProcessTable
import Lbos.Kernel.KernelHalf
import Lbos.Kernel.History
import Lbos.Kernel.Reaping
import Lbos.Kernel.SavedContext
import Lbos.Kernel.SpawnSupply
import Lbos.Kernel.ReadyQueue
import Lbos.Kernel.Ownership
import Lbos.Kernel.ForkReturn
import Lbos.Mem.FrameSupply
import Lbos.Arch.Pic
import Lbos.Kernel.InterruptAck
import Lbos.Lib.Supply
import Lbos.Kernel.PagesMapped
import Lbos.Kernel.FailedCreation
import Lbos.Mem.FirstFit
import Lbos.Kernel.BootModules
import Lbos.Mem.LoadWrites
import Lbos.CString
import Lbos.Fs.Vfs
import Lbos.Fs.MountTable
import Lbos.Fs.Dispatch
import Lbos.Lib.Bytes
import Lbos.Fs.Initrd
import Lbos.Tools.CreateInitrd
import Lbos.Fs.ImageRoundTrip
import Lbos.Mem.FrameSet
import Lbos.Mem.PageContents
import Lbos.Kernel.DemandPaging
import Lbos.Kernel.ModuleLoad
import Lbos.Kernel.ForkClone
import Lbos.Fs.Listing
import Lbos.Fs.InitrdLoads
import Lbos.Fs.ImageBounds
import Lbos.Kernel.UserPointers
import Lbos.Kernel.FirstDispatch
import Lbos.Kernel.WaitResults
import Lbos.Kernel.DispatchOrder
import Lbos.Lib.Stream
import Lbos.Fs.FileStream
import Lbos.Lib.Argmax
import Lbos.Fs.MountResolution
import Lbos.Fs.MountedInitrd
import Lbos.Fs.MountUndo
import Lbos.Tools.ImageLimits
import Lbos.Lib.Numeral
import Lbos.Vsnprintf
import Lbos.FormatReading
import Lbos.FormatRoom
import Lbos.FormatText
import Lbos.Lib.SwapEnds
import Lbos.Drivers.Serial
import Lbos.Numerals
import Lbos.Drivers.SerialWrite
import Lbos.Lib.Scan
import Lbos.Log
import Lbos.FormatEnd
import Lbos.LogCall
import Lbos.LogEnd
import Lbos.StringOrder
import Lbos.Lib.Search
import Lbos.Strstr
import Lbos.Lib.Handout
import Lbos.Kernel.Interleaving
import Lbos.Kernel.SlotReuse
import Lbos.Lib.Spaces
import Lbos.Mem.ForkWrites
import Lbos.Kernel.PrivateMemory
import Lbos.Lib.RegionMap
import Lbos.Mem.PageMap
import Lbos.Kernel.DispatchOnce
import Lbos.Lib.Segments
import Lbos.Arch.DescriptorTables
import Lbos.Kernel.Privilege
import Lbos.Arch.TrapFrames
import Lbos.Lib.Service
import Lbos.Lib.ReadOnlyFs
import Lbos.Fs.FileService
import Lbos.Kernel.RamdiskTests
import Lbos.LogReads
import Lbos.LogText
