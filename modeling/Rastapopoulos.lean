import Rastapopoulos.Blk.DiskRead
import Rastapopoulos.Blk.PerformRead
import Rastapopoulos.Boot.Frames
import Rastapopoulos.Common.Lists
import Rastapopoulos.Common.Serializer
import Rastapopoulos.Elf.Exec
import Rastapopoulos.Heap.Termination
import Rastapopoulos.Heap.Undo
import Rastapopoulos.Initrd.Bounds
import Rastapopoulos.Ipc.Retry
import Rastapopoulos.Ipc.SyncSend
import Rastapopoulos.Kdebug.Backtrace
import Rastapopoulos.Pmm.Bitsets
import Rastapopoulos.Pmm.MemoryMap
import Rastapopoulos.Pmm.Undo
import Rastapopoulos.Rpc.Dispatch
import Rastapopoulos.Rpc.Lexer
import Rastapopoulos.Rpc.Matching
import Rastapopoulos.Rpc.Sizes
import Rastapopoulos.Sched.IoPorts
import Rastapopoulos.Sched.SelfCheck
import Rastapopoulos.Sched.Timeouts
import Rastapopoulos.Strings.Bounded
import Rastapopoulos.Strings.Copying
import Rastapopoulos.Strings.Hex
import Rastapopoulos.Strings.Paths
import Rastapopoulos.Strings.Reading
import Rastapopoulos.Timer.Period
import Rastapopoulos.Vfs.Descriptors
import Rastapopoulos.Vmm.KernelHalf
import Rastapopoulos.Vmm.Mapped
import Rastapopoulos.Vmm.Residue
import Rastapopoulos.Vmm.TransientRuns
