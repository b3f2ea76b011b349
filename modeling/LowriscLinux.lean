import LowriscLinux.Config.Text
import LowriscLinux.Config.Literal
import LowriscLinux.Config.Scan
import LowriscLinux.Config.Parser
import LowriscLinux.Config.Walk
import LowriscLinux.Config.Detect
import LowriscLinux.Config.FindKey
import LowriscLinux.Config.Simulate
import LowriscLinux.Config.Size
import LowriscLinux.Config.Passes
import LowriscLinux.Config.Lookup
import LowriscLinux.Config.Cut
import LowriscLinux.Config.Shift
import LowriscLinux.Config.Contained
import LowriscLinux.Kernel.PtRegs
import LowriscLinux.Kernel.Ptrace
import LowriscLinux.Lib.Holding
import LowriscLinux.Mm.Fault
import LowriscLinux.Kernel.Signal
import LowriscLinux.Kernel.Rewind
import LowriscLinux.Mm.Pte
import LowriscLinux.Kernel.Syscall
import LowriscLinux.Lib.Halting
import LowriscLinux.Lib.Words
import LowriscLinux.Mm.Uaccess
import LowriscLinux.Mm.UaccessEnd
import LowriscLinux.Kernel.ReturnPath
import LowriscLinux.Kernel.Rwlock
import LowriscLinux.Kernel.Ipi
import LowriscLinux.Mm.Vmalloc
import LowriscLinux.Kernel.Fpu
import LowriscLinux.Kernel.Exec
import LowriscLinux.Kernel.Sigcontext
import LowriscLinux.Kernel.Sigreturn
import LowriscLinux.Kernel.Pum
import LowriscLinux.Kernel.Asm
import LowriscLinux.Kernel.Entry
import LowriscLinux.Kernel.EntryFacts
import LowriscLinux.Kernel.Trap
import LowriscLinux.Kernel.Nesting
import LowriscLinux.Kernel.TaskSteps
import LowriscLinux.Kernel.Transparent
import LowriscLinux.Mm.MemAccess
import LowriscLinux.Mm.UaccessExact
import LowriscLinux.Mm.ClearUser
import LowriscLinux.Mm.Memcpy
import LowriscLinux.Mm.Memset
import LowriscLinux.Mm.UserAccess
import LowriscLinux.Config.Integer
import LowriscLinux.Config.Faults
import LowriscLinux.Config.Tokens
import LowriscLinux.Config.Names
import LowriscLinux.Config.Strings
import LowriscLinux.Mm.PteAttrs
import LowriscLinux.Kernel.Vector
import LowriscLinux.Kernel.Dispatch
import LowriscLinux.Mm.FaultEnd
import LowriscLinux.Lib.Traced
import LowriscLinux.Lib.CInt
import LowriscLinux.Video.Iris
import LowriscLinux.Video.Mode
import LowriscLinux.Video.Stride
import LowriscLinux.Video.Pan
import LowriscLinux.Lib.Fields
import LowriscLinux.Video.Palette
import LowriscLinux.Kernel.AltStack
import LowriscLinux.Kernel.SyscallArgs
import LowriscLinux.Kernel.FpuLazy
import LowriscLinux.Lib.Reserved
import LowriscLinux.Lib.IntType
import LowriscLinux.Kernel.Cmpxchg
import LowriscLinux.Kernel.Atomic64
import LowriscLinux.Kernel.SysRiscv
import LowriscLinux.Kernel.RwlockCan
import LowriscLinux.Mm.Ioremap
import LowriscLinux.Mm.Swap
import LowriscLinux.Lib.ZeroByte
import LowriscLinux.Mm.WordAtATime
import LowriscLinux.Kernel.Stacktrace
import LowriscLinux.Lib.Visit
import LowriscLinux.Lib.Explore
import LowriscLinux.Kernel.SaveTrace
import LowriscLinux.Mm.BootTable
import LowriscLinux.Kernel.Timex
import LowriscLinux.Kernel.Delay
import LowriscLinux.Lib.Reading
import LowriscLinux.Config.Pointers
import LowriscLinux.Config.PointerParser
import LowriscLinux.Config.PointerFind
import LowriscLinux.Config.Bounds
import LowriscLinux.Lib.Linear
import LowriscLinux.Kernel.Atomic
import LowriscLinux.Lib.Serial
import LowriscLinux.Kernel.Spinlock
import LowriscLinux.Lib.Radix
import LowriscLinux.Lib.Halves
import LowriscLinux.Mm.AddressSpace
import LowriscLinux.Mm.Tlb
import LowriscLinux.Kernel.Smpboot
import LowriscLinux.Kernel.Bitops
import LowriscLinux.Kernel.WorkFlags
import LowriscLinux.Kernel.Libgcc
import LowriscLinux.Kernel.Cpuinfo
import LowriscLinux.Config.Block
import LowriscLinux.Config.Driver
import LowriscLinux.Mm.Bootmem
import LowriscLinux.Mm.Iounmap
import LowriscLinux.Video.Scanout
