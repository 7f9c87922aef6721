import StakOS.Lib.Memory
import StakOS.Pmm.Bitmap
import StakOS.Pmm.Init
import StakOS.Pmm.Contract
import StakOS.Kmalloc.Arena
import StakOS.Kmalloc.Heap
import StakOS.Kmalloc.Refine
import StakOS.Kmalloc.Runs
import StakOS.Kmalloc.Statements
import StakOS.Kmalloc.Interrupts
import StakOS.Kmalloc.Reaping
import StakOS.Elf.Load
import StakOS.Process.Kernel
import StakOS.Lib.Queue
import StakOS.Process.Create
import StakOS.Scheduler.Queue
import StakOS.Scheduler.Invariant
import StakOS.Scheduler.Reap
import StakOS.Scheduler.Create
import StakOS.Scheduler.Runs
import StakOS.Lib.Ownership
import StakOS.Pmm.Used
import StakOS.Paging.Slots
import StakOS.Paging.Mapping
import StakOS.Isolation.Frames
import StakOS.Isolation.Spaces
import StakOS.Isolation.Boot
import StakOS.Isolation.Runs
import StakOS.Isolation.Leak
import StakOS.Pmm.Window
import StakOS.Drivers.Keyboard
import StakOS.Lib.CString
import StakOS.Ramfs.Table
import StakOS.Shell.Parse
import StakOS.Shell.Run
import StakOS.Paging.Finite
import StakOS.Paging.Walk
import StakOS.Elf.Image
import StakOS.Elf.Fidelity
import StakOS.Elf.Reads
import StakOS.Drivers.Vga
import StakOS.Scheduler.Blocks
import StakOS.Scheduler.Threads
import StakOS.Scheduler.Leaving
import StakOS.Scheduler.Races
import StakOS.Syscall.Handler
import StakOS.Syscall.Files
import StakOS.Syscall.Pointers
import StakOS.Kmalloc.Coalesced
import StakOS.Kmalloc.Requests
import StakOS.Kmalloc.DoubleFree
import StakOS.Pmm.BootInfo
import StakOS.Isolation.Rollback
import StakOS.Paging.Release
import StakOS.Isolation.UserStack
import StakOS.Cpu.Stubs
import StakOS.Cpu.Runs
import StakOS.Cpu.Registers
import StakOS.Lib.Numeral
import StakOS.Shell.Number
import StakOS.Drivers.Print
import StakOS.Drivers.Shift
import StakOS.Lib.Rotation
import StakOS.Scheduler.RoundRobin
import StakOS.Isolation.KernelStack
import StakOS.Scheduler.Slice
import StakOS.Paging.Built
import StakOS.Paging.Clone
import StakOS.Paging.Cloned
import StakOS.Lib.Sweep
import StakOS.Scheduler.Orphans
import StakOS.Isolation.Reaper
import StakOS.Isolation.PidReuse
import StakOS.Drivers.Console
import StakOS.Elf.Segment
import StakOS.Lib.Budget
import StakOS.Scheduler.Latency
import StakOS.Drivers.Interrupts
import StakOS.Cpu.Descriptors
import StakOS.Cpu.Exceptions
import StakOS.Kmalloc.Restore
import StakOS.Shell.ProcessCommands
import StakOS.Drivers.Timer
import StakOS.Shell.MemoryCommands
import StakOS.Cpu.Usermode
