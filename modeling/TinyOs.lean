import TinyOs.Block.Bio
import TinyOs.Block.ByteIo
import TinyOs.Block.Channel
import TinyOs.Block.Completion
import TinyOs.Block.Progress
import TinyOs.Block.Requests
import TinyOs.Block.Sections
import TinyOs.Block.Waiters
import TinyOs.Console.Line
import TinyOs.Console.Read
import TinyOs.Exec.Bytes
import TinyOs.Exec.Elf
import TinyOs.Exec.ElfSafe
import TinyOs.Exec.InitStack
import TinyOs.Exec.Stored
import TinyOs.Exec.Strvec
import TinyOs.Execve
import TinyOs.Ext2.Dir
import TinyOs.Ext2.Icache
import TinyOs.Ext2.Lookup
import TinyOs.Ext2.OneCopy
import TinyOs.Ext2.ReadData
import TinyOs.Ext2.Super
import TinyOs.Fork
import TinyOs.Fpu
import TinyOs.Fs.FileCalls
import TinyOs.Fs.Flock
import TinyOs.Fs.FlockRun
import TinyOs.Fs.FlockSafe
import TinyOs.Fs.Namei
import TinyOs.Fs.Names
import TinyOs.Fs.Nlink
import TinyOs.Fs.Open
import TinyOs.Fs.Pipe
import TinyOs.Fs.PipeAtomic
import TinyOs.Fs.PipeEnds
import TinyOs.Fs.PipeFifo
import TinyOs.Fs.PipeWait
import TinyOs.Fs.Procfs
import TinyOs.Fs.RamArray
import TinyOs.Fs.RamFile
import TinyOs.Fs.Ramfs
import TinyOs.Fs.RamfsEdit
import TinyOs.Fs.RamfsRun
import TinyOs.Fs.RamfsTree
import TinyOs.Fs.Readdir
import TinyOs.Fs.Tree
import TinyOs.Image
import TinyOs.Invariant
import TinyOs.Ipc.Attach
import TinyOs.Ipc.Blocked
import TinyOs.Ipc.Calls
import TinyOs.Ipc.Context
import TinyOs.Ipc.ForkFix
import TinyOs.Ipc.Futex
import TinyOs.Ipc.FutexWait
import TinyOs.Ipc.FutexWake
import TinyOs.Ipc.Kill
import TinyOs.Ipc.Lifetime
import TinyOs.Ipc.Segment
import TinyOs.Ipc.Sem
import TinyOs.Ipc.SemOpen
import TinyOs.Ipc.SemWake
import TinyOs.Ipc.Shm
import TinyOs.Ipc.ShmMaps
import TinyOs.Ipc.ShmSections
import TinyOs.Ipc.Signal
import TinyOs.Ipc.SignalLoss
import TinyOs.Ipc.SignalReturn
import TinyOs.Ipc.Table
import TinyOs.Kbd
import TinyOs.Library.ByteMem
import TinyOs.Library.Calls
import TinyOs.Library.Count
import TinyOs.Library.Dyadic
import TinyOs.Library.Effects
import TinyOs.Library.Forest
import TinyOs.Library.Growable
import TinyOs.Library.LinkedList
import TinyOs.Library.Locks
import TinyOs.Library.Loop
import TinyOs.Library.Machine
import TinyOs.Library.Ring
import TinyOs.Library.Scan
import TinyOs.Library.Transition
import TinyOs.Library.X86
import TinyOs.Lifecycle
import TinyOs.Memlayout
import TinyOs.Mm.Acct
import TinyOs.Mm.Allocator
import TinyOs.Mm.Buddy
import TinyOs.Mm.Confine
import TinyOs.Mm.Copy
import TinyOs.Mm.CopyExact
import TinyOs.Mm.Demand
import TinyOs.Mm.Fault
import TinyOs.Mm.Heap
import TinyOs.Mm.HeapBlocks
import TinyOs.Mm.HeapInvariant
import TinyOs.Mm.HeapRep
import TinyOs.Mm.HeapRun
import TinyOs.Mm.HeapSteps
import TinyOs.Mm.Layout
import TinyOs.Mm.Mem
import TinyOs.Mm.Mmap
import TinyOs.Mm.PageOps
import TinyOs.Mm.Pagetable
import TinyOs.Mm.Phys
import TinyOs.Mm.Pmm
import TinyOs.Mm.Refs
import TinyOs.Mm.Slab
import TinyOs.Mm.SlabOwn
import TinyOs.Mm.Space
import TinyOs.Mm.Tiling
import TinyOs.Mm.TwoLevel
import TinyOs.Mm.Vm
import TinyOs.Nanosleep
import TinyOs.Printf
import TinyOs.PrivateMemory
import TinyOs.Proc
import TinyOs.Ramfs.Create
import TinyOs.Ramfs.Creation
import TinyOs.Ramfs.Linear
import TinyOs.Ramfs.Sections
import TinyOs.Ramfs.Slots
import TinyOs.Ramfs.Steps
import TinyOs.Reachable
import TinyOs.Sched.Dispatch
import TinyOs.Sched.Exit
import TinyOs.Sched.Kin
import TinyOs.Sched.Machine
import TinyOs.Sched.Queue
import TinyOs.Sched.Steps
import TinyOs.Sched.Swtch
import TinyOs.Sched.Wait
import TinyOs.Sched.Waitpid
import TinyOs.Shell.Parse
import TinyOs.Shell.Pipeline
import TinyOs.Shell.Utf8
import TinyOs.Steps
import TinyOs.System
import TinyOs.Tidy
import TinyOs.Trap
import TinyOs.TrapReturn
import TinyOs.UserCopy
