import Nachos.Bin.Coff2Noff
import Nachos.Bin.Coff2NoffMeaning
import Nachos.Filesys.Allocation
import Nachos.Filesys.Blocking
import Nachos.Filesys.Consistency
import Nachos.Filesys.Directory
import Nachos.Filesys.FileHeaderMeaning
import Nachos.Filesys.FileMap
import Nachos.Filesys.FileSys
import Nachos.Filesys.FileSysRun
import Nachos.Filesys.Names
import Nachos.Filesys.OpenFile
import Nachos.Filesys.OpenFileMeaning
import Nachos.Filesys.OpenHandles
import Nachos.Filesys.RangeChecks
import Nachos.Filesys.SynchDiskRun
import Nachos.Library.BinaryHeap
import Nachos.Library.Buffer
import Nachos.Library.CString
import Nachos.Library.Chain
import Nachos.Library.Execution
import Nachos.Library.I386
import Nachos.Library.Interleaving
import Nachos.Library.Ledger
import Nachos.Library.Placement
import Nachos.Library.Raising
import Nachos.Library.Ring
import Nachos.Library.SlotTable
import Nachos.Library.SortedList
import Nachos.Library.Uniprocessor
import Nachos.Machine.Arithmetic
import Nachos.Machine.Basic
import Nachos.Machine.DiskLatency
import Nachos.Machine.Interrupt
import Nachos.Machine.InterruptOrder
import Nachos.Machine.MemoryLaws
import Nachos.Machine.MipsI
import Nachos.Machine.MipsSim
import Nachos.Machine.Requests
import Nachos.Machine.Restart
import Nachos.Machine.Translate
import Nachos.Threads.Destruction
import Nachos.Threads.LinkedList
import Nachos.Threads.LockRun
import Nachos.Threads.Monitor
import Nachos.Threads.Scheduler
import Nachos.Threads.SemaphoreRun
import Nachos.Threads.Sleep
import Nachos.Threads.Switch
import Nachos.Threads.Synch
import Nachos.Threads.SynchListRun
import Nachos.Threads.ThreadRun
import Nachos.Userprog.AddrSpace
import Nachos.Userprog.BitMap
import Nachos.Userprog.BitMapSet
import Nachos.Userprog.ChildRings
import Nachos.Userprog.Confinement
import Nachos.Userprog.ContextSwitch
import Nachos.Userprog.CreateRun
import Nachos.Userprog.CreateSteps
import Nachos.Userprog.DemandLoading
import Nachos.Userprog.Descriptors
import Nachos.Userprog.DirtyBits
import Nachos.Userprog.Eviction
import Nachos.Userprog.Exception
import Nachos.Userprog.ExecArguments
import Nachos.Userprog.ExecRun
import Nachos.Userprog.FailedExec
import Nachos.Userprog.FdMap
import Nachos.Userprog.FrameTable
import Nachos.Userprog.Join
import Nachos.Userprog.JoinRun
import Nachos.Userprog.KernelSafety
import Nachos.Userprog.Lifetime
import Nachos.Userprog.LoadPage
import Nachos.Userprog.PageContracts
import Nachos.Userprog.Paging
import Nachos.Userprog.RegisterFile
import Nachos.Userprog.SpaceLayout
import Nachos.Userprog.StackArgs
import Nachos.Userprog.SwapFiles
import Nachos.Userprog.SynchConsoleRun
import Nachos.Userprog.Syscall
import Nachos.Userprog.TimeSlice
import Nachos.Userprog.TrapProgress
import Nachos.Userprog.UserBuffers
import Nachos.Userprog.UserMemory
import Nachos.Userprog.UserPointers
import Nachos.Userprog.Vm
