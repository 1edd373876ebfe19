import Pintos.Logic.Exec
import Pintos.Logic.Bytes
import Pintos.Devices.Block
import Pintos.Filesys.Cache
import Pintos.Properties.Cache
import Pintos.Filesys.Kernel
import Pintos.Filesys.Inode
import Pintos.Filesys.Directory
import Pintos.Filesys.Filesys
import Pintos.Properties.Frames
import Pintos.Properties.References
import Pintos.Logic.IndexTree
import Pintos.Properties.Layout
import Pintos.Properties.FreeMap
import Pintos.Properties.Reserve
import Pintos.Properties.Unreserve
import Pintos.Lib.List
import Pintos.Lib.MergeSort
import Pintos.Threads.Synch
import Pintos.Properties.Waits
import Pintos.Properties.Donation
import Pintos.Logic.Critical
import Pintos.Userprog.Inodes
import Pintos.Userprog.Syscall
import Pintos.Properties.FileLock
import Pintos.Properties.Strings
import Pintos.Userprog.Args
import Pintos.Properties.Args
import Pintos.Properties.CommandLine
import Pintos.Userprog.Process
import Pintos.Properties.Children
import Pintos.Properties.ExecResult
import Pintos.Properties.WaitStatus
import Pintos.Userprog.Exit
import Pintos.Userprog.Descriptors
import Pintos.Properties.ExitReleases
import Pintos.Properties.Descriptors
import Pintos.Threads.Schedule
import Pintos.Properties.Queues
import Pintos.Properties.Effects
import Pintos.Properties.Wakeups
import Pintos.Properties.Sleepers
import Pintos.Threads.FixedPoint
import Pintos.Properties.AllList
import Pintos.Properties.FixedPoint
import Pintos.Properties.BestPick
import Pintos.Properties.Preemption
import Pintos.Properties.HeldLocks
import Pintos.Properties.Mlfqs
import Pintos.Properties.ReadyOrder
import Pintos.Properties.Conditions
import Pintos.Logic.Ledger
import Pintos.Vm.Interleaving
import Pintos.Properties.Paging
import Pintos.Properties.Serial
import Pintos.Properties.SwapSlots
import Pintos.Properties.SlotLedger
import Pintos.Properties.FaultPaths
import Pintos.Properties.LazyLoading
import Pintos.Properties.Mappings
import Pintos.Properties.Residency
import Pintos.Properties.Overlap
import Pintos.Vm.Reservation
import Pintos.Properties.Reservation
import Pintos.Vm.Guarded
import Pintos.Properties.Guarded
import Pintos.Vm.Swap
import Pintos.Properties.Swap
import Pintos.Lib.Hash
import Pintos.Lib.Links
import Pintos.Logic.WeakOrder
import Pintos.Properties.Links
import Pintos.Properties.ListSort
import Pintos.Vm.PageTable
import Pintos.Properties.PageTable
import Pintos.Filesys.Accesses
import Pintos.Filesys.Path
import Pintos.Properties.Path
import Pintos.Properties.Allocation
import Pintos.Properties.FullDisk
import Pintos.Properties.FailedExtension
import Pintos.Properties.Growth
import Pintos.Properties.Writing
import Pintos.Properties.LostData
import Pintos.Properties.Ownership
import Pintos.Logic.Ram
import Pintos.Threads.Malloc
import Pintos.Properties.Palloc
import Pintos.Properties.Malloc
import Pintos.Properties.Grants
import Pintos.Lib.Arithmetic
import Pintos.Properties.Division
import Pintos.Properties.Sectors
import Pintos.Properties.Clients
import Pintos.Properties.Creation
import Pintos.Properties.Serving
import Pintos.Properties.Formatting
import Pintos.Properties.Isolation
