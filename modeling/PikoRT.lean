import PikoRT.Lib.Run
import PikoRT.Lib.Buddy
import PikoRT.Kernel.Bitops
import PikoRT.Mm.Page
import PikoRT.Mm.PageBuddy
import PikoRT.Mm.PageRun
import PikoRT.Mm.PageLayout
import PikoRT.Kernel.Bitmap
import PikoRT.Sched.Model
import PikoRT.Sched.RunQueue
import PikoRT.Sched.Agreement
import PikoRT.Sched.Labels
import PikoRT.Lib.Epochs
import PikoRT.Sched.TimeSlices
import PikoRT.Sync.Kernel
import PikoRT.Sync.Place
import PikoRT.Sync.Mutex
import PikoRT.Sync.Pthread
import PikoRT.Kernel.LinuxList
import PikoRT.Sync.Cond
import PikoRT.Sync.Join
import PikoRT.Thread.TaskList
import PikoRT.Lib.Tiling
import PikoRT.Libc.Blocks
import PikoRT.Libc.HeapRestore
import PikoRT.Softirq.Tasklet
import PikoRT.Softirq.TaskletQueue
import PikoRT.Softirq.TaskletCalls
import PikoRT.Time.Owners
import PikoRT.Mm.Slab
import PikoRT.Mm.SlabPage
import PikoRT.Mm.SlabRun
import PikoRT.Arch.Entry
import PikoRT.Arch.Sigevent
import PikoRT.Libc.Printf
import PikoRT.Libc.PrintfBound
import PikoRT.Libc.PrintfPieces
import PikoRT.Mm.SlabRestore
import PikoRT.Fs.Dentries
import PikoRT.Fs.Descriptors
import PikoRT.Fs.OpenFails
import PikoRT.Irq.Registration
import PikoRT.Libc.MallocExact
import PikoRT.Mm.PageComplete
import PikoRT.Thread.Create
import PikoRT.Time.Deadline
import PikoRT.Softirq.Daemon
import PikoRT.Kernel.Cbuf
import PikoRT.Sched.RoundRobin
import PikoRT.Serial.Stream
import PikoRT.Thread.Context
import PikoRT.Thread.Switch
import PikoRT.Time.Drift
import PikoRT.Time.TimeLeft
import PikoRT.Time.Walk
import PikoRT.Time.Alloc
import PikoRT.Time.CreateFails
import PikoRT.Time.Sleep
import PikoRT.Lib.Service
import PikoRT.Softirq.TaskletOrder
import PikoRT.Fs.Drivers
import PikoRT.Fs.PathWalk
import PikoRT.Fs.Seek
import PikoRT.Fs.Transfers
import PikoRT.Fs.RomfsRead
import PikoRT.Lib.Numerals
import PikoRT.Libc.Itoa
import PikoRT.Fs.Mtdram
import PikoRT.Fs.DevMem
import PikoRT.Arch.SignalTable
import PikoRT.Fs.RomfsWalk
import PikoRT.Lib.Chain
import PikoRT.Fs.Mmap
import PikoRT.Fs.Tmpfs
import PikoRT.Fs.SilentWalk
import PikoRT.Fs.SysStat
import PikoRT.Fs.Mount
import PikoRT.Libc.Ucontext
import PikoRT.Libc.Coroutine
import PikoRT.Libc.ItoaFaults
import PikoRT.Kernel.BitSearch
import PikoRT.Lib.Deques
import PikoRT.Kernel.BitmapLists
import PikoRT.Serial.RxCount
import PikoRT.Fs.DevRandom
import PikoRT.Lib.Fields
import PikoRT.Lib.LineEditor
import PikoRT.User.Shell
import PikoRT.User.Splitting
import PikoRT.User.Editing
import PikoRT.User.Overruns
import PikoRT.Lib.RingCuts
import PikoRT.Lib.RingFamily
import PikoRT.Lib.Cursors
import PikoRT.Kernel.ListCalls
import PikoRT.Sched.Links
import PikoRT.Sched.LinkedBits
import PikoRT.Sync.MutexQueue
import PikoRT.Fs.OpenWalk
import PikoRT.Fs.Serving
import PikoRT.Fs.MountedImage
import PikoRT.Lib.Terminal
import PikoRT.User.Display
import PikoRT.Arch.Faults
import PikoRT.Kernel.Printk
import PikoRT.Kernel.PrintkContext
import PikoRT.Thread.PageAccount
import PikoRT.Fs.MtdChar
import PikoRT.User.Echo
import PikoRT.Fs.OpenReturns
import PikoRT.User.Cat
