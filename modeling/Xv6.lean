import Xv6.Schemes.Run
import Xv6.Schemes.Writes
import Xv6.Disk.Block
import Xv6.Log.Recovery
import Xv6.Log.CrashAtomic
import Xv6.Log.Machine
import Xv6.Log.Pins
import Xv6.Log.Invariant
import Xv6.Log.GroupCommit
import Xv6.Log.Reserve
import Xv6.Schemes.X86
import Xv6.Process.Trapframe
import Xv6.Process.Table
import Xv6.Process.Registered
import Xv6.Uthread.Library
import Xv6.Uthread.Eligible
import Xv6.Uthread.Switch
import Xv6.Uthread.Activation
import Xv6.Uthread.Preempt
import Xv6.Schemes.Pool
import Xv6.Memory.PageTable
import Xv6.Memory.Image
import Xv6.Memory.Held
import Xv6.Memory.Growproc
import Xv6.Memory.Copy
import Xv6.Memory.Load
import Xv6.Memory.Dense
import Xv6.Memory.Copyout
import Xv6.Schemes.Traced
import Xv6.Syscall.Args
import Xv6.Syscall.Checks
import Xv6.Schemes.Ring
import Xv6.Ipc.Pipe
import Xv6.Ipc.Fifo
import Xv6.Sched.Threads
import Xv6.Sched.Invariant
import Xv6.Sched.Handover
import Xv6.Sched.Kill
import Xv6.Sched.Family
import Xv6.Sched.Children
import Xv6.Sched.Effects
import Xv6.Sched.Wakeup
import Xv6.Memory.Tally
import Xv6.Memory.Tasks
import Xv6.Memory.Count
import Xv6.Memory.ForkFails
import Xv6.Memory.ExecArgs
import Xv6.Memory.ExecFails
import Xv6.Memory.Owners
import Xv6.Memory.Isolation
import Xv6.Memory.Room
import Xv6.Memory.Stray
import Xv6.Memory.Failures
import Xv6.Memory.Stack
import Xv6.Memory.StackReady
import Xv6.Memory.StackPush
import Xv6.Memory.StackLayout
import Xv6.Memory.InitialStack
import Xv6.Console.Delivery
import Xv6.Console.Screen
import Xv6.Ide.Agree
import Xv6.Ftable.Exact
import Xv6.Bcache.View
import Xv6.Net.Overrun
import Xv6.Net.Sequence
import Xv6.Net.Arp
import Xv6.Schemes.OnesComplement
import Xv6.Net.Packet
import Xv6.Net.Checksum
import Xv6.Net.TcpChecksum
import Xv6.Vm.Refine
import Xv6.Vm.Kernel
import Xv6.Vm.Copy
import Xv6.Grep.Match
import Xv6.Schemes.Lines
import Xv6.Grep.Stream
import Xv6.Schemes.Blocks
import Xv6.Umalloc.Heap
import Xv6.Umalloc.Free
import Xv6.Umalloc.Malloc
import Xv6.Umalloc.Handed
import Xv6.Shell.Parser
import Xv6.Shell.Tokens
import Xv6.Shell.Grammar
import Xv6.Shell.Accept
import Xv6.Shell.Terminate
import Xv6.Schemes.Program
import Xv6.Fs.Layout
import Xv6.Fs.Kernel
import Xv6.Fs.Inode
import Xv6.Fs.Volume
import Xv6.Fs.Sequential
import Xv6.Fs.Alloc
import Xv6.Fs.Wrote
import Xv6.Fs.Bmap
import Xv6.Fs.Update
import Xv6.Fs.Content
import Xv6.Fs.Path
import Xv6.Fs.File
import Xv6.Fs.Cached
import Xv6.Fs.Filewrite
import Xv6.Schemes.Watch
import Xv6.Fs.Logged
import Xv6.Fs.Reserve
import Xv6.Fs.Crowded
import Xv6.Fs.Directory
import Xv6.Fs.Resolve
import Xv6.Fs.Dirlink
import Xv6.Schemes.While
import Xv6.Boot.Madt
import Xv6.Schemes.Words
import Xv6.Schemes.Flat
import Xv6.Uthread.Table
import Xv6.Uthread.Context
import Xv6.Sched.Settled
import Xv6.Sched.Sleeplock
import Xv6.Sched.SleeplockSafe
import Xv6.Sched.Cli
import Xv6.Sched.CliRestored
import Xv6.Net.Wire
import Xv6.Net.ByteOrder
import Xv6.Net.Echo
import Xv6.Schemes.Moves
import Xv6.Memory.Memmove
import Xv6.Fs.Bitmap
import Xv6.Fs.BitmapExact
import Xv6.Boot.Relocate
import Xv6.Boot.Loaded
import Xv6.Shell.Runcmd
import Xv6.Shell.Wiring
import Xv6.Shell.Line
import Xv6.Schemes.Threads
import Xv6.Fs.Shared
import Xv6.Fs.Append
