import Xv6.Bio.BcacheSpec
import Xv6.Disk.VirtioSpec
import Xv6.Fs.ByteArray
import Xv6.Fs.DirSpec
import Xv6.Fs.Directory
import Xv6.Fs.FileRead
import Xv6.Fs.Namex
import Xv6.Fs.SharedWrite
import Xv6.Fs.Syscall
import Xv6.Ipc.ConsoleLine
import Xv6.Ipc.PipeFifo
import Xv6.Ipc.PipeRead
import Xv6.Ipc.PipeWakeup
import Xv6.Ipc.SleepLock
import Xv6.Kernel.Accounting
import Xv6.Kernel.Bounds
import Xv6.Kernel.CopyString
import Xv6.Kernel.ExecArgs
import Xv6.Kernel.FlatMemory
import Xv6.Kernel.Guard
import Xv6.Kernel.Isolation
import Xv6.Kernel.KallocSmp
import Xv6.Kernel.OpenFiles
import Xv6.Log.Crash
import Xv6.Log.Space
import Xv6.Memory.Memmove
import Xv6.Printf.Printint
import Xv6.Proc.KillLoops
import Xv6.Proc.LifecycleSpec
import Xv6.Proc.Pid
import Xv6.Sched.Condition
import Xv6.Sched.Spinlock
import Xv6.Trap.Kernelvec
import Xv6.Trap.Switch
import Xv6.Trap.Trampoline
import Xv6.User.Grep
import Xv6.User.HeapRuns
import Xv6.User.ShParse
import Xv6.Vm.TableMap
