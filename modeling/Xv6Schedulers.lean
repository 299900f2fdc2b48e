import Xv6Schedulers.Bio.Demand
import Xv6Schedulers.Console.LineDiscipline
import Xv6Schedulers.Fs.FileRead
import Xv6Schedulers.Fs.Reservation
import Xv6Schedulers.Kernel.Assembly
import Xv6Schedulers.Lifecycle.Kill
import Xv6Schedulers.Lifecycle.Pids
import Xv6Schedulers.Lifecycle.Wait
import Xv6Schedulers.Locking.Deadlock
import Xv6Schedulers.Locking.Switch
import Xv6Schedulers.Locking.Threads
import Xv6Schedulers.Log.Admission
import Xv6Schedulers.Log.Crash
import Xv6Schedulers.Malloc.Process
import Xv6Schedulers.Mkfs.ReadBack
import Xv6Schedulers.Mkfs.Trusted
import Xv6Schedulers.Pipe.Wakeup
import Xv6Schedulers.Sched.Bypass
import Xv6Schedulers.Sched.Classes
import Xv6Schedulers.Sched.Lottery
import Xv6Schedulers.Sched.RoundRobin
import Xv6Schedulers.Sched.Selection
import Xv6Schedulers.Sched.Share
import Xv6Schedulers.Shell.Terminate
import Xv6Schedulers.SleepLock.Exclusion
import Xv6Schedulers.Text.Grep
import Xv6Schedulers.Text.Memmove
import Xv6Schedulers.Text.Printf
import Xv6Schedulers.Virtio.Disk
import Xv6Schedulers.Vm.Arguments
import Xv6Schedulers.Vm.ForkPrio
import Xv6Schedulers.Vm.Translate
