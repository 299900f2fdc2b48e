import Xv6Schedulers.Kernel.Proc

/-!
# Frame — control points of the kernel threads

A kernel thread is a stack of frames.  The frame on top is what the thread does next; each frame
below is a return address together with the locals that are live there.  Control points stand
where the code calls a lock operation, `swtch`, or another modelled function:

* `acquire l`, `spin l`, `release l` are calls of `spinlock.c`; several of them may be stacked,
  they run from the top down;
* every other frame runs the C code from the point it names up to the next such call.

The code of file systems, pipes and drivers enters only through `TrapPc.service`: it takes one
condition lock at a time, and inside it may call `wakeup`, `killed` and `sleep`.
-/

namespace Xv6Schedulers.Kernel

/-- Control points of `scheduler_loteria`. -/
inductive LoteriaPc
  /-- the head of `for(;;)` -/
  | top
  /-- the head of the inner loop -/
  | next (cl : Classe) (start i : Nat)
  /-- `p->lock` has been acquired -/
  | scan (cl : Classe) (start i : Nat)
  /-- back from `swtch` -/
  | back (cl : Classe) (idx : Slot)
  /-- the lock of the dispatched process has been released -/
  | done (cl : Classe) (idx : Slot)
  deriving DecidableEq, Repr

/-- Control points of `scheduler_stride`; `best` is `min_pass_proc`. -/
inductive StridePc
  /-- the head of `for(;;)` -/
  | top
  /-- the head of the scan loop, or its end when `i = NPROC` -/
  | next (i : Nat) (best : Option Slot)
  /-- `p->lock` has been acquired -/
  | scan (i : Slot) (best : Option Slot)
  /-- back from `swtch` -/
  | back (b : Slot)
  deriving DecidableEq, Repr

/-- Control points of `yield`, `sched`, `forkret` and `sleep`. -/
inductive SchedPc
  /-- `yield`: `p->lock` has been acquired -/
  | yieldLocked
  /-- the start of `sched` -/
  | sched
  /-- `sched`: the call `swtch(&p->context, &mycpu()->context)` -/
  | swtch
  /-- `sched`: back from `swtch`, with the saved `intena` -/
  | schedRet (intena : Bool)
  /-- the first instruction of a new process -/
  | forkret
  /-- `sleep`: `p->lock` has been acquired -/
  | sleepLocked (ch : Chan) (lk : Lock)
  /-- `sleep`: `lk` has been released -/
  | sleepReleased (ch : Chan) (lk : Lock)
  /-- `sleep`: back from `sched` -/
  | sleepBack (lk : Lock)
  deriving DecidableEq, Repr

/-- Control points of `wakeup`, `kill`, `setkilled` and `killed`. -/
inductive WakePc
  | wakeupNext (ch : Option Chan) (i : Nat)
  | wakeupLocked (ch : Option Chan) (i : Slot)
  | killNext (pid : Int32) (i : Nat)
  | killLocked (pid : Int32) (i : Slot)
  | setkilledLocked
  | killedLocked
  deriving DecidableEq, Repr

inductive ForkCall
  | fork (cls : Int32)
  | forkprio (prio : Int32)
  deriving DecidableEq, Repr

/-- Control points of `allocproc`, `fork` and `forkprio`. -/
inductive ForkPc
  /-- `allocproc`: the head of the search -/
  | allocNext (call : ForkCall) (i : Nat)
  /-- `allocproc`: `p->lock` has been acquired -/
  | allocLocked (call : ForkCall) (i : Slot)
  /-- `allocpid`: `pid_lock` has been acquired -/
  | allocPid (call : ForkCall) (i : Slot)
  /-- `allocproc`: back from `allocpid` -/
  | allocFound (call : ForkCall) (i : Slot) (pid : Int32)
  /-- `wait_lock` has been acquired to set `np->parent` -/
  | setParent (i : Slot) (pid : Int32)
  /-- `np->lock` has been acquired to set `np->state` -/
  | setRunnable (i : Slot) (pid : Int32)
  /-- `forkprio`: `np->lock` has been acquired after `uvmcopy` failed -/
  | copyFailed (i : Slot)
  deriving DecidableEq, Repr

/-- Control points of `exit` and `reparent`. -/
inductive ExitPc
  | start (status : Int32)
  /-- the files and the working directory are closed -/
  | closed (status : Int32)
  /-- `reparent`: the head of the loop, `wait_lock` held -/
  | reparent (status : Int32) (i : Nat)
  /-- the parent has been woken up -/
  | woken (status : Int32)
  /-- `p->lock` has been acquired -/
  | locked (status : Int32)
  /-- back from `sched` -/
  | zombie
  deriving DecidableEq, Repr

/-- Control points of `wait`. -/
inductive WaitPc
  /-- the head of the scan, `wait_lock` held -/
  | scan (addr : UInt64) (i : Nat) (havekids : Bool)
  /-- `pp->lock` has been acquired -/
  | locked (addr : UInt64) (i : Slot)
  /-- back from `killed(p)` -/
  | killed (addr : UInt64)
  deriving DecidableEq, Repr

/-- The system calls; `other` is everything outside `proc.c`. -/
inductive Syscall
  | fork (cls : Int32)
  | forkprio (prio : Int32)
  | exit (status : Int32)
  | wait (addr : UInt64)
  | kill (pid : Int32)
  | other
  deriving DecidableEq, Repr

/-- Control points of `usertrap`, `kerneltrap` and of the code outside `proc.c`. -/
inductive TrapPc
  /-- in user space -/
  | user
  /-- `usertrap`: back from the first `killed(p)` -/
  | syscall (call : Syscall)
  /-- `usertrap`: the trap has been handled -/
  | done (timer : Bool)
  /-- `usertrap`: back from the last `killed(p)` -/
  | killed (timer : Bool)
  /-- `usertrapret` -/
  | ret
  /-- code outside `proc.c`, no lock held -/
  | service (canSleep : Bool)
  /-- code outside `proc.c`, condition lock `k` held -/
  | crit (k : Nat) (canSleep : Bool)
  /-- `kerneltrap`: the interrupt has been handled -/
  | kerneltrap (timer : Bool)
  /-- the end of `kerneltrap` -/
  | kerneltrapRet
  deriving DecidableEq, Repr

/-- A control point with its locals. -/
inductive Frame
  | acquire (l : Lock)
  | spin (l : Lock)
  | release (l : Lock)
  /-- return `v` to the frame below -/
  | ret (v : Int32)
  | loteria (pc : LoteriaPc)
  | stride (pc : StridePc)
  /-- a scheduler's call `swtch(&c->context, &p->context)` -/
  | swtch (p : Slot)
  | sched (pc : SchedPc)
  | wake (pc : WakePc)
  | fork (pc : ForkPc)
  | exit (pc : ExitPc)
  | wait (pc : WaitPc)
  | trap (pc : TrapPc)
  deriving DecidableEq, Repr

abbrev Stack := List Frame

/-- The stack of a process that has not run yet: `context.ra = forkret`, then user space. -/
def newStack : Stack := [.sched .forkret, .trap .user]

end Xv6Schedulers.Kernel
