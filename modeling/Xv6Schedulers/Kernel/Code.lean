import Xv6Schedulers.Kernel.State

/-!
# Code — the C code between two lock operations

For every frame that is not a lock operation or a `swtch`, the assignments the code makes from
that control point on and the frames it leaves instead.  All reads happen before the assignments,
in the state the segment starts from.

What the code does not determine is a `Choice`: the class drawn, whether an allocation or a
`copyout` succeeds, the next trap of a user program, and the course of the code outside `proc.c`.
`seed` is updated without a lock, so with several harts the sequence of drawn classes is not a
function of its start value; a round may draw any class.
-/

namespace Xv6Schedulers.Kernel

/-- How `allocproc` and `uvmcopy` come out. -/
inductive AllocResult
  /-- `kalloc` or `proc_pagetable` returned 0 -/
  | noMemory
  /-- `uvmcopy` returned -1 -/
  | noCopy
  | ok
  deriving DecidableEq, Repr

inductive Trap
  | syscall (call : Syscall)
  | device (timer : Bool)
  | fault
  deriving DecidableEq, Repr

/-- The part of a step that the code does not determine. -/
inductive Choice
  | go
  | draw (cl : Classe)
  | alloc (r : AllocResult)
  | copyout (ok : Bool)
  | trap (t : Trap)
  | enter (k : Nat)
  | leave
  | sleep (ch : Chan)
  | wakeup (ch : Chan)
  | killed
  | done
  | intr (timer : Bool)
  deriving DecidableEq, Repr

/-- What a segment of code leads to. -/
inductive Outcome
  | goes (ws : List Write) (fs : Stack)
  | panics (m : Panic)
  deriving DecidableEq, Repr

/-- A segment without assignments. -/
abbrev Outcome.jump (fs : Stack) : Outcome := .goes [] fs

section Segments

variable {n : Nat} (s : State n) (c : Fin n)

/-! ## The schedulers -/

/-- `scheduler_loteria`. -/
def loteriaCode : LoteriaPc → Choice → Option Outcome
  | .top, .draw cl =>
      some (.goes [.intr true] [.loteria (.next cl (s.lastIndex cl) 0)])
  | .next cl start i, .go =>
      if i < NPROC then
        some (.jump [.acquire (.proc (slotAt (start + i))), .loteria (.scan cl start i)])
      else
        some (.jump [.loteria .top])
  | .scan cl start i, .go =>
      let idx := slotAt (start + i)
      if (s.proc idx).state = .runnable ∧ (s.proc idx).classe = cl.toInt32 then
        some (.goes [.state idx .running, .cpuProc (some idx), .event (.dispatch idx)]
          [.swtch idx, .loteria (.back cl idx)])
      else
        some (.jump [.release (.proc idx), .loteria (.next cl start (i + 1))])
  | .back cl idx, .go =>
      some (.goes [.cpuProc none, .event (.switchBack idx)]
        [.release (.proc idx), .loteria (.done cl idx)])
  | .done cl idx, .go =>
      some (.goes [.lastIndex cl ((idx.val + 1) % NPROC)] [.loteria .top])
  | _, _ => none

/-- The test that replaces `min_pass_proc`: smaller `pass`, then larger `pid`. -/
def Better (p b : Proc) : Prop := p.pass < b.pass ∨ (p.pass = b.pass ∧ p.pid > b.pid)

instance (p b : Proc) : Decidable (Better p b) := inferInstanceAs (Decidable (_ ∨ _))

/-- `scheduler_stride`. -/
def strideCode : StridePc → Choice → Option Outcome
  | .top, .go =>
      some (.goes [.intr true] [.stride (.next 0 none)])
  | .next i best, .go =>
      if h : i < NPROC then
        some (.jump [.acquire (.proc ⟨i, h⟩), .stride (.scan ⟨i, h⟩ best)])
      else
        match best with
        | some b =>
            some (.goes [.state b .running, .cpuProc (some b), .event (.dispatch b)]
              [.swtch b, .stride (.back b)])
        | none => some (.jump [.stride .top])
  | .scan i best, .go =>
      if (s.proc i).state = .runnable then
        match best with
        | none => some (.jump [.stride (.next (i.val + 1) (some i))])
        | some b =>
            if Better (s.proc i) (s.proc b) then
              some (.jump [.release (.proc b), .stride (.next (i.val + 1) (some i))])
            else
              some (.jump [.release (.proc i), .stride (.next (i.val + 1) (some b))])
      else
        some (.jump [.release (.proc i), .stride (.next (i.val + 1) best)])
  | .back b, .go =>
      some (.goes
        [.cpuProc none, .pass b ((s.proc b).pass + (s.proc b).stride), .event (.switchBack b)]
        [.release (.proc b), .stride .top])
  | _, _ => none

/-! ## `yield`, `sched`, `forkret`, `sleep` -/

/-- The call `yield()` of process `p`. -/
def yieldCall (p : Slot) : Stack := [.acquire (.proc p), .sched .yieldLocked]

/-- The call `sleep(ch, lk)` of process `p`. -/
def sleepCall (p : Slot) (ch : Chan) (lk : Lock) : Stack :=
  [.acquire (.proc p), .sched (.sleepLocked ch lk)]

/-- The call `killed(p)`. -/
def killedCall (p : Slot) : Stack := [.acquire (.proc p), .wake .killedLocked]

def schedCode : SchedPc → Choice → Option Outcome
  | .yieldLocked, .go => do
      let p ← s.myproc c
      some (.goes [.state p .runnable] [.sched .sched, .release (.proc p)])
  | .sched, .go => do
      let p ← s.myproc c
      if ¬ s.Holding c (.proc p) then
        some (.panics .schedLock)
      else if (s.cpu c).noff ≠ 1 then
        some (.panics .schedLocks)
      else if (s.proc p).state = .running then
        some (.panics .schedRunning)
      else if (s.cpu c).intr then
        some (.panics .schedInterruptible)
      else
        some (.jump [.sched .swtch, .sched (.schedRet (s.cpu c).intena)])
  | .schedRet intena, .go =>
      some (.goes [.intena intena] [])
  | .forkret, .go => do
      let p ← s.myproc c
      -- the first process runs `fsinit` here, which may sleep
      some (.jump [.release (.proc p), .trap (.service true), .trap .ret])
  | .sleepLocked ch lk, .go =>
      some (.jump [.release lk, .sched (.sleepReleased ch lk)])
  | .sleepReleased ch lk, .go => do
      let p ← s.myproc c
      some (.goes [.chan p (some ch), .state p .sleeping] [.sched .sched, .sched (.sleepBack lk)])
  | .sleepBack lk, .go => do
      let p ← s.myproc c
      some (.goes [.chan p none] [.release (.proc p), .acquire lk])
  | _, _ => none

/-! ## `wakeup`, `kill`, `setkilled`, `killed` -/

def wakeCode : WakePc → Choice → Option Outcome
  | .wakeupNext ch i, .go =>
      if h : i < NPROC then
        if s.myproc c = some ⟨i, h⟩ then
          some (.jump [.wake (.wakeupNext ch (i + 1))])
        else
          some (.jump [.acquire (.proc ⟨i, h⟩), .wake (.wakeupLocked ch ⟨i, h⟩)])
      else
        some (.jump [])
  | .wakeupLocked ch i, .go =>
      if (s.proc i).state = .sleeping ∧ (s.proc i).chan = ch then
        some (.goes [.state i .runnable]
          [.release (.proc i), .wake (.wakeupNext ch (i.val + 1))])
      else
        some (.jump [.release (.proc i), .wake (.wakeupNext ch (i.val + 1))])
  | .killNext pid i, .go =>
      if h : i < NPROC then
        some (.jump [.acquire (.proc ⟨i, h⟩), .wake (.killLocked pid ⟨i, h⟩)])
      else
        some (.jump [.ret (-1)])
  | .killLocked pid i, .go =>
      if (s.proc i).pid = pid then
        if (s.proc i).state = .sleeping then
          some (.goes [.killed i 1, .state i .runnable, .event (.kill i pid)]
            [.release (.proc i), .ret 0])
        else
          some (.goes [.killed i 1, .event (.kill i pid)] [.release (.proc i), .ret 0])
      else
        some (.jump [.release (.proc i), .wake (.killNext pid (i.val + 1))])
  | .setkilledLocked, .go => do
      let p ← s.myproc c
      some (.goes [.killed p 1] [.release (.proc p)])
  | .killedLocked, .go => do
      let p ← s.myproc c
      some (.jump [.release (.proc p), .ret (s.proc p).killed])
  | _, _ => none

/-! ## `allocproc`, `fork`, `forkprio` -/

/-- The `switch (prio)` of `forkprio`. -/
def prioTickets (prio : Int32) : Int32 :=
  if prio = 0 then 100
  else if prio = 1 then 50
  else if prio = 2 then 250
  else 10000

/-- The argument of the call, stored in `np->classe`. -/
def ForkCall.arg : ForkCall → Int32
  | .fork cls => cls
  | .forkprio prio => prio

/-- The scheduling parameters only `forkprio` sets. -/
def ForkCall.params (i : Slot) : ForkCall → List Write
  | .fork _ => []
  | .forkprio prio =>
      [.tickets i (prioTickets prio), .stride i (10000 / prioTickets prio), .pass i 0]

/-- The history event of a creation in slot `i`, whose old scheduling fields are those of `p`. -/
def ForkCall.created (i : Slot) (p : Proc) : ForkCall → Event
  | .fork cls => .create i (.forked (.fork cls)) p.tickets p.stride p.pass
  | .forkprio prio =>
      .create i (.forked (.forkprio prio)) (prioTickets prio) (10000 / prioTickets prio) 0

/-- `allocproc` from `found:` on, when the allocations succeed. -/
def allocWrites (i : Slot) (pid : Int32) : List Write :=
  [.pid i pid, .state i .used, .context i, .prioridade i 3]

def forkCode : ForkPc → Choice → Option Outcome
  | .allocNext call i, .go =>
      if h : i < NPROC then
        some (.jump [.acquire (.proc ⟨i, h⟩), .fork (.allocLocked call ⟨i, h⟩)])
      else
        some (.jump [.ret (-1)])
  | .allocLocked call i, .go =>
      if (s.proc i).state = .unused then
        some (.jump [.acquire .pid, .fork (.allocPid call i)])
      else
        some (.jump [.release (.proc i), .fork (.allocNext call (i.val + 1))])
  | .allocPid call i, .go =>
      some (.goes [.nextpid (s.nextpid + 1)]
        [.release .pid, .fork (.allocFound call i s.nextpid)])
  | .allocFound _ i pid, .alloc .noMemory =>
      some (.goes ([.pid i pid, .state i .used] ++ freeproc i) [.release (.proc i), .ret (-1)])
  | .allocFound (.fork cls) i pid, .alloc .noCopy =>
      some (.goes (allocWrites i pid ++ [.classe i cls] ++ freeproc i)
        [.release (.proc i), .ret (-1)])
  | .allocFound (.forkprio prio) i pid, .alloc .noCopy =>
      -- `np->lock` is still held from `allocproc`, and `forkprio` acquires it again
      some (.goes (allocWrites i pid ++ [.classe i prio])
        [.acquire (.proc i), .fork (.copyFailed i)])
  | .allocFound call i pid, .alloc .ok =>
      some (.goes
        (allocWrites i pid ++ [.classe i call.arg] ++ call.params i ++
          [.event (call.created i (s.proc i))])
        [.release (.proc i), .acquire .wait, .fork (.setParent i pid)])
  | .setParent i pid, .go => do
      let p ← s.myproc c
      some (.goes [.parent i (some p)]
        [.release .wait, .acquire (.proc i), .fork (.setRunnable i pid)])
  | .setRunnable i pid, .go =>
      some (.goes [.state i .runnable] [.release (.proc i), .ret pid])
  | .copyFailed i, .go =>
      some (.goes (freeproc i) [.release (.proc i), .ret (-1)])
  | _, _ => none

/-! ## `exit` and `wait` -/

def exitCode : ExitPc → Choice → Option Outcome
  | .start status, .go => do
      let p ← s.myproc c
      if p = s.initproc then
        some (.panics .initExiting)
      else
        some (.jump [.trap (.service true), .exit (.closed status)])
  | .closed status, .go =>
      some (.jump [.acquire .wait, .exit (.reparent status 0)])
  | .reparent status i, .go => do
      let p ← s.myproc c
      if h : i < NPROC then
        if (s.proc ⟨i, h⟩).parent = some p then
          some (.goes [.parent ⟨i, h⟩ (some s.initproc)]
            [.wake (.wakeupNext (some (.proc s.initproc)) 0), .exit (.reparent status (i + 1))])
        else
          some (.jump [.exit (.reparent status (i + 1))])
      else
        some (.jump [.wake (.wakeupNext ((s.proc p).parent.map .proc) 0), .exit (.woken status)])
  | .woken status, .go => do
      let p ← s.myproc c
      some (.jump [.acquire (.proc p), .exit (.locked status)])
  | .locked status, .go => do
      let p ← s.myproc c
      some (.goes [.xstate p status, .state p .zombie, .event (.exit p status)]
        [.release .wait, .sched .sched, .exit .zombie])
  | .zombie, .go =>
      some (.panics .zombieExit)
  | _, _ => none

def waitCode : WaitPc → Choice → Option Outcome
  | .scan addr i havekids, .go => do
      let p ← s.myproc c
      if h : i < NPROC then
        if (s.proc ⟨i, h⟩).parent = some p then
          some (.jump [.acquire (.proc ⟨i, h⟩), .wait (.locked addr ⟨i, h⟩)])
        else
          some (.jump [.wait (.scan addr (i + 1) havekids)])
      else if havekids then
        some (.jump (killedCall p ++ [.wait (.killed addr)]))
      else
        some (.jump [.release .wait, .ret (-1)])
  | .locked addr i, .copyout ok => do
      let p ← s.myproc c
      if (s.proc i).state = .zombie then
        if addr ≠ 0 ∧ ok = false then
          some (.jump [.release (.proc i), .release .wait, .ret (-1)])
        else
          some (.goes ([.event (.reap i p (s.proc i).pid (s.proc i).xstate)] ++ freeproc i)
            [.release (.proc i), .release .wait, .ret (s.proc i).pid])
      else
        some (.jump [.release (.proc i), .wait (.scan addr (i.val + 1) true)])
  | .killed addr, .go => do
      let p ← s.myproc c
      if s.a0 p ≠ 0 then
        some (.jump [.release .wait, .ret (-1)])
      else
        some (.jump (sleepCall p (.proc p) .wait ++ [.wait (.scan addr 0 false)]))
  | _, _ => none

/-! ## Traps -/

/-- `syscalls[num]()`. -/
def Syscall.call : Syscall → Stack
  | .fork cls => [.fork (.allocNext (.fork cls) 0)]
  | .forkprio prio => [.fork (.allocNext (.forkprio prio) 0)]
  | .exit status => [.exit (.start status)]
  | .wait addr => [.acquire .wait, .wait (.scan addr 0 false)]
  | .kill pid => [.wake (.killNext pid 0)]
  | .other => [.trap (.service true)]

def trapCode : TrapPc → Choice → Option Outcome
  | .user, .trap (.syscall call) => do
      let p ← s.myproc c
      some (.goes [.intr false] (killedCall p ++ [.trap (.syscall call), .trap .user]))
  | .user, .trap (.device timer) =>
      some (.goes [.intr false] [.trap (.service false), .trap (.done timer), .trap .user])
  | .user, .trap .fault => do
      let p ← s.myproc c
      some (.goes [.intr false, .event (.fault p)]
        [.acquire (.proc p), .wake .setkilledLocked, .trap (.done false), .trap .user])
  | .syscall call, .go => do
      let p ← s.myproc c
      if s.a0 p ≠ 0 then
        some (.jump [.exit (.start (-1))])
      else
        some (.goes [.intr true] (call.call ++ [.trap (.done false)]))
  | .done timer, .go => do
      let p ← s.myproc c
      some (.jump (killedCall p ++ [.trap (.killed timer)]))
  | .killed timer, .go => do
      let p ← s.myproc c
      if s.a0 p ≠ 0 then
        some (.jump [.exit (.start (-1))])
      else if timer then
        some (.jump (yieldCall p ++ [.trap .ret]))
      else
        some (.jump [.trap .ret])
  | .ret, .go =>
      -- `sret` to user space turns interrupts on
      some (.goes [.intr true] [])
  | .service canSleep, .enter k =>
      some (.jump [.acquire (.cond k), .trap (.crit k canSleep), .trap (.service canSleep)])
  | .service _, .done =>
      some (.jump [])
  | .crit k _, .leave =>
      some (.jump [.release (.cond k)])
  | .crit k canSleep, .wakeup ch =>
      some (.jump [.wake (.wakeupNext (some ch) 0), .trap (.crit k canSleep)])
  | .crit k true, .sleep ch => do
      let p ← s.myproc c
      some (.jump (sleepCall p ch (.cond k) ++ [.trap (.crit k true)]))
  | .crit k true, .killed => do
      let p ← s.myproc c
      some (.jump (killedCall p ++ [.trap (.crit k true)]))
  | .kerneltrap timer, .go =>
      match s.myproc c with
      | some p =>
          if timer then
            some (.jump (yieldCall p ++ [.trap .kerneltrapRet]))
          else
            some (.goes [.intr true] [])
      | none => some (.goes [.intr true] [])
  | .kerneltrapRet, .go =>
      some (.goes [.intr true] [])
  | _, _ => none

/-- The segment of a frame that is not a lock operation or a `swtch`. -/
def code : Frame → Choice → Option Outcome
  | .ret v, .go => some (.goes [.a0 v] [])
  | .loteria pc, ch => loteriaCode s pc ch
  | .stride pc, ch => strideCode s pc ch
  | .sched pc, ch => schedCode s c pc ch
  | .wake pc, ch => wakeCode s c pc ch
  | .fork pc, ch => forkCode s c pc ch
  | .exit pc, ch => exitCode s c pc ch
  | .wait pc, ch => waitCode s c pc ch
  | .trap pc, ch => trapCode s c pc ch
  | _, _ => none

end Segments

attribute [simp] freeproc allocWrites ForkCall.params yieldCall sleepCall killedCall Syscall.call

end Xv6Schedulers.Kernel
