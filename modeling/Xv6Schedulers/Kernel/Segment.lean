import Xv6Schedulers.Kernel.Step

/-!
# Segment — what a segment of code can do

Inversion of `code`: one constructor per branch of the C code, with the test that leads to it, the
assignments it makes and the frames it leaves.  Invariants are proved by cases on these relations;
no later proof unfolds `code`.
-/

namespace Xv6Schedulers.Kernel

section Branches

variable {n : Nat} (s : State n) (c : Fin n)

/-- Branches of `scheduler_loteria`. -/
inductive LoteriaSeg : LoteriaPc → List Write → Stack → Prop
  | draw (cl : Classe) : LoteriaSeg .top [.intr true] [.loteria (.next cl (s.lastIndex cl) 0)]
  | visit {cl : Classe} {start i : Nat} (hi : i < NPROC) : LoteriaSeg (.next cl start i) []
        [.acquire (.proc (slotAt (start + i))), .loteria (.scan cl start i)]
  | round {cl : Classe} {start i : Nat} (hi : ¬ i < NPROC) :
      LoteriaSeg (.next cl start i) [] [.loteria .top]
  | dispatch {cl : Classe} {start i : Nat}
      (hstate : (s.proc (slotAt (start + i))).state = .runnable)
      (hclasse : (s.proc (slotAt (start + i))).classe = cl.toInt32) :
      LoteriaSeg (.scan cl start i)
        [.state (slotAt (start + i)) .running, .cpuProc (some (slotAt (start + i))),
          .event (.dispatch (slotAt (start + i)))]
        [.swtch (slotAt (start + i)), .loteria (.back cl (slotAt (start + i)))]
  | skip {cl : Classe} {start i : Nat}
      (hskip : ¬ ((s.proc (slotAt (start + i))).state = .runnable ∧
        (s.proc (slotAt (start + i))).classe = cl.toInt32)) :
      LoteriaSeg (.scan cl start i) []
        [.release (.proc (slotAt (start + i))), .loteria (.next cl start (i + 1))]
  | back {cl : Classe} {idx : Slot} :
      LoteriaSeg (.back cl idx) [.cpuProc none, .event (.switchBack idx)]
        [.release (.proc idx), .loteria (.done cl idx)]
  | done {cl : Classe} {idx : Slot} :
      LoteriaSeg (.done cl idx) [.lastIndex cl ((idx.val + 1) % NPROC)] [.loteria .top]

/-- Branches of `scheduler_stride`. -/
inductive StrideSeg : StridePc → List Write → Stack → Prop
  | begin : StrideSeg .top [.intr true] [.stride (.next 0 none)]
  | visit {i : Slot} {best : Option Slot} :
      StrideSeg (.next i.val best) [] [.acquire (.proc i), .stride (.scan i best)]
  | dispatch {i : Nat} {b : Slot} (hi : ¬ i < NPROC) : StrideSeg (.next i (some b))
        [.state b .running, .cpuProc (some b), .event (.dispatch b)]
        [.swtch b, .stride (.back b)]
  | idle {i : Nat} (hi : ¬ i < NPROC) : StrideSeg (.next i none) [] [.stride .top]
  | first {i : Slot} (hstate : (s.proc i).state = .runnable) :
      StrideSeg (.scan i none) [] [.stride (.next (i.val + 1) (some i))]
  | better {i b : Slot} (hstate : (s.proc i).state = .runnable)
      (hb : Better (s.proc i) (s.proc b)) :
      StrideSeg (.scan i (some b)) []
        [.release (.proc b), .stride (.next (i.val + 1) (some i))]
  | worse {i b : Slot} (hstate : (s.proc i).state = .runnable)
      (hb : ¬ Better (s.proc i) (s.proc b)) :
      StrideSeg (.scan i (some b)) []
        [.release (.proc i), .stride (.next (i.val + 1) (some b))]
  | skip {i : Slot} {best : Option Slot} (hstate : (s.proc i).state ≠ .runnable) :
      StrideSeg (.scan i best) [] [.release (.proc i), .stride (.next (i.val + 1) best)]
  | back {b : Slot} : StrideSeg (.back b)
        [.cpuProc none, .pass b ((s.proc b).pass + (s.proc b).stride), .event (.switchBack b)]
        [.release (.proc b), .stride .top]

/-- Branches of `yield`, `sched`, `forkret` and `sleep`. -/
inductive SchedSeg : SchedPc → List Write → Stack → Prop
  | yield {p : Slot} (hp : s.myproc c = some p) :
      SchedSeg .yieldLocked [.state p .runnable] [.sched .sched, .release (.proc p)]
  | sched {p : Slot} (hp : s.myproc c = some p) (hold : s.Holding c (.proc p))
      (hnoff : (s.cpu c).noff = 1) (hstate : (s.proc p).state ≠ .running)
      (hintr : (s.cpu c).intr = false) :
      SchedSeg .sched [] [.sched .swtch, .sched (.schedRet (s.cpu c).intena)]
  | schedRet {intena : Bool} : SchedSeg (.schedRet intena) [.intena intena] []
  | forkret {p : Slot} (hp : s.myproc c = some p) :
      SchedSeg .forkret [] [.release (.proc p), .trap (.service true), .trap .ret]
  | sleepLocked {ch : Chan} {lk : Lock} :
      SchedSeg (.sleepLocked ch lk) [] [.release lk, .sched (.sleepReleased ch lk)]
  | sleepReleased {p : Slot} {ch : Chan} {lk : Lock} (hp : s.myproc c = some p) :
      SchedSeg (.sleepReleased ch lk) [.chan p (some ch), .state p .sleeping]
        [.sched .sched, .sched (.sleepBack lk)]
  | sleepBack {p : Slot} {lk : Lock} (hp : s.myproc c = some p) :
      SchedSeg (.sleepBack lk) [.chan p none] [.release (.proc p), .acquire lk]

/-- Branches of `wakeup`, `kill`, `setkilled` and `killed`. -/
inductive WakeSeg : WakePc → List Write → Stack → Prop
  | wakeupSelf {ch : Option Chan} {i : Slot} (hp : s.myproc c = some i) :
      WakeSeg (.wakeupNext ch i.val) [] [.wake (.wakeupNext ch (i.val + 1))]
  | wakeupVisit {ch : Option Chan} {i : Slot} (hp : s.myproc c ≠ some i) :
      WakeSeg (.wakeupNext ch i.val) [] [.acquire (.proc i), .wake (.wakeupLocked ch i)]
  | wakeupEnd {ch : Option Chan} {i : Nat} (hi : ¬ i < NPROC) : WakeSeg (.wakeupNext ch i) [] []
  | wakeup {ch : Option Chan} {i : Slot} (hstate : (s.proc i).state = .sleeping)
      (hchan : (s.proc i).chan = ch) :
      WakeSeg (.wakeupLocked ch i) [.state i .runnable]
        [.release (.proc i), .wake (.wakeupNext ch (i.val + 1))]
  | wakeupSkip {ch : Option Chan} {i : Slot}
      (hskip : ¬ ((s.proc i).state = .sleeping ∧ (s.proc i).chan = ch)) :
      WakeSeg (.wakeupLocked ch i) [] [.release (.proc i), .wake (.wakeupNext ch (i.val + 1))]
  | killVisit {pid : Int32} {i : Slot} :
      WakeSeg (.killNext pid i.val) [] [.acquire (.proc i), .wake (.killLocked pid i)]
  | killEnd {pid : Int32} {i : Nat} (hi : ¬ i < NPROC) : WakeSeg (.killNext pid i) [] [.ret (-1)]
  | killSleeper {pid : Int32} {i : Slot} (hpid : (s.proc i).pid = pid)
      (hstate : (s.proc i).state = .sleeping) :
      WakeSeg (.killLocked pid i) [.killed i 1, .state i .runnable, .event (.kill i pid)]
        [.release (.proc i), .ret 0]
  | kill {pid : Int32} {i : Slot} (hpid : (s.proc i).pid = pid)
      (hstate : (s.proc i).state ≠ .sleeping) :
      WakeSeg (.killLocked pid i) [.killed i 1, .event (.kill i pid)]
        [.release (.proc i), .ret 0]
  | killSkip {pid : Int32} {i : Slot} (hpid : (s.proc i).pid ≠ pid) : WakeSeg (.killLocked pid i) []
        [.release (.proc i), .wake (.killNext pid (i.val + 1))]
  | setkilled {p : Slot} (hp : s.myproc c = some p) :
      WakeSeg .setkilledLocked [.killed p 1] [.release (.proc p)]
  | killed {p : Slot} (hp : s.myproc c = some p) :
      WakeSeg .killedLocked [] [.release (.proc p), .ret (s.proc p).killed]

/-- Branches of `allocproc`, `fork` and `forkprio`. -/
inductive ForkSeg : ForkPc → List Write → Stack → Prop
  | allocVisit {call : ForkCall} {i : Slot} :
      ForkSeg (.allocNext call i.val) [] [.acquire (.proc i), .fork (.allocLocked call i)]
  | allocEnd {call : ForkCall} {i : Nat} (hi : ¬ i < NPROC) :
      ForkSeg (.allocNext call i) [] [.ret (-1)]
  | allocTake {call : ForkCall} {i : Slot} (hstate : (s.proc i).state = .unused) :
      ForkSeg (.allocLocked call i) [] [.acquire .pid, .fork (.allocPid call i)]
  | allocSkip {call : ForkCall} {i : Slot} (hstate : (s.proc i).state ≠ .unused) :
      ForkSeg (.allocLocked call i) []
        [.release (.proc i), .fork (.allocNext call (i.val + 1))]
  | allocPid {call : ForkCall} {i : Slot} : ForkSeg (.allocPid call i) [.nextpid (s.nextpid + 1)]
        [.release .pid, .fork (.allocFound call i s.nextpid)]
  | noMemory {call : ForkCall} {i : Slot} {pid : Int32} :
      ForkSeg (.allocFound call i pid) ([.pid i pid, .state i .used] ++ freeproc i)
        [.release (.proc i), .ret (-1)]
  | noCopy {cls : Int32} {i : Slot} {pid : Int32} : ForkSeg (.allocFound (.fork cls) i pid)
        (allocWrites i pid ++ [.classe i cls] ++ freeproc i) [.release (.proc i), .ret (-1)]
  | noCopyPrio {prio : Int32} {i : Slot} {pid : Int32} :
      ForkSeg (.allocFound (.forkprio prio) i pid) (allocWrites i pid ++ [.classe i prio])
        [.acquire (.proc i), .fork (.copyFailed i)]
  | allocated {call : ForkCall} {i : Slot} {pid : Int32} : ForkSeg (.allocFound call i pid)
        (allocWrites i pid ++ [.classe i call.arg] ++ call.params i ++
          [.event (call.created i (s.proc i))])
        [.release (.proc i), .acquire .wait, .fork (.setParent i pid)]
  | setParent {p i : Slot} {pid : Int32} (hp : s.myproc c = some p) :
      ForkSeg (.setParent i pid) [.parent i (some p)]
        [.release .wait, .acquire (.proc i), .fork (.setRunnable i pid)]
  | setRunnable {i : Slot} {pid : Int32} :
      ForkSeg (.setRunnable i pid) [.state i .runnable] [.release (.proc i), .ret pid]
  | copyFailed {i : Slot} : ForkSeg (.copyFailed i) (freeproc i) [.release (.proc i), .ret (-1)]

/-- Branches of `exit` and `reparent`. -/
inductive ExitSeg : ExitPc → List Write → Stack → Prop
  | start {p : Slot} {status : Int32} (hp : s.myproc c = some p) (hinit : p ≠ s.initproc) :
      ExitSeg (.start status) [] [.trap (.service true), .exit (.closed status)]
  | closed {status : Int32} :
      ExitSeg (.closed status) [] [.acquire .wait, .exit (.reparent status 0)]
  | adopt {p i : Slot} {status : Int32} (hp : s.myproc c = some p)
      (hparent : (s.proc i).parent = some p) :
      ExitSeg (.reparent status i.val) [.parent i (some s.initproc)]
        [.wake (.wakeupNext (some (.proc s.initproc)) 0), .exit (.reparent status (i.val + 1))]
  | reparentSkip {p i : Slot} {status : Int32} (hp : s.myproc c = some p)
      (hparent : (s.proc i).parent ≠ some p) :
      ExitSeg (.reparent status i.val) [] [.exit (.reparent status (i.val + 1))]
  | reparentEnd {p : Slot} {status : Int32} {i : Nat} (hp : s.myproc c = some p)
      (hi : ¬ i < NPROC) :
      ExitSeg (.reparent status i) []
        [.wake (.wakeupNext ((s.proc p).parent.map .proc) 0), .exit (.woken status)]
  | woken {p : Slot} {status : Int32} (hp : s.myproc c = some p) :
      ExitSeg (.woken status) [] [.acquire (.proc p), .exit (.locked status)]
  | locked {p : Slot} {status : Int32} (hp : s.myproc c = some p) :
      ExitSeg (.locked status) [.xstate p status, .state p .zombie, .event (.exit p status)]
        [.release .wait, .sched .sched, .exit .zombie]

/-- Branches of `wait`. -/
inductive WaitSeg : WaitPc → List Write → Stack → Prop
  | child {p i : Slot} {addr : UInt64} {kids : Bool} (hp : s.myproc c = some p)
      (hparent : (s.proc i).parent = some p) :
      WaitSeg (.scan addr i.val kids) [] [.acquire (.proc i), .wait (.locked addr i)]
  | scanSkip {p i : Slot} {addr : UInt64} {kids : Bool} (hp : s.myproc c = some p)
      (hparent : (s.proc i).parent ≠ some p) :
      WaitSeg (.scan addr i.val kids) [] [.wait (.scan addr (i.val + 1) kids)]
  | haveKids {p : Slot} {addr : UInt64} {i : Nat} (hp : s.myproc c = some p)
      (hi : ¬ i < NPROC) :
      WaitSeg (.scan addr i true) [] (killedCall p ++ [.wait (.killed addr)])
  | noKids {p : Slot} {addr : UInt64} {i : Nat} (hp : s.myproc c = some p)
      (hi : ¬ i < NPROC) :
      WaitSeg (.scan addr i false) [] [.release .wait, .ret (-1)]
  | copyoutFailed {p i : Slot} {addr : UInt64} (hp : s.myproc c = some p)
      (hstate : (s.proc i).state = .zombie) :
      WaitSeg (.locked addr i) [] [.release (.proc i), .release .wait, .ret (-1)]
  | reap {p i : Slot} {addr : UInt64} (hp : s.myproc c = some p)
      (hstate : (s.proc i).state = .zombie) :
      WaitSeg (.locked addr i)
        ([.event (.reap i p (s.proc i).pid (s.proc i).xstate)] ++ freeproc i)
        [.release (.proc i), .release .wait, .ret (s.proc i).pid]
  | alive {p i : Slot} {addr : UInt64} (hp : s.myproc c = some p)
      (hstate : (s.proc i).state ≠ .zombie) :
      WaitSeg (.locked addr i) [] [.release (.proc i), .wait (.scan addr (i.val + 1) true)]
  | giveUp {p : Slot} {addr : UInt64} (hp : s.myproc c = some p) (hkilled : s.a0 p ≠ 0) :
      WaitSeg (.killed addr) [] [.release .wait, .ret (-1)]
  | sleep {p : Slot} {addr : UInt64} (hp : s.myproc c = some p) (hkilled : s.a0 p = 0) :
      WaitSeg (.killed addr) [] (sleepCall p (.proc p) .wait ++ [.wait (.scan addr 0 false)])

/-- Branches of the trap handlers and of the code outside `proc.c`. -/
inductive TrapSeg : TrapPc → List Write → Stack → Prop
  | syscall {p : Slot} {call : Syscall} (hp : s.myproc c = some p) :
      TrapSeg .user [.intr false] (killedCall p ++ [.trap (.syscall call), .trap .user])
  | device {timer : Bool} : TrapSeg .user [.intr false]
        [.trap (.service false), .trap (.done timer), .trap .user]
  | fault {p : Slot} (hp : s.myproc c = some p) : TrapSeg .user [.intr false, .event (.fault p)]
        [.acquire (.proc p), .wake .setkilledLocked, .trap (.done false), .trap .user]
  | syscallKilled {p : Slot} {call : Syscall} (hp : s.myproc c = some p)
      (hkilled : s.a0 p ≠ 0) :
      TrapSeg (.syscall call) [] [.exit (.start (-1))]
  | call {p : Slot} {call : Syscall} (hp : s.myproc c = some p) (hkilled : s.a0 p = 0) :
      TrapSeg (.syscall call) [.intr true] (call.call ++ [.trap (.done false)])
  | done {p : Slot} {timer : Bool} (hp : s.myproc c = some p) :
      TrapSeg (.done timer) [] (killedCall p ++ [.trap (.killed timer)])
  | killed {p : Slot} {timer : Bool} (hp : s.myproc c = some p) (hkilled : s.a0 p ≠ 0) :
      TrapSeg (.killed timer) [] [.exit (.start (-1))]
  | preempt {p : Slot} (hp : s.myproc c = some p) (hkilled : s.a0 p = 0) :
      TrapSeg (.killed true) [] (yieldCall p ++ [.trap .ret])
  | leave {p : Slot} (hp : s.myproc c = some p) (hkilled : s.a0 p = 0) :
      TrapSeg (.killed false) [] [.trap .ret]
  | ret : TrapSeg .ret [.intr true] []
  | enter {canSleep : Bool} (k : Nat) : TrapSeg (.service canSleep) []
        [.acquire (.cond k), .trap (.crit k canSleep), .trap (.service canSleep)]
  | served {canSleep : Bool} : TrapSeg (.service canSleep) [] []
  | exitCrit {k : Nat} {canSleep : Bool} : TrapSeg (.crit k canSleep) [] [.release (.cond k)]
  | critWakeup {k : Nat} {canSleep : Bool} (ch : Chan) : TrapSeg (.crit k canSleep) []
        [.wake (.wakeupNext (some ch) 0), .trap (.crit k canSleep)]
  | critSleep {p : Slot} {k : Nat} (ch : Chan) (hp : s.myproc c = some p) :
      TrapSeg (.crit k true) [] (sleepCall p ch (.cond k) ++ [.trap (.crit k true)])
  | critKilled {p : Slot} {k : Nat} (hp : s.myproc c = some p) :
      TrapSeg (.crit k true) [] (killedCall p ++ [.trap (.crit k true)])
  | timer {p : Slot} (hp : s.myproc c = some p) :
      TrapSeg (.kerneltrap true) [] (yieldCall p ++ [.trap .kerneltrapRet])
  | handled {timer : Bool} (hp : timer = false ∨ s.myproc c = none) :
      TrapSeg (.kerneltrap timer) [.intr true] []
  | kerneltrapRet : TrapSeg .kerneltrapRet [.intr true] []

/-- A segment of code that does not panic. -/
inductive Seg : Frame → List Write → Stack → Prop
  | ret {v : Int32} : Seg (.ret v) [.a0 v] []
  | loteria {pc : LoteriaPc} {ws : List Write} {fs : Stack} :
      LoteriaSeg s pc ws fs → Seg (.loteria pc) ws fs
  | stride {pc : StridePc} {ws : List Write} {fs : Stack} :
      StrideSeg s pc ws fs → Seg (.stride pc) ws fs
  | sched {pc : SchedPc} {ws : List Write} {fs : Stack} :
      SchedSeg s c pc ws fs → Seg (.sched pc) ws fs
  | wake {pc : WakePc} {ws : List Write} {fs : Stack} : WakeSeg s c pc ws fs → Seg (.wake pc) ws fs
  | fork {pc : ForkPc} {ws : List Write} {fs : Stack} : ForkSeg s c pc ws fs → Seg (.fork pc) ws fs
  | exit {pc : ExitPc} {ws : List Write} {fs : Stack} : ExitSeg s c pc ws fs → Seg (.exit pc) ws fs
  | wait {pc : WaitPc} {ws : List Write} {fs : Stack} : WaitSeg s c pc ws fs → Seg (.wait pc) ws fs
  | trap {pc : TrapPc} {ws : List Write} {fs : Stack} : TrapSeg s c pc ws fs → Seg (.trap pc) ws fs

end Branches

/-! ## Inversion of `code` -/

section Inversion

variable {n : Nat} {s : State n} {c : Fin n} {ch : Choice} {ws : List Write} {fs : Stack}

theorem exists_slot {i : Nat} (hi : i < NPROC) : ∃ j : Slot, j.val = i ∧ j = ⟨i, hi⟩ :=
  ⟨⟨i, hi⟩, rfl, rfl⟩

theorem loteriaCode_seg {pc : LoteriaPc} (h : loteriaCode s pc ch = some (.goes ws fs)) :
    LoteriaSeg s pc ws fs := by
  cases pc <;> cases ch <;> simp only [loteriaCode, reduceCtorEq] at h <;>
    (repeat' split at h) <;> cases h <;>
    constructor <;> simp_all

theorem strideCode_seg {pc : StridePc} (h : strideCode s pc ch = some (.goes ws fs)) :
    StrideSeg s pc ws fs := by
  cases pc <;> cases ch <;> simp only [strideCode, reduceCtorEq] at h
  case top.go =>
    cases h
    exact .begin
  case next.go i best =>
    split at h
    · rename_i hi
      rcases exists_slot hi with ⟨j, rfl, hj⟩
      rw [← hj] at h
      cases h
      exact .visit
    · cases best <;> cases h <;> constructor <;> assumption
  case scan.go i best =>
    cases best with
    | none =>
      simp only at h
      split at h <;> cases h <;> constructor <;> assumption
    | some b =>
      simp only at h
      (repeat' split at h) <;> cases h
      · exact .better (by assumption) (by assumption)
      · exact .worse (by assumption) (by assumption)
      · exact .skip (by assumption)
  case back.go =>
    cases h
    exact .back

theorem schedCode_seg {pc : SchedPc} (h : schedCode s c pc ch = some (.goes ws fs)) :
    SchedSeg s c pc ws fs := by
  cases pc <;> cases ch <;> simp only [schedCode, reduceCtorEq] at h
  case schedRet.go =>
    cases h
    exact .schedRet
  case sleepLocked.go =>
    cases h
    exact .sleepLocked
  case sched.go =>
    rcases Option.bind_eq_some_iff.1 h with ⟨p, hp, h⟩
    (repeat' split at h) <;> simp only [Option.some.injEq, reduceCtorEq] at h
    rename_i hold hnoff hstate hintr
    cases h
    exact .sched hp (not_not.1 hold) (not_not.1 hnoff) hstate (Bool.eq_false_iff.2 hintr)
  all_goals
    rcases Option.bind_eq_some_iff.1 h with ⟨p, hp, h⟩
    cases h
    constructor
    exact hp

theorem wakeCode_seg {pc : WakePc} (h : wakeCode s c pc ch = some (.goes ws fs)) :
    WakeSeg s c pc ws fs := by
  cases pc <;> cases ch <;> simp only [wakeCode, reduceCtorEq] at h
  case wakeupNext.go which i =>
    split at h
    · rename_i hi
      rcases exists_slot hi with ⟨j, rfl, hj⟩
      rw [← hj] at h
      split at h <;> cases h
      · exact .wakeupSelf (by assumption)
      · exact .wakeupVisit (by assumption)
    · cases h
      exact .wakeupEnd (by assumption)
  case wakeupLocked.go =>
    split at h <;> cases h <;> constructor <;> simp_all
  case killNext.go pid i =>
    split at h
    · rename_i hi
      rcases exists_slot hi with ⟨j, rfl, hj⟩
      rw [← hj] at h
      cases h
      exact .killVisit
    · cases h
      exact .killEnd (by assumption)
  case killLocked.go =>
    (repeat' split at h) <;> cases h <;>
      constructor <;> assumption
  all_goals
    rcases Option.bind_eq_some_iff.1 h with ⟨p, hp, h⟩
    cases h
    constructor
    exact hp

theorem forkCode_seg {pc : ForkPc} (h : forkCode s c pc ch = some (.goes ws fs)) :
    ForkSeg s c pc ws fs := by
  cases pc
  case allocNext call i =>
    cases ch <;> simp only [forkCode, reduceCtorEq] at h
    split at h
    · rename_i hi
      rcases exists_slot hi with ⟨j, rfl, hj⟩
      rw [← hj] at h
      cases h
      exact .allocVisit
    · cases h
      exact .allocEnd (by assumption)
  case allocLocked =>
    cases ch <;> simp only [forkCode, reduceCtorEq] at h
    split at h <;> cases h <;> constructor <;> assumption
  case allocPid =>
    cases ch <;> simp only [forkCode, reduceCtorEq] at h
    cases h
    exact .allocPid
  case allocFound call i pid =>
    cases ch <;> try (simp only [forkCode, reduceCtorEq] at h)
    rename_i r
    cases r <;> cases call <;> simp only at h <;>
      cases h <;>
      first | exact .noMemory | exact .noCopy | exact .noCopyPrio | exact .allocated
  case setParent =>
    cases ch <;> simp only [forkCode, reduceCtorEq] at h
    rcases Option.bind_eq_some_iff.1 h with ⟨p, hp, h⟩
    cases h
    exact .setParent hp
  case setRunnable =>
    cases ch <;> simp only [forkCode, reduceCtorEq] at h
    cases h
    exact .setRunnable
  case copyFailed =>
    cases ch <;> simp only [forkCode, reduceCtorEq] at h
    cases h
    exact .copyFailed

theorem exitCode_seg {pc : ExitPc} (h : exitCode s c pc ch = some (.goes ws fs)) :
    ExitSeg s c pc ws fs := by
  cases pc <;> cases ch <;> simp only [exitCode, reduceCtorEq, Option.some.injEq] at h
  case start.go =>
    rcases Option.bind_eq_some_iff.1 h with ⟨p, hp, h⟩
    split at h <;> simp only [Option.some.injEq, reduceCtorEq] at h
    cases h
    exact .start hp (by assumption)
  case closed.go =>
    cases h
    exact .closed
  case reparent.go status i =>
    rcases Option.bind_eq_some_iff.1 h with ⟨p, hp, h⟩
    split at h
    · rename_i hi
      rcases exists_slot hi with ⟨j, rfl, hj⟩
      rw [← hj] at h
      split at h <;> cases h
      · exact .adopt hp (by assumption)
      · exact .reparentSkip hp (by assumption)
    · cases h
      exact .reparentEnd hp (by assumption)
  case woken.go =>
    rcases Option.bind_eq_some_iff.1 h with ⟨p, hp, h⟩
    cases h
    exact .woken hp
  case locked.go =>
    rcases Option.bind_eq_some_iff.1 h with ⟨p, hp, h⟩
    cases h
    exact .locked hp

theorem waitCode_seg {pc : WaitPc} (h : waitCode s c pc ch = some (.goes ws fs)) :
    WaitSeg s c pc ws fs := by
  cases pc <;> cases ch <;> simp only [waitCode, reduceCtorEq] at h <;>
    rcases Option.bind_eq_some_iff.1 h with ⟨p, hp, h'⟩
  case scan.go addr i kids =>
    split at h'
    · rename_i hi
      rcases exists_slot hi with ⟨j, rfl, hj⟩
      rw [← hj] at h'
      split at h' <;> cases h'
      · exact .child hp (by assumption)
      · exact .scanSkip hp (by assumption)
    · cases kids <;> cases h'
      · exact .noKids hp (by assumption)
      · exact .haveKids hp (by assumption)
  case locked.copyout addr i ok =>
    (repeat' split at h') <;> cases h'
    · exact .copyoutFailed hp (by assumption)
    · exact .reap hp (by assumption)
    · exact .alive hp (by assumption)
  case killed.go addr =>
    split at h' <;> cases h'
    · exact .giveUp hp (by assumption)
    · exact .sleep hp (by simp_all)

theorem trapCode_seg {pc : TrapPc} (h : trapCode s c pc ch = some (.goes ws fs)) :
    TrapSeg s c pc ws fs := by
  cases pc
  case user =>
    cases ch <;> try (simp only [trapCode, reduceCtorEq] at h)
    rename_i t
    cases t <;> simp only at h
    · rcases Option.bind_eq_some_iff.1 h with ⟨p, hp, h⟩
      cases h
      exact .syscall hp
    · cases h
      exact .device
    · rcases Option.bind_eq_some_iff.1 h with ⟨p, hp, h⟩
      cases h
      exact .fault hp
  case syscall call =>
    cases ch <;> simp only [trapCode, reduceCtorEq] at h
    rcases Option.bind_eq_some_iff.1 h with ⟨p, hp, h⟩
    split at h <;> cases h
    · exact .syscallKilled hp (by assumption)
    · exact .call hp (by simp_all)
  case done timer =>
    cases ch <;> simp only [trapCode, reduceCtorEq] at h
    rcases Option.bind_eq_some_iff.1 h with ⟨p, hp, h⟩
    cases h
    exact .done hp
  case killed timer =>
    cases ch <;> simp only [trapCode, reduceCtorEq] at h
    rcases Option.bind_eq_some_iff.1 h with ⟨p, hp, h⟩
    split at h
    · cases h
      exact .killed hp (by assumption)
    · cases timer <;> cases h
      · exact .leave hp (by simp_all)
      · exact .preempt hp (by simp_all)
  case ret =>
    cases ch <;> simp only [trapCode, reduceCtorEq] at h
    cases h
    exact .ret
  case service canSleep =>
    cases ch <;> simp only [trapCode, reduceCtorEq] at h <;>
      cases h
    · exact .enter _
    · exact .served
  case crit k canSleep =>
    cases canSleep <;> cases ch <;> simp only [trapCode, reduceCtorEq] at h
    case true.sleep ch =>
        rcases Option.bind_eq_some_iff.1 h with ⟨p, hp, h⟩
        cases h
        exact .critSleep ch hp
    case true.killed =>
        rcases Option.bind_eq_some_iff.1 h with ⟨p, hp, h⟩
        cases h
        exact .critKilled hp
    all_goals
      cases h
      first | exact .exitCrit | exact .critWakeup _
  case kerneltrap timer =>
    cases ch <;> simp only [trapCode, reduceCtorEq] at h
    cases hp : s.myproc c with
    | none =>
      simp only [hp] at h
      cases h
      exact .handled (.inr hp)
    | some p =>
      simp only [hp] at h
      cases timer <;> cases h
      · exact .handled (.inl rfl)
      · exact .timer hp
  case kerneltrapRet =>
    cases ch <;> simp only [trapCode, reduceCtorEq] at h
    cases h
    exact .kerneltrapRet

/-- Every segment that does not panic is one of the listed branches. -/
theorem code_seg {f : Frame} (h : code s c f ch = some (.goes ws fs)) : Seg s c f ws fs := by
  cases f with
  | acquire => simp [code] at h
  | spin => simp [code] at h
  | release => simp [code] at h
  | swtch => simp [code] at h
  | ret v =>
    cases ch <;> simp only [code, reduceCtorEq] at h
    cases h
    exact .ret
  | loteria pc => exact .loteria (loteriaCode_seg h)
  | stride pc => exact .stride (strideCode_seg h)
  | sched pc => exact .sched (schedCode_seg h)
  | wake pc => exact .wake (wakeCode_seg h)
  | fork pc => exact .fork (forkCode_seg h)
  | exit pc => exact .exit (exitCode_seg h)
  | wait pc => exact .wait (waitCode_seg h)
  | trap pc => exact .trap (trapCode_seg h)

end Inversion

end Xv6Schedulers.Kernel
