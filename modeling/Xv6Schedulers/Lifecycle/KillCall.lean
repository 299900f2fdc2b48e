import Xv6Schedulers.Locking.Effect
import Mathlib.Order.Fin.Basic
import Mathlib.Order.WellFounded

/-!
# KillCall — a call of `kill` from start to return

`kill(pid)` walks over all slots and compares `p->pid`, whatever `p->state` is.

* `Alone c` are the runs in which hart `c` moves while the others stand still; `kill_returns` is
  the run of a whole call;
* `KillsNamed` is what the caller expects of it, and `FirstLive` when it gets that: `freeproc`
  clears `pid`, so `kill(0)` may match a free slot first.
-/

namespace Xv6Schedulers.Lifecycle

open Kernel Locking Lib Function

variable {n : Nat}

/-! ## A call without interference -/

/-- Hart `c` moves, and nothing is left to choose. -/
def Alone (c : Fin n) : Machine.Guard (State n) (Fin n × Choice) := fun _ a _ => a = (c, .go)

/-- The state with another stack of the thread that hart `c` executes. -/
def resume (s : State n) (c : Fin n) (st : Stack) : State n := s.setStack (s.thread c) st

/-- The state in which hart `c` has taken the lock. -/
def lockState (s : State n) (c : Fin n) (l : Lock) : State n :=
  (s.setCpu c (s.cpu c).pushOff).setLocked l (some c)

section Alone

variable {s : State n} {c : Fin n} {l : Lock} {f : Frame} {rest : Stack}

@[simp] theorem resume_thread (st : Stack) (d : Fin n) : (resume s c st).thread d = s.thread d := rfl

@[simp] theorem resume_stack (st : Stack) : (resume s c st).stack (s.thread c) = st := by
  simp [resume]

@[simp] theorem resume_resume (st st' : Stack) : resume (resume s c st) c st' = resume s c st' := by
  simp [resume, State.setStack, State.thread]

theorem resume_self {st : Stack} (hst : s.stack (s.thread c) = st) : resume s c st = s := by
  subst hst
  simp [resume, State.setStack]

/-- One step of the frame on top. -/
theorem frame_alone {t : State n} (hrun : (s.cpu c).panicked = none)
    (h : frameStep (resume s c (f :: rest)) c f rest .go = some t) :
    (machine n).Path (Alone c) (resume s c (f :: rest)) t := by
  refine Machine.Path.head ?_ rfl (Machine.Path.refl _)
  have hpan : ((resume s c (f :: rest)).cpu c).panicked = none := hrun
  simpa [machine, step, hpan] using h

theorem acquire_alone (hrun : (s.cpu c).panicked = none) (hfree : s.locked l = none) :
    (machine n).Path (Alone c) (resume s c (.acquire l :: rest))
      (resume (lockState s c l) c rest) := by
  let u := s.setCpu c (s.cpu c).pushOff
  have hfirst : (machine n).Path (Alone c) (resume s c (.acquire l :: rest))
      (resume u c (.spin l :: rest)) := by
    refine frame_alone hrun ?_
    simp [frameStep, acquireStep, State.Holding, resume, hfree, u, State.setStack, State.setCpu,
      State.thread]
  have hsecond : (machine n).Path (Alone c) (resume u c (.spin l :: rest))
      (resume (lockState s c l) c rest) := by
    have hpan : (u.cpu c).panicked = none := by simpa [u, Cpu.pushOff] using hrun
    refine frame_alone hpan ?_
    simp [frameStep, spinStep, resume, hfree, u, lockState, State.setStack, State.setCpu,
      State.setLocked, State.thread]
  exact hfirst.trans hsecond

theorem release_alone {u : Cpu} (rest : Stack) (hrun : (s.cpu c).panicked = none) (hold : s.locked l = some c)
    (hpop : (s.cpu c).popOff = .ok u) :
    (machine n).Path (Alone c) (resume s c (.release l :: rest))
      (resume ((s.setLocked l none).setCpu c u) c rest) := by
  refine frame_alone hrun ?_
  simp [frameStep, releaseStep, State.Holding, resume, hold, hpop, State.setStack, State.setCpu,
    State.setLocked, State.thread]

theorem wake_alone {pc : WakePc} {ws : List Write} {fs : Stack} (rest : Stack)
    (hrun : (s.cpu c).panicked = none)
    (hcode : wakeCode s c pc .go = some (.goes ws fs)) :
    (machine n).Path (Alone c) (resume s c (.wake pc :: rest))
      ((resume s c (fs ++ rest)).writes c ws) := by
  refine frame_alone hrun ?_
  have hsame : wakeCode (resume s c (.wake pc :: rest)) c pc .go = some (.goes ws fs) := hcode
  have hstack := resume_resume (s := s) (c := c) (.wake pc :: rest) (fs ++ rest)
  simp only [frameStep, codeStep, code, hsame]
  rw [← hstack]
  rfl

end Alone

/-! ## `kill` from call to return -/

/-- The record of a process that `kill` has marked. -/
def marked (p : Proc) : Proc :=
  { p with
    killed := 1
    state := if p.state = .sleeping then .runnable else p.state }

/-- The state with slot `i` marked by `kill(pid)`. -/
def markSlot (s : State n) (i : Slot) (pid : Int32) : State n :=
  { s with
    proc := update s.proc i (marked (s.proc i))
    trace := .kill i pid :: s.trace }

/-- The state in which `acquire` has saved `b` in `intena`. -/
def saveIntr (s : State n) (c : Fin n) (b : Bool) : State n :=
  s.setCpu c { s.cpu c with intena := b }

section Kill

variable {s : State n} {c : Fin n} {pid : Int32} {i : Slot} {rest : Stack}

theorem killVisit_alone (hrun : (s.cpu c).panicked = none) (hfree : s.locked (.proc i) = none) :
    (machine n).Path (Alone c) (resume s c (.wake (.killNext pid i.val) :: rest))
      (resume (lockState s c (.proc i)) c (.wake (.killLocked pid i) :: rest)) := by
  have hcode : wakeCode s c (.killNext pid i.val) .go =
      some (.goes [] [.acquire (.proc i), .wake (.killLocked pid i)]) := by
    simp [wakeCode]
  exact (wake_alone _ hrun hcode).trans (acquire_alone hrun hfree)

theorem lockState_release (hnoff : (s.cpu c).noff = 0) (hfree : s.locked (.proc i) = none) :
    ∃ u, ((lockState s c (.proc i)).cpu c).popOff = .ok u ∧
      (((lockState s c (.proc i)).setLocked (.proc i) none).setCpu c u) =
        saveIntr s c (s.cpu c).intr := by
  have hpop := Cpu.popOff_pushOff (u := s.cpu c) (fun hne => absurd hnoff hne)
  refine ⟨_, by simpa [lockState] using hpop, ?_⟩
  simp [lockState, saveIntr, State.setCpu, State.setLocked, hnoff, hfree]

theorem killSkip_alone (rest : Stack) (hrun : (s.cpu c).panicked = none) (hnoff : (s.cpu c).noff = 0)
    (hfree : s.locked (.proc i) = none) (hpid : (s.proc i).pid ≠ pid) :
    (machine n).Path (Alone c) (resume s c (.wake (.killNext pid i.val) :: rest))
      (resume (saveIntr s c (s.cpu c).intr) c (.wake (.killNext pid (i.val + 1)) :: rest)) := by
  have hrun' : ((lockState s c (.proc i)).cpu c).panicked = none := by
    simpa [lockState, Cpu.pushOff] using hrun
  have hcode : wakeCode (lockState s c (.proc i)) c (.killLocked pid i) .go =
      some (.goes [] [.release (.proc i), .wake (.killNext pid (i.val + 1))]) := by
    simp [wakeCode, lockState, hpid]
  rcases lockState_release hnoff hfree with ⟨u, hpop, hend⟩
  have hold : (lockState s c (.proc i)).locked (.proc i) = some c := by simp [lockState]
  have hrelease := release_alone (.wake (.killNext pid (i.val + 1)) :: rest) hrun' hold hpop
  rw [hend] at hrelease
  exact (killVisit_alone hrun hfree).trans ((wake_alone _ hrun' hcode).trans hrelease)

theorem killHit_alone (rest : Stack) (hrun : (s.cpu c).panicked = none) (hnoff : (s.cpu c).noff = 0)
    (hfree : s.locked (.proc i) = none) (hpid : (s.proc i).pid = pid) :
    (machine n).Path (Alone c) (resume s c (.wake (.killNext pid i.val) :: rest))
      (resume (markSlot (saveIntr s c (s.cpu c).intr) i pid) c (.ret 0 :: rest)) := by
  let v := lockState s c (.proc i)
  have hrun' : (v.cpu c).panicked = none := by
    simpa [v, lockState, Cpu.pushOff] using hrun
  have hmark : (machine n).Path (Alone c) (resume v c (.wake (.killLocked pid i) :: rest))
      (resume (markSlot v i pid) c (.release (.proc i) :: .ret 0 :: rest)) := by
    have hpid' : (v.proc i).pid = pid := hpid
    by_cases hstate : (v.proc i).state = .sleeping
    · have hcode : wakeCode v c (.killLocked pid i) .go =
          some (.goes [.killed i 1, .state i .runnable, .event (.kill i pid)]
            [.release (.proc i), .ret 0]) := by
        simp [wakeCode, hpid', hstate]
      have hend : ((resume v c ([.release (.proc i), .ret 0] ++ rest)).writes c
          [.killed i 1, .state i .runnable, .event (.kill i pid)]) =
            resume (markSlot v i pid) c (.release (.proc i) :: .ret 0 :: rest) := by
        simp [State.writes, State.write, State.modifyProc, resume, State.setStack, markSlot, marked,
          hstate, State.thread]
      rw [← hend]
      exact wake_alone rest hrun' hcode
    · have hcode : wakeCode v c (.killLocked pid i) .go =
          some (.goes [.killed i 1, .event (.kill i pid)] [.release (.proc i), .ret 0]) := by
        simp [wakeCode, hpid', hstate]
      have hend : ((resume v c ([.release (.proc i), .ret 0] ++ rest)).writes c
          [.killed i 1, .event (.kill i pid)]) =
            resume (markSlot v i pid) c (.release (.proc i) :: .ret 0 :: rest) := by
        simp [State.writes, State.write, State.modifyProc, resume, State.setStack, markSlot, marked,
          hstate, State.thread]
      rw [← hend]
      exact wake_alone rest hrun' hcode
  rcases lockState_release hnoff hfree with ⟨u, hpop, hend⟩
  have hrelease : (machine n).Path (Alone c)
      (resume (markSlot v i pid) c (.release (.proc i) :: .ret 0 :: rest))
      (resume (((markSlot v i pid).setLocked (.proc i) none).setCpu c u) c (.ret 0 :: rest)) :=
    release_alone _ hrun' (by simp [markSlot, v, lockState]) hpop
  have hcomm : ((markSlot v i pid).setLocked (.proc i) none).setCpu c u =
      markSlot ((v.setLocked (.proc i) none).setCpu c u) i pid := rfl
  rw [hcomm, hend] at hrelease
  exact (killVisit_alone hrun hfree).trans (hmark.trans hrelease)

theorem killScan_alone {k : Nat} (hrun : (s.cpu c).panicked = none) (hnoff : (s.cpu c).noff = 0)
    (hfree : ∀ j, s.locked (.proc j) = none) (hk : k ≤ NPROC)
    (hskip : ∀ j : Slot, j.val < k → (s.proc j).pid ≠ pid) :
    ∃ b, (machine n).Path (Alone c) (resume s c (.wake (.killNext pid 0) :: rest))
      (resume (saveIntr s c b) c (.wake (.killNext pid k) :: rest)) := by
  induction k with
  | zero =>
    refine ⟨(s.cpu c).intena, ?_⟩
    have hself : saveIntr s c (s.cpu c).intena = s := by simp [saveIntr, State.setCpu]
    rw [hself]
    exact Machine.Path.refl _
  | succ k ih =>
    rcases ih (by omega) (fun j hj => hskip j (by omega)) with ⟨b, hb⟩
    have hlt : k < NPROC := by omega
    have hvisit := killSkip_alone (s := saveIntr s c b) (c := c) (i := ⟨k, hlt⟩) rest
      (by simpa [saveIntr] using hrun) (by simpa [saveIntr] using hnoff) (hfree _)
      (hskip ⟨k, hlt⟩ (by simp))
    have hsame : saveIntr (saveIntr s c b) c ((saveIntr s c b).cpu c).intr =
        saveIntr s c (s.cpu c).intr := by
      simp [saveIntr, State.setCpu]
    rw [hsame] at hvisit
    exact ⟨_, hb.trans hvisit⟩

/-- Slot `i` is the first with this `pid`. -/
def FirstMatch (s : State n) (pid : Int32) (i : Slot) : Prop :=
  (s.proc i).pid = pid ∧ ∀ j, j < i → (s.proc j).pid ≠ pid

theorem firstMatch_unique {j : Slot} (hi : FirstMatch s pid i) (hj : FirstMatch s pid j) :
    i = j := by
  rcases lt_trichotomy i j with hlt | heq | hgt
  · exact absurd hi.1 (hj.2 i hlt)
  · exact heq
  · exact absurd hj.1 (hi.2 j hgt)

theorem firstMatch_or_none (s : State n) (pid : Int32) :
    (∃ i, FirstMatch s pid i) ∨ ∀ i, (s.proc i).pid ≠ pid := by
  by_cases hex : ∃ i, (s.proc i).pid = pid
  · rcases wellFounded_lt.has_min {i : Slot | (s.proc i).pid = pid} hex with ⟨i, hi, hmin⟩
    exact .inl ⟨i, hi, fun j hj heq => hmin j heq hj⟩
  · exact .inr fun i hi => hex ⟨i, hi⟩

/-- `kill` returns: 0 after it has marked the first slot with this `pid`, -1 if there is none. -/
theorem kill_returns (hrun : (s.cpu c).panicked = none) (hnoff : (s.cpu c).noff = 0)
    (hfree : ∀ j, s.locked (.proc j) = none)
    (hst : s.stack (s.thread c) = .wake (.killNext pid 0) :: rest) :
    (∃ i b, FirstMatch s pid i ∧ (machine n).Path (Alone c) s
      (resume (markSlot (saveIntr s c b) i pid) c (.ret 0 :: rest))) ∨
    ((∀ i, (s.proc i).pid ≠ pid) ∧ ∃ b, (machine n).Path (Alone c) s
      (resume (saveIntr s c b) c (.ret (-1) :: rest))) := by
  have hself := resume_self hst
  rcases firstMatch_or_none s pid with ⟨i, hi⟩ | hnone
  · rcases killScan_alone hrun hnoff hfree (Nat.le_of_lt i.isLt) hi.2 with ⟨b, hscan⟩
    rw [hself] at hscan
    have hhit := killHit_alone (s := saveIntr s c b) (c := c) (i := i) rest
      (by simpa [saveIntr] using hrun) (by simpa [saveIntr] using hnoff) (hfree i) hi.1
    have hsame : saveIntr (saveIntr s c b) c ((saveIntr s c b).cpu c).intr =
        saveIntr s c (s.cpu c).intr := by
      simp [saveIntr, State.setCpu]
    rw [hsame] at hhit
    exact .inl ⟨i, _, hi, hscan.trans hhit⟩
  · rcases killScan_alone hrun hnoff hfree (Nat.le_refl _) (fun j _ => hnone j) with ⟨b, hscan⟩
    rw [hself] at hscan
    have hcode : wakeCode (saveIntr s c b) c (.killNext pid NPROC) .go =
        some (.goes [] [.ret (-1)]) := by
      simp [wakeCode]
    have hend := wake_alone rest (by simpa [saveIntr] using hrun) hcode
    exact .inr ⟨hnone, b, hscan.trans hend⟩

end Kill

/-! ## What the caller expects -/

/-- Slot `i` holds a process with this `pid`. -/
def Named (s : State n) (pid : Int32) (i : Slot) : Prop :=
  (s.proc i).state ≠ .unused ∧ (s.proc i).pid = pid

/-- Apart from the process table and the history, `t` differs from `s` only in the stack of the
caller and in the interrupt bit that `acquire` saves. -/
structure Untouched (s t : State n) (c : Fin n) : Prop where
  initproc : t.initproc = s.initproc
  nextpid : t.nextpid = s.nextpid
  lastIndex : t.lastIndex = s.lastIndex
  locked : t.locked = s.locked
  cur : t.cur = s.cur
  a0 : t.a0 = s.a0
  stack : ∀ u, u ≠ s.thread c → t.stack u = s.stack u
  cpu : ∃ b, t.cpu = update s.cpu c { s.cpu c with intena := b }

/-- `kill(pid)`, called in `s`, returns `v` in `t` and reaches exactly the process named. -/
structure KillsNamed (s t : State n) (c : Fin n) (pid v : Int32) : Prop where
  zero : v = 0 ↔ ∃ i, Named s pid i
  found : (∃ i, Named s pid i) → ∃ i, Named s pid i ∧
    t.proc = update s.proc i (marked (s.proc i)) ∧ t.trace = .kill i pid :: s.trace
  missing : (¬ ∃ i, Named s pid i) → v = -1 ∧ t.proc = s.proc ∧ t.trace = s.trace
  untouched : Untouched s t c

/-- The first slot with this `pid`, if there is one, is not `UNUSED`. -/
def FirstLive (s : State n) (pid : Int32) : Prop :=
  ∀ i, FirstMatch s pid i → (s.proc i).state ≠ .unused

section Contract

variable {s : State n} {c : Fin n} {pid : Int32} {i : Slot} {b : Bool} {st : Stack}

theorem untouched_resume (st : Stack) : Untouched s (resume (saveIntr s c b) c st) c := by
  refine ⟨rfl, rfl, rfl, rfl, rfl, rfl, ?_, b, rfl⟩
  intro u hu
  exact update_of_ne hu _ _

/-- The call that marks slot `i` meets the expectation exactly if a process lives there. -/
theorem killsNamed_marked (hi : FirstMatch s pid i) :
    KillsNamed s (resume (markSlot (saveIntr s c b) i pid) c st) c pid 0 ↔ FirstLive s pid := by
  have hproc : (resume (markSlot (saveIntr s c b) i pid) c st).proc =
      update s.proc i (marked (s.proc i)) := rfl
  have htrace : (resume (markSlot (saveIntr s c b) i pid) c st).trace = .kill i pid :: s.trace := rfl
  have htouch := untouched_resume (s := s) (c := c) (b := b) st
  constructor
  · intro h j hj
    have hji := firstMatch_unique hj hi
    subst hji
    -- the history names the slot that was marked
    rcases h.found (h.zero.1 rfl) with ⟨k, hk, -, hevent⟩
    have hkj : j = k := by simpa [htrace] using hevent
    subst hkj
    exact hk.1
  · intro h
    have hnamed : Named s pid i := ⟨h i hi, hi.1⟩
    refine ⟨by simpa using ⟨i, hnamed⟩, fun _ => ⟨i, hnamed, hproc, htrace⟩, ?_, ?_⟩
    · intro hnone
      exact absurd ⟨i, hnamed⟩ hnone
    · exact { htouch with }

theorem killsNamed_missing (st : Stack) (hnone : ∀ i, (s.proc i).pid ≠ pid) :
    KillsNamed s (resume (saveIntr s c b) c st) c pid (-1) ∧ FirstLive s pid := by
  have hnamed : ¬ ∃ i, Named s pid i := fun ⟨i, hi⟩ => hnone i hi.2
  refine ⟨⟨?_, fun h => absurd h hnamed, fun _ => ⟨rfl, rfl, rfl⟩, untouched_resume st⟩, ?_⟩
  · simpa using hnamed
  · intro i hi
    exact absurd hi.1 (hnone i)

end Contract

end Xv6Schedulers.Lifecycle
