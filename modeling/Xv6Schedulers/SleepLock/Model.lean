import Mathlib.Logic.Function.Basic
import Mathlib.Tactic.Simps.Basic
import Xv6Schedulers.Kernel.Proc
import Xv6Schedulers.Lib.Machine

/-!
# Model — `sleeplock.c` as run by any number of processes

`acquiresleep`, `releasesleep` and `holdingsleep` on one lock, with `sleep`, `wakeup` and `kill` of
`proc.c`.  One step is an operation on `lk->lk` or on a `p->lock`, or the assignments between two of
them.

* `State` holds `struct sleeplock`, the fields of each process that `sleep` and `wakeup` use, and
  where each process stands.
* `State.inside` records who has returned from `acquiresleep` and not yet called `releasesleep`.
* `State.run` is the code; `Step` lists what a step can do.
-/

namespace Xv6Schedulers.SleepLock

open Lib Function
open Kernel (ProcState)

inductive Pc
  /-- in none of the functions -/
  | idle
  /-- before `acquire(&lk->lk)` in `acquiresleep`, or at the end of `sleep` -/
  | acquire
  /-- at `while (lk->locked)` -/
  | test
  /-- before the last `release(&lk->lk)` of `acquiresleep` -/
  | took
  /-- in `sleep`, before `acquire(&p->lock)` -/
  | lockSelf
  /-- in `sleep`, before `release(lk)` -/
  | unlock
  /-- in `sleep`, before `p->chan = chan` -/
  | fall
  /-- in `sched`, before the scheduler releases `p->lock` -/
  | switch
  /-- in `sched`, switched away -/
  | away
  /-- back from `sched`, before `p->chan = 0` -/
  | back
  /-- in `sleep`, before `release(&p->lock)` -/
  | unlockSelf
  /-- before `acquire(&lk->lk)` in `releasesleep` -/
  | release
  /-- before `lk->locked = 0` -/
  | clear
  /-- `wakeup` has the processes from number `j` on before it -/
  | wakeup (j : Nat)
  /-- `wakeup` holds the lock of process `j` -/
  | wake (j : Nat)
  /-- before the `release(&lk->lk)` of `releasesleep` -/
  | released
  /-- before `acquire(&lk->lk)` in `holdingsleep` -/
  | query
  /-- before the assignment to `r` -/
  | look
  /-- before the `release(&lk->lk)` of `holdingsleep`, which returns `r` -/
  | answer (r : Bool)
  /-- `kill(pid)` has the processes from number `j` on before it -/
  | kill (pid : Int32) (j : Nat)
  /-- `kill(pid)` holds the lock of process `j` -/
  | killing (pid : Int32) (j : Nat)
  deriving DecidableEq, Repr

/-- `lk`, and the processes that use it. -/
structure State (n : Nat) where
  /-- `lk->locked` -/
  locked : Bool
  /-- `lk->pid` -/
  owner : Int32
  /-- who holds `lk->lk` -/
  lk : Option (Fin n)
  /-- who holds `p->lock` -/
  plock : Fin n → Option (Fin n)
  state : Fin n → ProcState
  /-- `p->chan` is `lk` -/
  chan : Fin n → Bool
  killed : Fin n → Bool
  pc : Fin n → Pc
  inside : Fin n → Bool

inductive Act
  /-- call `acquiresleep` -/
  | acquiresleep
  /-- call `releasesleep` -/
  | releasesleep
  /-- call `holdingsleep` -/
  | holdingsleep
  /-- call `kill` -/
  | kill (pid : Int32)
  /-- go on -/
  | run
  deriving DecidableEq, Repr

namespace State

variable {n : Nat}

@[simps]
def goto (s : State n) (p : Fin n) (v : Pc) : State n := { s with pc := update s.pc p v }

@[simps]
def setLk (s : State n) (o : Option (Fin n)) : State n := { s with lk := o }

@[simps]
def setPlock (s : State n) (q : Fin n) (o : Option (Fin n)) : State n :=
  { s with plock := update s.plock q o }

@[simps]
def setState (s : State n) (q : Fin n) (v : ProcState) : State n :=
  { s with state := update s.state q v }

@[simps]
def setChan (s : State n) (q : Fin n) (b : Bool) : State n := { s with chan := update s.chan q b }

@[simps]
def setLocked (s : State n) (b : Bool) (o : Int32) : State n := { s with locked := b, owner := o }

@[simps]
def setInside (s : State n) (q : Fin n) (b : Bool) : State n :=
  { s with inside := update s.inside q b }

@[simps]
def setKilled (s : State n) (q : Fin n) : State n := { s with killed := update s.killed q true }

/-- `if(p->state == SLEEPING) p->state = RUNNABLE`, under a condition. -/
def rouse (s : State n) (q : Fin n) (cond : Bool) : State n :=
  if s.state q = .sleeping ∧ cond = true then s.setState q .runnable else s

/-- Go on when a spinlock is free. -/
def whenFree (o : Option (Fin n)) (t : State n) : Option (State n) :=
  if o = none then some t else none

/-- The code of process `p`, whose pid is `pids p`. -/
def run (pids : Fin n → Int32) (s : State n) (p : Fin n) : Option (State n) :=
  match s.pc p with
  | .idle => none
  | .acquire => whenFree s.lk ((s.setLk (some p)).goto p .test)
  | .test =>
      if s.locked then
        some (s.goto p .lockSelf)
      else
        some ((s.setLocked true (pids p)).goto p .took)
  | .took => some (((s.setLk none).setInside p true).goto p .idle)
  | .lockSelf => whenFree (s.plock p) ((s.setPlock p (some p)).goto p .unlock)
  | .unlock => some ((s.setLk none).goto p .fall)
  | .fall => some (((s.setChan p true).setState p .sleeping).goto p .switch)
  | .switch => some ((s.setPlock p none).goto p .away)
  | .away =>
      -- the scheduler acquires the lock of a `RUNNABLE` process and switches to it
      if s.state p = .runnable then
        whenFree (s.plock p) (((s.setPlock p (some p)).setState p .running).goto p .back)
      else
        none
  | .back => some ((s.setChan p false).goto p .unlockSelf)
  | .unlockSelf => some ((s.setPlock p none).goto p .acquire)
  | .release => whenFree s.lk ((s.setLk (some p)).goto p .clear)
  | .clear => some ((s.setLocked false 0).goto p (.wakeup 0))
  | .wakeup j =>
      if h : j < n then
        if (⟨j, h⟩ : Fin n) ≠ p then
          whenFree (s.plock ⟨j, h⟩) ((s.setPlock ⟨j, h⟩ (some p)).goto p (.wake j))
        else
          some (s.goto p (.wakeup (j + 1)))
      else
        some (s.goto p .released)
  | .wake j =>
      if h : j < n then
        some (((s.rouse ⟨j, h⟩ (s.chan ⟨j, h⟩)).setPlock ⟨j, h⟩ none).goto p (.wakeup (j + 1)))
      else
        none
  | .released => some ((s.setLk none).goto p .idle)
  | .query => whenFree s.lk ((s.setLk (some p)).goto p .look)
  | .look => some (s.goto p (.answer (s.locked && s.owner == pids p)))
  | .answer _ => some ((s.setLk none).goto p .idle)
  | .kill pid j =>
      if h : j < n then
        whenFree (s.plock ⟨j, h⟩) ((s.setPlock ⟨j, h⟩ (some p)).goto p (.killing pid j))
      else
        some (s.goto p .idle)
  | .killing pid j =>
      if h : j < n then
        if pids ⟨j, h⟩ = pid then
          some ((((s.setKilled ⟨j, h⟩).rouse ⟨j, h⟩ true).setPlock ⟨j, h⟩ none).goto p .idle)
        else
          some ((s.setPlock ⟨j, h⟩ none).goto p (.kill pid (j + 1)))
      else
        none

/-- A process calls a function, or goes on. -/
def step (pids : Fin n → Int32) (s : State n) (p : Fin n) : Act → Option (State n)
  | .acquiresleep => if s.pc p = .idle then some (s.goto p .acquire) else none
  | .releasesleep =>
      -- only who holds the lock releases it
      if s.pc p = .idle ∧ s.inside p = true then
        some ((s.setInside p false).goto p .release)
      else
        none
  | .holdingsleep => if s.pc p = .idle then some (s.goto p .query) else none
  | .kill pid => if s.pc p = .idle then some (s.goto p (.kill pid 0)) else none
  | .run => s.run pids p

/-- After `initsleeplock`. -/
def boot (n : Nat) : State n where
  locked := false
  owner := 0
  lk := none
  plock := fun _ => none
  state := fun _ => .running
  chan := fun _ => false
  killed := fun _ => false
  pc := fun _ => .idle
  inside := fun _ => false

end State

def machine {n : Nat} (pids : Fin n → Int32) : Machine (State n) (Fin n × Act) where
  step s a := s.step pids a.1 a.2

/-! ## The steps -/

variable {n : Nat} {pids : Fin n → Int32} {s t : State n} {p : Fin n}

/-- What a step of process `p` can do. -/
inductive Step (pids : Fin n → Int32) (s : State n) (p : Fin n) : State n → Prop
  | call {v : Pc} (hpc : s.pc p = .idle) (hv : v = .acquire ∨ v = .query ∨ ∃ pid, v = .kill pid 0) :
      Step pids s p (s.goto p v)
  | callRelease (hpc : s.pc p = .idle) (hin : s.inside p = true) :
      Step pids s p ((s.setInside p false).goto p .release)
  | enter {v w : Pc} (hpc : s.pc p = v) (hlk : s.lk = none)
      (hw : v = .acquire ∧ w = .test ∨ v = .release ∧ w = .clear ∨ v = .query ∧ w = .look) :
      Step pids s p ((s.setLk (some p)).goto p w)
  | wait (hpc : s.pc p = .test) (hlocked : s.locked = true) : Step pids s p (s.goto p .lockSelf)
  | take (hpc : s.pc p = .test) (hlocked : s.locked = false) :
      Step pids s p ((s.setLocked true (pids p)).goto p .took)
  | took (hpc : s.pc p = .took) : Step pids s p (((s.setLk none).setInside p true).goto p .idle)
  | lockSelf (hpc : s.pc p = .lockSelf) (hfree : s.plock p = none) :
      Step pids s p ((s.setPlock p (some p)).goto p .unlock)
  | unlock (hpc : s.pc p = .unlock) : Step pids s p ((s.setLk none).goto p .fall)
  | fall (hpc : s.pc p = .fall) :
      Step pids s p (((s.setChan p true).setState p .sleeping).goto p .switch)
  | switch (hpc : s.pc p = .switch) : Step pids s p ((s.setPlock p none).goto p .away)
  | resume (hpc : s.pc p = .away) (hfree : s.plock p = none) :
      Step pids s p (((s.setPlock p (some p)).setState p .running).goto p .back)
  | back (hpc : s.pc p = .back) : Step pids s p ((s.setChan p false).goto p .unlockSelf)
  | unlockSelf (hpc : s.pc p = .unlockSelf) : Step pids s p ((s.setPlock p none).goto p .acquire)
  | clear (hpc : s.pc p = .clear) : Step pids s p ((s.setLocked false 0).goto p (.wakeup 0))
  | visit {q : Fin n} (hpc : s.pc p = .wakeup q.val) (hne : q ≠ p) (hfree : s.plock q = none) :
      Step pids s p ((s.setPlock q (some p)).goto p (.wake q.val))
  | skip (hpc : s.pc p = .wakeup p.val) : Step pids s p (s.goto p (.wakeup (p.val + 1)))
  | wake {q : Fin n} (hpc : s.pc p = .wake q.val) :
      Step pids s p (((s.rouse q (s.chan q)).setPlock q none).goto p (.wakeup (q.val + 1)))
  | woken {j : Nat} (hpc : s.pc p = .wakeup j) (hj : n ≤ j) : Step pids s p (s.goto p .released)
  | look (hpc : s.pc p = .look) : Step pids s p (s.goto p (.answer (s.locked && s.owner == pids p)))
  | leave (hpc : s.pc p = .released ∨ ∃ r, s.pc p = .answer r) :
      Step pids s p ((s.setLk none).goto p .idle)
  | killVisit {pid : Int32} {q : Fin n} (hpc : s.pc p = .kill pid q.val) (hfree : s.plock q = none) :
      Step pids s p ((s.setPlock q (some p)).goto p (.killing pid q.val))
  | killHit {q : Fin n} (hpc : s.pc p = .killing (pids q) q.val) :
      Step pids s p ((((s.setKilled q).rouse q true).setPlock q none).goto p .idle)
  | killMiss {pid : Int32} {q : Fin n} (hpc : s.pc p = .killing pid q.val) :
      Step pids s p ((s.setPlock q none).goto p (.kill pid (q.val + 1)))
  | killEnd {pid : Int32} {j : Nat} (hpc : s.pc p = .kill pid j) : Step pids s p (s.goto p .idle)

theorem whenFree_some {o : Option (Fin n)} {u : State n} (h : State.whenFree o u = some t) :
    o = none ∧ t = u := by
  unfold State.whenFree at h
  split at h <;> cases h
  exact ⟨by assumption, rfl⟩

theorem run_cases (h : s.run pids p = some t) : Step pids s p t := by
  unfold State.run at h
  split at h
  case h_1 => cases h
  case h_2 hpc =>
      rcases whenFree_some h with ⟨hfree, rfl⟩
      exact .enter hpc hfree (by simp)
  case h_3 hpc =>
      split at h <;> cases h
      · exact .wait hpc (by assumption)
      · exact .take hpc (by simp_all)
  case h_4 hpc =>
      cases h
      exact .took hpc
  case h_5 hpc =>
      rcases whenFree_some h with ⟨hfree, rfl⟩
      exact .lockSelf hpc hfree
  case h_6 hpc =>
      cases h
      exact .unlock hpc
  case h_7 hpc =>
      cases h
      exact .fall hpc
  case h_8 hpc =>
      cases h
      exact .switch hpc
  case h_9 hpc =>
      split at h
      · rcases whenFree_some h with ⟨hfree, rfl⟩
        exact .resume hpc hfree
      · cases h
  case h_10 hpc =>
      cases h
      exact .back hpc
  case h_11 hpc =>
      cases h
      exact .unlockSelf hpc
  case h_12 hpc =>
      rcases whenFree_some h with ⟨hfree, rfl⟩
      exact .enter hpc hfree (by simp)
  case h_13 hpc =>
      cases h
      exact .clear hpc
  case h_14 hpc =>
      split at h
      · split at h
        · rcases whenFree_some h with ⟨hfree, rfl⟩
          exact .visit hpc (by assumption) hfree
        · rename_i hself
          cases h
          rw [not_not] at hself
          subst hself
          exact .skip hpc
      · cases h
        exact .woken hpc (by omega)
  case h_15 hpc =>
      split at h <;> cases h
      exact .wake hpc
  case h_16 hpc =>
      cases h
      exact .leave (Or.inl hpc)
  case h_17 hpc =>
      rcases whenFree_some h with ⟨hfree, rfl⟩
      exact .enter hpc hfree (by simp)
  case h_18 hpc =>
      cases h
      exact .look hpc
  case h_19 hpc =>
      cases h
      exact .leave (Or.inr ⟨_, hpc⟩)
  case h_20 hpc =>
      split at h
      · rcases whenFree_some h with ⟨hfree, rfl⟩
        exact .killVisit hpc hfree
      · cases h
        exact .killEnd hpc
  case h_21 hpc =>
      split at h
      · split at h
        · rename_i hpid
          cases h
          subst hpid
          exact .killHit hpc
        · cases h
          exact .killMiss hpc
      · cases h

theorem step_cases {a : Act} (h : s.step pids p a = some t) : Step pids s p t := by
  cases a with
  | acquiresleep =>
    simp only [State.step] at h
    split at h <;> cases h
    exact .call (by assumption) (Or.inl rfl)
  | releasesleep =>
    simp only [State.step] at h
    split at h <;> cases h
    rename_i hpc
    exact .callRelease hpc.1 hpc.2
  | holdingsleep =>
    simp only [State.step] at h
    split at h <;> cases h
    exact .call (by assumption) (Or.inr (Or.inl rfl))
  | kill pid =>
    simp only [State.step] at h
    split at h <;> cases h
    exact .call (by assumption) (Or.inr (Or.inr ⟨pid, rfl⟩))
  | run => exact run_cases h

end Xv6Schedulers.SleepLock
