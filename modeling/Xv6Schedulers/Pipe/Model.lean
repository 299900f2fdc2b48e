import Mathlib.Algebra.BigOperators.Group.Finset.Basic
import Mathlib.Data.Fintype.BigOperators
import Xv6Schedulers.Lib.Fifo
import Xv6Schedulers.Lib.Machine

/-!
# Pipe — `pipe.c` as run by any number of processes

`pipewrite`, `piperead` and `pipeclose` on one pipe.  One step is a round of a loop, a lock
operation, or the visit of one process by `wakeup`.

* `State` holds `struct pipe`, where each process stands, and which descriptors it has; its last
  fields only record history.
* A process that has taken its own `p->lock` in `sleep` and not yet switched away is `fallen`;
  `wakeup` and `kill` wait for it.
* `State.step` is the code, `Step` lists what a step can do.
-/

namespace Xv6Schedulers.Pipe

open Lib Function

def PIPESIZE : Nat := 512

instance : NeZero PIPESIZE := ⟨by decide⟩

theorem pipesize_dvd : PIPESIZE ∣ 2 ^ 32 := by decide

inductive End
  | read
  | write
  deriving DecidableEq, Repr

/-- The addresses `&pi->nread` and `&pi->nwrite`. -/
inductive Chan
  | nread
  | nwrite
  deriving DecidableEq, Repr

/-- A call that may sleep: `pipewrite` with `i` of `m` bytes written, or `piperead` of `m` bytes. -/
inductive Call
  | write (m : Int) (i : Nat)
  | read (m : Int)
  deriving DecidableEq, Repr

/-- What the call sleeps on. -/
def Call.chan : Call → Chan
  | .write _ _ => .nwrite
  | .read _ => .nread

/-- The end a call needs. -/
def Call.side : Call → End
  | .write _ _ => .write
  | .read _ => .read

/-- Whom `pipeclose` wakes up. -/
def End.chan : End → Chan
  | .write => .nread
  | .read => .nwrite

/-- What follows a `wakeup`. -/
inductive After
  | sleep (c : Call)
  /-- release the lock and return -/
  | release
  /-- the end of `pipeclose` -/
  | free
  deriving DecidableEq, Repr

inductive Pc
  | user
  /-- before `acquire(&pi->lock)`, at the start of a call or when `sleep` returns -/
  | acquire (c : Call)
  /-- before `acquire(&pi->lock)` in `pipeclose` -/
  | closing (e : End)
  /-- at `while(i < m)` in `pipewrite` -/
  | loop (m : Int) (i : Nat)
  /-- at `while(pi->nread == pi->nwrite && pi->writeopen)` in `piperead` -/
  | empty (m : Int)
  /-- at `for(i = 0; i < m; i++)` in `piperead` -/
  | copy (m : Int) (i : Nat)
  /-- `wakeup` has the processes from number `j` on before it -/
  | wakeup (ch : Chan) (j : Nat) (a : After)
  /-- in `sleep`, before `release(lk)` -/
  | sleep (c : Call)
  /-- in `sleep`, holding `p->lock` only -/
  | fallen (c : Call)
  /-- `SLEEPING` -/
  | asleep (c : Call)
  deriving DecidableEq, Repr

/-- The process holds `pi->lock`. -/
def Pc.holds : Pc → Bool
  | .loop _ _ | .empty _ | .copy _ _ | .wakeup _ _ _ | .sleep _ => true
  | _ => false

/-- `struct pipe`, and the processes that use it. -/
structure State (n : Nat) where
  data : Fin PIPESIZE → UInt8
  nread : UInt32
  nwrite : UInt32
  /-- `readopen` and `writeopen` -/
  isOpen : End → Bool
  lock : Option (Fin n)
  pc : Fin n → Pc
  killed : Fin n → Bool
  /-- how many descriptors of an end a process has -/
  hold : Fin n → End → Nat
  /-- how often the page has been freed -/
  freed : Nat
  /-- the bytes put into the ring -/
  put : List UInt8
  /-- the bytes taken out of the ring -/
  taken : List UInt8
  /-- the `i` with which a writer last took the lock -/
  since : Fin n → Nat

inductive Act (n : Nat)
  /-- call `pipewrite` -/
  | write (m : Int)
  /-- call `piperead` -/
  | read (m : Int)
  /-- close a descriptor -/
  | close (e : End)
  /-- `dup` or `fork`: process `q` gets a descriptor -/
  | dup (q : Fin n) (e : End)
  /-- `kill` of process `q` -/
  | kill (q : Fin n)
  /-- go on; `c` is the byte of `copyin`, or `none` when `copyin` or `copyout` fails -/
  | run (c : Option UInt8)
  deriving DecidableEq, Repr

namespace State

variable {n : Nat}

def setPc (s : State n) (p : Fin n) (v : Pc) : State n := { s with pc := update s.pc p v }

@[simp] theorem setPc_pc (s : State n) (p : Fin n) (v : Pc) :
    (s.setPc p v).pc = update s.pc p v := rfl

/-- `release(&pi->lock)`, with `v` to follow. -/
def leave (s : State n) (p : Fin n) (v : Pc) : State n := { s.setPc p v with lock := none }

@[simp] theorem leave_pc (s : State n) (p : Fin n) (v : Pc) :
    (s.leave p v).pc = update s.pc p v := rfl

/-- The `ref` of the file structure of an end: its descriptors. -/
def refs (s : State n) (e : End) : Nat := ∑ p, s.hold p e

def content (s : State n) : List UInt8 := Fifo.ring s.data s.nread (s.nwrite - s.nread).toNat

/-- `pi->nwrite == pi->nread + PIPESIZE`. -/
def Full (s : State n) : Prop := s.nwrite = s.nread + UInt32.ofNat PIPESIZE

instance (s : State n) : Decidable s.Full := inferInstanceAs (Decidable (_ = _))

/-- `acquire(&pi->lock)` in `pipewrite`, `piperead` or `sleep`. -/
def enter (s : State n) (p : Fin n) : Call → State n
  | .write m i =>
      { s.setPc p (.loop m i) with lock := some p, since := update s.since p i }
  | .read m => { s.setPc p (.empty m) with lock := some p }

/-- `acquire(&pi->lock)` in `pipeclose`, and the end is closed. -/
def shut (s : State n) (p : Fin n) (e : End) : State n :=
  { s.setPc p (.wakeup e.chan 0 .free) with
    lock := some p
    isOpen := update s.isOpen e false }

def putByte (s : State n) (b : UInt8) : State n :=
  { s with
    data := update s.data (Fifo.slot PIPESIZE s.nwrite) b
    nwrite := s.nwrite + 1
    put := s.put ++ [b] }

def takeByte (s : State n) : State n :=
  { s with
    nread := s.nread + 1
    taken := s.taken ++ [s.data (Fifo.slot PIPESIZE s.nread)] }

/-- One round of the loop of `pipewrite`. -/
def writeRound (s : State n) (p : Fin n) (m : Int) (i : Nat) (c : Option UInt8) : State n :=
  if (i : Int) < m then
    if s.isOpen .read = false ∨ s.killed p = true then
      s.leave p .user
    else if s.Full then
      s.setPc p (.wakeup .nread 0 (.sleep (.write m i)))
    else
      match c with
      | none => s.setPc p (.wakeup .nread 0 .release)
      | some b => (s.putByte b).setPc p (.loop m (i + 1))
  else
    s.setPc p (.wakeup .nread 0 .release)

/-- One round of the first loop of `piperead`. -/
def readWait (s : State n) (p : Fin n) (m : Int) : State n :=
  if s.nread = s.nwrite ∧ s.isOpen .write = true then
    if s.killed p = true then
      s.leave p .user
    else
      s.setPc p (.sleep (.read m))
  else
    s.setPc p (.copy m 0)

/-- One round of the second loop of `piperead`. -/
def readRound (s : State n) (p : Fin n) (m : Int) (i : Nat) (c : Option UInt8) : State n :=
  if (i : Int) < m then
    if s.nread = s.nwrite then
      s.setPc p (.wakeup .nwrite 0 .release)
    else
      match c with
      | none => s.takeByte.setPc p (.wakeup .nwrite 0 .release)
      | some _ => s.takeByte.setPc p (.copy m (i + 1))
  else
    s.setPc p (.wakeup .nwrite 0 .release)

/-- One round of the loop of `wakeup`. -/
def wakeRound (s : State n) (p : Fin n) (ch : Chan) (q : Fin n) (a : After) : Option (State n) :=
  if q = p then
    some (s.setPc p (.wakeup ch (q + 1) a))
  else
    match s.pc q with
    -- `acquire(&p->lock)` waits for the switch of `q`
    | .fallen _ => none
    | .asleep c =>
        if c.chan = ch then
          some ((s.setPc q (.acquire c)).setPc p (.wakeup ch (q + 1) a))
        else
          some (s.setPc p (.wakeup ch (q + 1) a))
    | _ => some (s.setPc p (.wakeup ch (q + 1) a))

/-- What follows a `wakeup`. -/
def wakeDone (s : State n) (p : Fin n) : After → State n
  | .sleep c => s.setPc p (.sleep c)
  | .release => s.leave p .user
  | .free =>
      if s.isOpen .read = false ∧ s.isOpen .write = false then
        { s.leave p .user with freed := s.freed + 1 }
      else
        s.leave p .user

/-- Process `p` goes on. -/
def run (s : State n) (p : Fin n) (c : Option UInt8) : Option (State n) :=
  match s.pc p with
  | .user => none
  | .acquire k => if s.lock = none then some (s.enter p k) else none
  | .closing e => if s.lock = none then some (s.shut p e) else none
  | .loop m i => some (s.writeRound p m i c)
  | .empty m => some (s.readWait p m)
  | .copy m i => some (s.readRound p m i c)
  | .wakeup ch j a => if h : j < n then s.wakeRound p ch ⟨j, h⟩ a else some (s.wakeDone p a)
  | .sleep k => some (s.leave p (.fallen k))
  | .fallen k => some (s.setPc p (.asleep k))
  | .asleep _ => none

/-- The critical section of `kill` in which `q` is found. -/
def kill (s : State n) (q : Fin n) : Option (State n) :=
  let t := { s with killed := update s.killed q true }
  match s.pc q with
  | .fallen _ => none
  | .asleep c => some (t.setPc q (.acquire c))
  | _ => some t

def setHold (s : State n) (p : Fin n) (e : End) (k : Nat) : State n :=
  { s with hold := update s.hold p (update (s.hold p) e k) }

/-- `fileclose`; the last reference closes the end. -/
def close (s : State n) (p : Fin n) (e : End) : State n :=
  if 0 < (s.setHold p e (s.hold p e - 1)).refs e then
    s.setHold p e (s.hold p e - 1)
  else
    (s.setHold p e (s.hold p e - 1)).setPc p (.closing e)

def step (s : State n) (p : Fin n) : Act n → Option (State n)
  | .run c => s.run p c
  | .kill q => s.kill q
  | .write m =>
      if s.pc p = .user ∧ 0 < s.hold p .write then some (s.setPc p (.acquire (.write m 0))) else none
  | .read m =>
      if s.pc p = .user ∧ 0 < s.hold p .read then some (s.setPc p (.acquire (.read m))) else none
  | .close e => if s.pc p = .user ∧ 0 < s.hold p e then some (s.close p e) else none
  | .dup q e => if 0 < s.hold p e then some (s.setHold q e (s.hold q e + 1)) else none

/-- After `pipealloc`, called by process `p`; the page holds what it held before. -/
def boot (p : Fin n) (data : Fin PIPESIZE → UInt8) : State n where
  data := data
  nread := 0
  nwrite := 0
  isOpen := fun _ => true
  lock := none
  pc := fun _ => .user
  killed := fun _ => false
  hold := fun q _ => if q = p then 1 else 0
  freed := 0
  put := []
  taken := []
  since := fun _ => 0

end State

def machine (n : Nat) : Machine (State n) (Fin n × Act n) where
  step s a := s.step a.1 a.2

/-! ## What a step can do -/

variable {n : Nat}

inductive Step (s : State n) (p : Fin n) : State n → Prop
  | call (k : Call) (hpc : s.pc p = .user) (hhold : 0 < s.hold p k.side) :
      Step s p (s.setPc p (.acquire k))
  | close (e : End) (hpc : s.pc p = .user) (hhold : 0 < s.hold p e) :
      Step s p (s.setHold p e (s.hold p e - 1))
  | closeLast (e : End) (hpc : s.pc p = .user) (hhold : 0 < s.hold p e)
      (hlast : (s.setHold p e (s.hold p e - 1)).refs e = 0) :
      Step s p ((s.setHold p e (s.hold p e - 1)).setPc p (.closing e))
  | dup (q : Fin n) (e : End) (hhold : 0 < s.hold p e) : Step s p (s.setHold q e (s.hold q e + 1))
  | kill (q : Fin n) (hq : ∀ k, s.pc q ≠ .asleep k) :
      Step s p { s with killed := update s.killed q true }
  | killAsleep (q : Fin n) (k : Call) (hq : s.pc q = .asleep k) :
      Step s p (State.setPc { s with killed := update s.killed q true } q (.acquire k))
  | enter (k : Call) (hpc : s.pc p = .acquire k) (hlock : s.lock = none) : Step s p (s.enter p k)
  | shut (e : End) (hpc : s.pc p = .closing e) (hlock : s.lock = none) : Step s p (s.shut p e)
  | stop (m : Int) (i : Nat) (hpc : s.pc p = .loop m i)
      (hstop : s.isOpen .read = false ∨ s.killed p = true) : Step s p (s.leave p .user)
  | full (m : Int) (i : Nat) (hpc : s.pc p = .loop m i) (hopen : s.isOpen .read = true)
      (hfull : s.Full) : Step s p (s.setPc p (.wakeup .nread 0 (.sleep (.write m i))))
  | put (m : Int) (i : Nat) (b : UInt8) (hpc : s.pc p = .loop m i) (hopen : s.isOpen .read = true)
      (hfull : ¬ s.Full) : Step s p ((s.putByte b).setPc p (.loop m (i + 1)))
  | wrote (m : Int) (i : Nat) (hpc : s.pc p = .loop m i) :
      Step s p (s.setPc p (.wakeup .nread 0 .release))
  | interrupted (m : Int) (hpc : s.pc p = .empty m) : Step s p (s.leave p .user)
  | wait (m : Int) (hpc : s.pc p = .empty m) (hempty : s.nread = s.nwrite)
      (hopen : s.isOpen .write = true) : Step s p (s.setPc p (.sleep (.read m)))
  | ready (m : Int) (hpc : s.pc p = .empty m) : Step s p (s.setPc p (.copy m 0))
  | take (m : Int) (i : Nat) (v : Pc) (hpc : s.pc p = .copy m i) (hne : s.nread ≠ s.nwrite)
      (hv : v = .copy m (i + 1) ∨ v = .wakeup .nwrite 0 .release) :
      Step s p (s.takeByte.setPc p v)
  | done (m : Int) (i : Nat) (hpc : s.pc p = .copy m i) :
      Step s p (s.setPc p (.wakeup .nwrite 0 .release))
  | pass (ch : Chan) (q : Fin n) (a : After) (hpc : s.pc p = .wakeup ch q a)
      (hq : q = p ∨ ∀ k, k.chan = ch → s.pc q ≠ .asleep k ∧ s.pc q ≠ .fallen k) :
      Step s p (s.setPc p (.wakeup ch (q + 1) a))
  | wake (ch : Chan) (q : Fin n) (a : After) (k : Call) (hpc : s.pc p = .wakeup ch q a)
      (hne : q ≠ p) (hq : s.pc q = .asleep k) :
      Step s p ((s.setPc q (.acquire k)).setPc p (.wakeup ch (q + 1) a))
  | wokeSleep (ch : Chan) (j : Nat) (k : Call) (hpc : s.pc p = .wakeup ch j (.sleep k))
      (hj : n ≤ j) : Step s p (s.setPc p (.sleep k))
  | wokeLeave (ch : Chan) (j : Nat) (a : After) (hpc : s.pc p = .wakeup ch j a) (hj : n ≤ j)
      (ha : a = .free → s.isOpen .read = true ∨ s.isOpen .write = true) : Step s p (s.leave p .user)
  | wokeFree (ch : Chan) (j : Nat) (hpc : s.pc p = .wakeup ch j .free) (hj : n ≤ j)
      (hread : s.isOpen .read = false) (hwrite : s.isOpen .write = false) :
      Step s p { s.leave p .user with freed := s.freed + 1 }
  | sleep (k : Call) (hpc : s.pc p = .sleep k) : Step s p (s.leave p (.fallen k))
  | fall (k : Call) (hpc : s.pc p = .fallen k) : Step s p (s.setPc p (.asleep k))

section Inversion

variable {s t : State n} {p : Fin n}

theorem writeRound_step {m : Int} {i : Nat} {c : Option UInt8} (hpc : s.pc p = .loop m i) :
    Step s p (s.writeRound p m i c) := by
  unfold State.writeRound
  split
  · split
    · exact .stop m i hpc (by assumption)
    · rename_i hgo
      have hopen : s.isOpen .read = true := by
        simpa using fun h => hgo (.inl h)
      split
      · exact .full m i hpc hopen (by assumption)
      · cases c with
        | none => exact .wrote m i hpc
        | some b => exact .put m i b hpc hopen (by assumption)
  · exact .wrote m i hpc

theorem readWait_step {m : Int} (hpc : s.pc p = .empty m) : Step s p (s.readWait p m) := by
  unfold State.readWait
  split
  · rename_i h
    split
    · exact .interrupted m hpc
    · exact .wait m hpc h.1 h.2
  · exact .ready m hpc

theorem readRound_step {m : Int} {i : Nat} {c : Option UInt8} (hpc : s.pc p = .copy m i) :
    Step s p (s.readRound p m i c) := by
  unfold State.readRound
  split
  · split
    · exact .done m i hpc
    · cases c with
      | none => exact .take m i _ hpc (by assumption) (.inr rfl)
      | some b => exact .take m i _ hpc (by assumption) (.inl rfl)
  · exact .done m i hpc

theorem wakeRound_step {ch : Chan} {q : Fin n} {a : After} (hpc : s.pc p = .wakeup ch q a)
    (h : s.wakeRound p ch q a = some t) : Step s p t := by
  unfold State.wakeRound at h
  split at h
  · cases h
    exact .pass ch q a hpc (.inl (by assumption))
  · split at h
    · cases h
    · rename_i k hq
      split at h
      · cases h
        exact .wake ch q a k hpc (by assumption) hq
      · rename_i hch
        cases h
        refine .pass ch q a hpc (.inr fun k' hk' => ⟨?_, ?_⟩)
        · rw [hq]
          rintro ⟨⟩
          exact hch hk'
        · rw [hq]
          rintro ⟨⟩
    · rename_i hfallen hasleep
      cases h
      exact .pass ch q a hpc (.inr fun k _ => ⟨hasleep k, hfallen k⟩)

theorem wakeDone_step {ch : Chan} {j : Nat} {a : After} (hpc : s.pc p = .wakeup ch j a)
    (hj : n ≤ j) : Step s p (s.wakeDone p a) := by
  cases a with
  | sleep k => exact .wokeSleep ch j k hpc hj
  | release => exact .wokeLeave ch j _ hpc hj (by rintro ⟨⟩)
  | free =>
    simp only [State.wakeDone]
    split
    · rename_i h
      exact .wokeFree ch j hpc hj h.1 h.2
    · rename_i h
      refine .wokeLeave ch j _ hpc hj fun _ => ?_
      rcases Bool.eq_false_or_eq_true (s.isOpen .read) with hr | hr
      · exact .inl hr
      · exact .inr (by simpa using fun hw => h ⟨hr, hw⟩)

theorem run_step {c : Option UInt8} (h : s.run p c = some t) : Step s p t := by
  unfold State.run at h
  split at h
  · cases h
  · rename_i k hpc
    split at h <;> cases h
    exact .enter k hpc (by assumption)
  · rename_i e hpc
    split at h <;> cases h
    exact .shut e hpc (by assumption)
  · cases h
    exact writeRound_step (by assumption)
  · cases h
    exact readWait_step (by assumption)
  · cases h
    exact readRound_step (by assumption)
  · rename_i ch j a hpc
    split at h
    · exact wakeRound_step hpc h
    · cases h
      exact wakeDone_step hpc (Nat.le_of_not_lt (by assumption))
  · cases h
    exact .sleep _ (by assumption)
  · cases h
    exact .fall _ (by assumption)
  · cases h

theorem kill_step {q : Fin n} (h : s.kill q = some t) : Step s p t := by
  unfold State.kill at h
  split at h
  · cases h
  · cases h
    exact .killAsleep q _ (by assumption)
  · rename_i hasleep
    cases h
    exact .kill q hasleep

/-- Every step is one of those listed. -/
theorem step_cases {a : Act n} (h : s.step p a = some t) : Step s p t := by
  cases a with
  | run c => exact run_step h
  | kill q => exact kill_step h
  | write m =>
    simp only [State.step] at h
    split at h <;> cases h
    rename_i hc
    exact .call (.write m 0) hc.1 hc.2
  | read m =>
    simp only [State.step] at h
    split at h <;> cases h
    rename_i hc
    exact .call (.read m) hc.1 hc.2
  | close e =>
    simp only [State.step] at h
    split at h <;> cases h
    rename_i hc
    unfold State.close
    split
    · exact .close e hc.1 hc.2
    · exact .closeLast e hc.1 hc.2 (Nat.eq_zero_of_not_pos (by assumption))
  | dup q e =>
    simp only [State.step] at h
    split at h <;> cases h
    exact .dup q e (by assumption)

end Inversion

end Xv6Schedulers.Pipe
