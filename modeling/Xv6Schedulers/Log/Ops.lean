import Xv6Schedulers.Lib.Machine
import Xv6Schedulers.Log.Commit

/-!
# Ops — operations, group commit and sleeping in `log.c`

`begin_op`, `log_write`, `end_op` and the pins of `commit`, run by any number of processes.  Each
critical section of `log.lock` is one step, `commit` runs outside the lock, one `bunpin` a step.

* `Ops` is the state; its last fields only record history: which operation logged which block, and
  what each commit contained.
* `Ops.step` is the code, `Step` lists what a step can do.
-/

namespace Xv6Schedulers.Log

open Lib Function

inductive OpPc
  /-- outside file-system operations -/
  | idle
  /-- at the head of the loop of `begin_op` -/
  | begin
  /-- `SLEEPING` on `&log` -/
  | asleep
  /-- between `begin_op` and `end_op` -/
  | op
  /-- in `commit`, with `tail` blocks unpinned by `install_trans` -/
  | commit (tail : Nat)
  /-- after `commit`, before the last critical section of `end_op` -/
  | finish
  deriving DecidableEq, Repr

inductive LogPanic
  /-- `panic("log.committing")` -/
  | committing
  /-- `panic("log_write outside of trans")` -/
  | outside
  /-- `panic("too big a transaction")` -/
  | tooBig
  deriving DecidableEq, Repr

/-- Operation number `op` logged `block` before commit number `commit`. -/
structure Entry where
  op : Nat
  commit : Nat
  block : BlockNo
  deriving DecidableEq, Repr

/-- `struct log`, the reference counts of the buffers, and the processes. -/
structure Ops (n : Nat) where
  outstanding : Int
  committing : Bool
  /-- `log.lh.block[0..n)` -/
  lh : List BlockNo
  refcnt : BlockNo → Int
  pc : Fin n → OpPc
  panicked : Option LogPanic
  /-- how often the buffer was got by `bread` and not yet released -/
  gets : BlockNo → Int
  /-- the number of the operation that a process executes -/
  op : Fin n → Nat
  /-- how many operations have begun -/
  ops : Nat
  logged : List Entry
  /-- the blocks of each commit, oldest first -/
  commits : List (List BlockNo)

inductive Act
  /-- call `begin_op` -/
  | beginOp
  /-- go on with `begin_op`, `commit` or `end_op` -/
  | run
  | logWrite (b : BlockNo)
  | endOp
  /-- `kill` makes a sleeping process runnable -/
  | kill
  | bread (b : BlockNo)
  | brelse (b : BlockNo)
  deriving DecidableEq, Repr

namespace Ops

variable {n : Nat}

@[simps]
def setPc (s : Ops n) (p : Fin n) (v : OpPc) : Ops n := { s with pc := update s.pc p v }

@[simps]
def wakeup (s : Ops n) : Ops n :=
  { s with pc := fun q => if s.pc q = .asleep then .begin else s.pc q }

def panic (s : Ops n) (m : LogPanic) : Ops n := { s with panicked := some m }

/-- The operations admitted so far, and one more, might overflow the log. -/
def Full (s : Ops n) : Prop := s.lh.length + (s.outstanding + 1) * MAXOPBLOCKS > LOGSIZE

instance (s : Ops n) : Decidable s.Full := inferInstanceAs (Decidable (_ > _))

/-- One round of the loop of `begin_op`. -/
def beginRound (s : Ops n) (p : Fin n) : Ops n :=
  if s.committing then
    s.setPc p .asleep
  else if s.Full then
    s.setPc p .asleep
  else
    { s.setPc p .op with
      outstanding := s.outstanding + 1
      op := update s.op p s.ops
      ops := s.ops + 1 }

/-- The first critical section of `end_op`. -/
def endOp (s : Ops n) (p : Fin n) : Ops n :=
  let s := { s with outstanding := s.outstanding - 1 }
  if s.committing then
    s.panic .committing
  else if s.outstanding = 0 then
    { s.setPc p (.commit 0) with committing := true, commits := s.commits ++ [s.lh] }
  else
    s.wakeup.setPc p .idle

/-- One round of `install_trans` in `commit`, or the end of `commit`. -/
def commitRound (s : Ops n) (p : Fin n) (tail : Nat) : Ops n :=
  match s.lh[tail]? with
  | some b =>
      { s.setPc p (.commit (tail + 1)) with
        refcnt := update s.refcnt b (s.refcnt b - 1) }
  | none => { s.setPc p .finish with lh := [] }

/-- The last critical section of `end_op`. -/
def finish (s : Ops n) (p : Fin n) : Ops n := { s.wakeup.setPc p .idle with committing := false }

/-- `log_write`; `size` is `log.size`. -/
def logWrite (size : Int) (s : Ops n) (p : Fin n) (b : BlockNo) : Ops n :=
  if s.lh.length ≥ LOGSIZE ∨ s.lh.length ≥ size - 1 then
    s.panic .tooBig
  else if s.outstanding < 1 then
    s.panic .outside
  else
    let s := { s with logged := ⟨s.op p, s.commits.length, b⟩ :: s.logged }
    if b ∈ s.lh then
      s
    else
      { s with lh := s.lh ++ [b], refcnt := update s.refcnt b (s.refcnt b + 1) }

def step (size : Int) (s : Ops n) (p : Fin n) (a : Act) : Option (Ops n) :=
  if s.panicked ≠ none then
    none
  else
    match a, s.pc p with
    | .beginOp, .idle => some (s.setPc p .begin)
    | .run, .begin => some (s.beginRound p)
    -- the caller of `log_write` holds the buffer
    | .logWrite b, .op => if 0 < s.gets b then some (s.logWrite size p b) else none
    | .endOp, .op => some (s.endOp p)
    | .run, .commit tail => some (s.commitRound p tail)
    | .run, .finish => some (s.finish p)
    | .kill, .asleep => some (s.setPc p .begin)
    | .bread b, _ =>
        some { s with
          refcnt := update s.refcnt b (s.refcnt b + 1)
          gets := update s.gets b (s.gets b + 1) }
    | .brelse b, _ =>
        if 0 < s.gets b then
          some { s with
            refcnt := update s.refcnt b (s.refcnt b - 1)
            gets := update s.gets b (s.gets b - 1) }
        else
          none
    | _, _ => none

/-- After `initlog`: the log is empty and no buffer is in use. -/
def boot (n : Nat) : Ops n where
  outstanding := 0
  committing := false
  lh := []
  refcnt := fun _ => 0
  pc := fun _ => .idle
  panicked := none
  gets := fun _ => 0
  op := fun _ => 0
  ops := 0
  logged := []
  commits := []

def machine (n : Nat) (size : Int) : Machine (Ops n) (Fin n × Act) where
  step s a := s.step size a.1 a.2

def Reachable (size : Int) (s : Ops n) : Prop := (machine n size).Reaches (boot n) s

/-! ## What a step can do -/

inductive Step (size : Int) (s : Ops n) (p : Fin n) : Act → Ops n → Prop
  | call (hpc : s.pc p = .idle) : Step size s p .beginOp (s.setPc p .begin)
  | sleep (hpc : s.pc p = .begin) (hwhy : s.committing = true ∨ s.Full) :
      Step size s p .run (s.setPc p .asleep)
  | enter (hpc : s.pc p = .begin) (hcommit : s.committing = false) (hroom : ¬ s.Full) :
      Step size s p .run
        { s.setPc p .op with
          outstanding := s.outstanding + 1
          op := update s.op p s.ops
          ops := s.ops + 1 }
  | tooBig {b : BlockNo} (hpc : s.pc p = .op)
      (hbig : s.lh.length ≥ LOGSIZE ∨ s.lh.length ≥ size - 1) :
      Step size s p (.logWrite b) (s.panic .tooBig)
  | outside {b : BlockNo} (hpc : s.pc p = .op) (hout : s.outstanding < 1) :
      Step size s p (.logWrite b) (s.panic .outside)
  | absorb {b : BlockNo} (hpc : s.pc p = .op) (hb : b ∈ s.lh) : Step size s p (.logWrite b)
        { s with logged := ⟨s.op p, s.commits.length, b⟩ :: s.logged }
  | append {b : BlockNo} (hpc : s.pc p = .op) (hb : b ∉ s.lh) : Step size s p (.logWrite b)
        { s with
          logged := ⟨s.op p, s.commits.length, b⟩ :: s.logged
          lh := s.lh ++ [b]
          refcnt := update s.refcnt b (s.refcnt b + 1) }
  | endPanic (hpc : s.pc p = .op) (hcommit : s.committing = true) : Step size s p .endOp
        { s with outstanding := s.outstanding - 1, panicked := some .committing }
  | endLast (hpc : s.pc p = .op) (hcommit : s.committing = false) (hlast : s.outstanding - 1 = 0) :
      Step size s p .endOp
        { s.setPc p (.commit 0) with
          outstanding := s.outstanding - 1
          committing := true
          commits := s.commits ++ [s.lh] }
  | endMore (hpc : s.pc p = .op) (hcommit : s.committing = false) (hmore : s.outstanding - 1 ≠ 0) :
      Step size s p .endOp { s.wakeup.setPc p .idle with outstanding := s.outstanding - 1 }
  | unpin {tail : Nat} {b : BlockNo} (hpc : s.pc p = .commit tail) (hb : s.lh[tail]? = some b) :
      Step size s p .run
        { s.setPc p (.commit (tail + 1)) with
          refcnt := update s.refcnt b (s.refcnt b - 1) }
  | clear {tail : Nat} (hpc : s.pc p = .commit tail) (hb : s.lh[tail]? = none) :
      Step size s p .run { s.setPc p .finish with lh := [] }
  | finish (hpc : s.pc p = .finish) :
      Step size s p .run { s.wakeup.setPc p .idle with committing := false }
  | kill (hpc : s.pc p = .asleep) : Step size s p .kill (s.setPc p .begin)
  | bread (b : BlockNo) : Step size s p (.bread b)
        { s with
          refcnt := update s.refcnt b (s.refcnt b + 1)
          gets := update s.gets b (s.gets b + 1) }
  | brelse {b : BlockNo} (hb : 0 < s.gets b) : Step size s p (.brelse b)
        { s with
          refcnt := update s.refcnt b (s.refcnt b - 1)
          gets := update s.gets b (s.gets b - 1) }

/-- Every step is one of those listed. -/
theorem step_cases {size : Int} {s t : Ops n} {p : Fin n} {a : Act}
    (h : s.step size p a = some t) : s.panicked = none ∧ Step size s p a t := by
  unfold step at h
  split at h
  · cases h
  refine ⟨by simp_all, ?_⟩
  split at h
  · cases h
    exact .call (by assumption)
  · cases h
    unfold beginRound
    split
    · exact .sleep (by assumption) (.inl (by assumption))
    split
    · exact .sleep (by assumption) (.inr (by assumption))
    · exact .enter (by assumption) (by simpa using ‹¬ s.committing = true›) (by assumption)
  · split at h <;> cases h
    unfold logWrite
    split
    · exact .tooBig (by assumption) (by assumption)
    split
    · exact .outside (by assumption) (by assumption)
    simp only
    split
    · exact .absorb (by assumption) (by assumption)
    · exact .append (by assumption) (by assumption)
  · cases h
    unfold endOp
    simp only
    split
    · exact .endPanic (by assumption) (by assumption)
    split
    · exact .endLast (by assumption) (by simpa using ‹¬ s.committing = true›) (by assumption)
    · exact .endMore (by assumption) (by simpa using ‹¬ s.committing = true›) (by assumption)
  · cases h
    unfold commitRound
    split
    · exact .unpin (by assumption) (by assumption)
    · exact .clear (by assumption) (by assumption)
  · cases h
    exact .finish (by assumption)
  · cases h
    exact .kill (by assumption)
  · cases h
    exact .bread _
  · split at h <;> cases h
    exact .brelse (by assumption)
  · cases h

end Ops

end Xv6Schedulers.Log
