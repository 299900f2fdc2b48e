import Mathlib.Logic.Function.Basic

/-!
# Proc — the data of the process subsystem

The records of `proc.h` and `spinlock.h` as far as the schedulers and the life cycle of a process
use them:

* `Proc` is `struct proc` without the memory image (page table, trapframe, open files, name);
* `Cpu` is `struct cpu` together with the `SIE` bit of the hart and the message of a `panic`;
* `Lock` names the spinlocks, `Chan` the addresses that `sleep` and `wakeup` compare.

A C `int` is an `Int32`, so that `pass += stride` wraps exactly where the machine does.
-/

namespace Xv6Schedulers.Kernel

/-- A statement about every C `int` is not decided by trying them all. -/
noncomputable instance (priority := high) decidableForallInt (p : Int32 → Prop) : Decidable (∀ x, p x) :=
  Classical.propDecidable _

/-! ## Process table -/

def NPROC : Nat := 64

/-- An index into `proc[NPROC]`; it stands for the pointer `&proc[i]`. -/
abbrev Slot := Fin NPROC

theorem NPROC_pos : 0 < NPROC := by decide

/-- `&proc[k % NPROC]`. -/
def slotAt (k : Nat) : Slot := ⟨k % NPROC, Nat.mod_lt k NPROC_pos⟩

/-- `enum procstate`. -/
inductive ProcState
  | unused
  | used
  | sleeping
  | runnable
  | running
  | zombie
  deriving DecidableEq, Repr

/-- What a sleeping process waits for: its own `struct proc` in `wait`, some other kernel object
everywhere else. -/
inductive Chan
  | proc (i : Slot)
  | obj (a : Nat)
  deriving DecidableEq, Repr

/-- The spinlocks: one per process, `wait_lock`, `pid_lock`, and the condition locks of the
kernel's other subsystems. -/
inductive Lock
  | proc (i : Slot)
  | wait
  | pid
  | cond (k : Nat)
  deriving DecidableEq, Repr

structure Proc where
  state : ProcState
  chan : Option Chan
  killed : Int32
  xstate : Int32
  pid : Int32
  classe : Int32
  prioridade : Int32
  stride : Int32
  pass : Int32
  tickets : Int32
  parent : Option Slot
  deriving DecidableEq, Repr

/-- A slot of the zeroed table after `procinit`. -/
def Proc.zero : Proc :=
  { state := .unused
    chan := none
    killed := 0
    xstate := 0
    pid := 0
    classe := 0
    prioridade := 0
    stride := 0
    pass := 0
    tickets := 0
    parent := none }

/-! ## Processors -/

inductive Panic
  | acquire
  | release
  | popOffInterruptible
  | popOff
  | schedLock
  | schedLocks
  | schedRunning
  | schedInterruptible
  | initExiting
  | zombieExit
  deriving DecidableEq, Repr

/-- The text `panic` prints. -/
def Panic.message : Panic → String
  | .acquire => "acquire"
  | .release => "release"
  | .popOffInterruptible => "pop_off - interruptible"
  | .popOff => "pop_off"
  | .schedLock => "sched p->lock"
  | .schedLocks => "sched locks"
  | .schedRunning => "sched running"
  | .schedInterruptible => "sched interruptible"
  | .initExiting => "init exiting"
  | .zombieExit => "zombie exit"

/-- `struct cpu`; `intr` is the hart's interrupt-enable bit, `panicked` stops the hart. -/
structure Cpu where
  proc : Option Slot
  noff : Nat
  intena : Bool
  intr : Bool
  panicked : Option Panic
  deriving DecidableEq, Repr

def Cpu.pushOff (u : Cpu) : Cpu :=
  { u with
    intena := if u.noff = 0 then u.intr else u.intena
    intr := false
    noff := u.noff + 1 }

def Cpu.popOff (u : Cpu) : Except Panic Cpu :=
  if u.intr then
    .error .popOffInterruptible
  else if u.noff < 1 then
    .error .popOff
  else
    .ok
      { u with
        noff := u.noff - 1
        intr := if u.noff - 1 = 0 ∧ u.intena = true then true else u.intr }

theorem Cpu.popOff_ok {u v : Cpu} (h : u.popOff = .ok v) :
    v.noff + 1 = u.noff ∧ v.proc = u.proc ∧ v.panicked = u.panicked ∧
      (v.noff ≠ 0 → v.intr = false) := by
  unfold popOff at h
  split at h
  · cases h
  · split at h
    · cases h
    · rename_i hintr hnoff
      cases h
      refine ⟨by simp only; omega, rfl, rfl, ?_⟩
      intro hne
      simp_all

theorem Cpu.popOff_error {u : Cpu} {m : Panic} (h : u.popOff = .error m) :
    u.intr = true ∨ u.noff = 0 := by
  unfold popOff at h
  split at h
  · exact .inl (by assumption)
  · split at h
    · exact .inr (by omega)
    · cases h

theorem Cpu.popOff_last {u v : Cpu} (h : u.popOff = .ok v) (hlast : v.noff = 0) :
    v.intr = u.intena := by
  have hnoff := (Cpu.popOff_ok h).1
  unfold popOff at h
  split at h
  · cases h
  · split at h <;> cases h
    cases hintena : u.intena <;> simp_all

theorem Cpu.popOff_intena {u v : Cpu} (h : u.popOff = .ok v) : v.intena = u.intena := by
  unfold popOff at h
  split at h
  · cases h
  · split at h <;> cases h
    rfl

theorem Cpu.popOff_pushOff {u : Cpu} (h : u.noff ≠ 0 → u.intr = false) :
    u.pushOff.popOff = .ok { u with intena := if u.noff = 0 then u.intr else u.intena } := by
  rcases u with ⟨proc, noff, intena, intr, panicked⟩
  by_cases hzero : noff = 0
  · subst hzero
    cases intr <;> simp [pushOff, popOff]
  · have hoff : intr = false := h hzero
    simp [pushOff, popOff, hzero, hoff]

/-! ## The class lottery -/

/-- `enum priority_class`. -/
inductive Classe
  | class0
  | class1
  | class2
  | class3
  deriving DecidableEq, Repr

/-- The value of the enumerator, as `p->classe == classe_atual` compares it. -/
def Classe.toInt32 : Classe → Int32
  | .class0 => 0
  | .class1 => 1
  | .class2 => 2
  | .class3 => 3

/-- `rand_lottery`: the value returned and the next `seed`. -/
def randLottery (seed : UInt32) : UInt32 × UInt32 :=
  let seed := seed * 1103515245 + 1248345
  ((seed / 65536) % 32768, seed)

/-- `sorteio_prioridade`: 6, 3, 2 and 1 tickets for the classes 0 to 3. -/
def sorteioPrioridade (seed : UInt32) : Classe × UInt32 :=
  let (r, seed) := randLottery seed
  let sorteio := r % (6 + 3 + 2 + 1)
  if sorteio < 6 then
    (.class0, seed)
  else if sorteio < 6 + 3 then
    (.class1, seed)
  else if sorteio < 6 + 3 + 2 then
    (.class2, seed)
  else
    (.class3, seed)

end Xv6Schedulers.Kernel
