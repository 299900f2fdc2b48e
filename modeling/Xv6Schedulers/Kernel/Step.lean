import Xv6Schedulers.Kernel.Code
import Xv6Schedulers.Lib.Machine

/-!
# Step — lock operations, context switches, interrupts, runs

One step is taken by one hart and is a lock operation of `spinlock.c`, a `swtch`, the code between
two of these (`Code.lean`), or the arrival of an interrupt.  A hart that spins on a lock held
elsewhere, and a hart that has panicked, take no step.
-/

namespace Xv6Schedulers.Kernel

open Lib

variable {n : Nat}

/-! ## The kinds of steps -/

/-- `acquire(l)` up to the test-and-set loop. -/
def acquireStep (s : State n) (c : Fin n) (l : Lock) (rest : Stack) : State n :=
  let s := s.setCpu c (s.cpu c).pushOff
  if s.Holding c l then
    s.panic c .acquire
  else
    s.setStack (s.thread c) (.spin l :: rest)

/-- The test-and-set that succeeds. -/
def spinStep (s : State n) (c : Fin n) (l : Lock) (rest : Stack) : Option (State n) :=
  if s.locked l = none then
    some ((s.setLocked l (some c)).setStack (s.thread c) rest)
  else
    none

/-- `release(l)`. -/
def releaseStep (s : State n) (c : Fin n) (l : Lock) (rest : Stack) : State n :=
  if s.Holding c l then
    let s := s.setLocked l none
    match (s.cpu c).popOff with
    | .error m => s.panic c m
    | .ok u => (s.setCpu c u).setStack (s.thread c) rest
  else
    s.panic c .release

/-- `swtch` from the scheduler to process `p`. -/
def swtchStep (s : State n) (c : Fin n) (p : Slot) (rest : Stack) : State n :=
  (s.setStack (s.thread c) rest).setCur c (some p)

/-- `swtch` from a process to the scheduler of the hart. -/
def swtchBackStep (s : State n) (c : Fin n) (rest : Stack) : State n :=
  (s.setStack (s.thread c) rest).setCur c none

def codeStep (s : State n) (c : Fin n) (f : Frame) (rest : Stack) (ch : Choice) :
    Option (State n) :=
  match code s c f ch with
  | none => none
  | some (.panics m) => some (s.panic c m)
  | some (.goes ws fs) => some ((s.setStack (s.thread c) (fs ++ rest)).writes c ws)

/-- A device or timer interrupt taken in the kernel: `kernelvec`, then `kerneltrap`. -/
def interrupt (s : State n) (c : Fin n) (timer : Bool) : Option (State n) :=
  match s.stack (s.thread c) with
  | .trap .user :: _ => none
  | st =>
      if (s.cpu c).intr then
        some (((s.setCpu c { s.cpu c with intr := false }).setStack (s.thread c)
          (.trap (.service false) :: .trap (.kerneltrap timer) :: st)))
      else
        none

/-- The step of the frame on top of the stack. -/
def frameStep (s : State n) (c : Fin n) (f : Frame) (rest : Stack) (ch : Choice) :
    Option (State n) :=
  match f, ch with
  | .acquire l, .go => some (acquireStep s c l rest)
  | .spin l, .go => spinStep s c l rest
  | .release l, .go => some (releaseStep s c l rest)
  | .swtch p, .go => some (swtchStep s c p rest)
  | .sched .swtch, .go => some (swtchBackStep s c rest)
  | f, ch => codeStep s c f rest ch

def step (s : State n) (c : Fin n) (ch : Choice) : Option (State n) :=
  if (s.cpu c).panicked ≠ none then
    none
  else
    match ch with
    | .intr timer => interrupt s c timer
    | ch =>
        match s.stack (s.thread c) with
        | [] => none
        | f :: rest => frameStep s c f rest ch

/-! ## Boot and runs -/

/-- `scheduler_mode`, for each hart. -/
inductive SchedMode
  | loteria
  | stride
  deriving DecidableEq, Repr

/-- The stack of a hart that enters `scheduler`. -/
def SchedMode.stack : SchedMode → Stack
  | .loteria => [.loteria .top]
  | .stride => [.stride .top]

/-- `userinit`: `allocproc` finds slot 0 of the zeroed table. -/
def userinitProc : Proc :=
  { Proc.zero with
    pid := 1
    prioridade := 3
    state := .runnable }

def initSlot : Slot := slotAt 0

/-- The machine after `procinit` and `userinit`, when every hart enters `scheduler`. -/
def boot (mode : Fin n → SchedMode) : State n where
  proc := Function.update (fun _ => Proc.zero) initSlot userinitProc
  initproc := initSlot
  nextpid := 2
  lastIndex := fun _ => 0
  locked := fun _ => none
  cpu := fun _ =>
    { proc := none, noff := 0, intena := false, intr := false, panicked := none }
  cur := fun _ => none
  stack := fun t =>
    match t with
    | .hart c => (mode c).stack
    | .proc p => if p = initSlot then newStack else []
  a0 := fun _ => 0
  trace := [.create initSlot .userinit 0 0 0]

/-- The machine with `n` harts; a label names the hart and its choice. -/
def machine (n : Nat) : Machine (State n) (Fin n × Choice) where
  step s a := step s a.1 a.2

def Reachable (mode : Fin n → SchedMode) (s : State n) : Prop := (machine n).Reaches (boot mode) s

end Xv6Schedulers.Kernel
