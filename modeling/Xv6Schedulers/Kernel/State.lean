import Xv6Schedulers.Kernel.Frame
import Mathlib.Tactic.Simps.Basic

/-!
# State — the machine state and its assignments

The state of a machine with `n` harts: the process table, the spinlocks, the processors, and one
stack of frames per kernel thread (one scheduler thread per hart, one thread per slot of
`proc[]`).  The code changes it through `Write`, one constructor per assigned variable, so that
"what can this code assign" is a question about a list.

`trace` is a history variable: it records, newest first, the events the specifications count.
No code reads it.
-/

namespace Xv6Schedulers.Kernel

open Function

/-! ## Events -/

inductive Creator
  | userinit
  | forked (call : ForkCall)
  deriving DecidableEq, Repr

/-- Events of the history, each naming the slot it is about. -/
inductive Event
  /-- a process was created with these `tickets`, `stride` and `pass` -/
  | create (i : Slot) (call : Creator) (tickets stride pass : Int32)
  /-- a scheduler chose the process -/
  | dispatch (i : Slot)
  /-- the process has switched back to the scheduler -/
  | switchBack (i : Slot)
  /-- the process became a zombie -/
  | exit (i : Slot) (status : Int32)
  /-- `wait` of process `by_` freed the zombie and returned `pid`, and `status` through `copyout` -/
  | reap (i by_ : Slot) (pid status : Int32)
  /-- `kill(pid)` marked the process -/
  | kill (i : Slot) (pid : Int32)
  /-- the process was marked for a fault of its own -/
  | fault (i : Slot)
  deriving DecidableEq, Repr

/-! ## Threads and state -/

/-- A kernel thread: the scheduler of a hart, or the kernel side of a process. -/
inductive Thread (n : Nat)
  | hart (c : Fin n)
  | proc (p : Slot)
  deriving DecidableEq, Repr

def Thread.self {n : Nat} : Thread n → Option Slot
  | .hart _ => none
  | .proc p => some p

structure State (n : Nat) where
  proc : Slot → Proc
  initproc : Slot
  nextpid : Int32
  lastIndex : Classe → Nat
  /-- the hart that holds the lock -/
  locked : Lock → Option (Fin n)
  cpu : Fin n → Cpu
  /-- the process whose thread the hart executes, `none` for its scheduler -/
  cur : Fin n → Option Slot
  stack : Thread n → Stack
  /-- the value returned by the last call of a process thread -/
  a0 : Slot → Int32
  trace : List Event

namespace State

variable {n : Nat}

def thread (s : State n) (c : Fin n) : Thread n :=
  match s.cur c with
  | none => .hart c
  | some p => .proc p

def myproc (s : State n) (c : Fin n) : Option Slot := (s.cpu c).proc

def Holding (s : State n) (c : Fin n) (l : Lock) : Prop := s.locked l = some c

instance (s : State n) (c : Fin n) (l : Lock) : Decidable (s.Holding c l) :=
  inferInstanceAs (Decidable (s.locked l = some c))

@[simps]
def setStack (s : State n) (t : Thread n) (fs : Stack) : State n :=
  { s with stack := update s.stack t fs }

@[simps]
def setCpu (s : State n) (c : Fin n) (u : Cpu) : State n := { s with cpu := update s.cpu c u }

@[simps]
def setLocked (s : State n) (l : Lock) (h : Option (Fin n)) : State n :=
  { s with locked := update s.locked l h }

@[simps]
def setCur (s : State n) (c : Fin n) (p : Option Slot) : State n :=
  { s with cur := update s.cur c p }

@[simps]
def modifyProc (s : State n) (i : Slot) (f : Proc → Proc) : State n :=
  { s with proc := update s.proc i (f (s.proc i)) }

/-- `panic`: the hart stops. -/
def panic (s : State n) (c : Fin n) (m : Panic) : State n :=
  s.setCpu c { s.cpu c with panicked := some m }

theorem modifyProc_apply (s : State n) (j : Slot) (f : Proc → Proc) (i : Slot) :
    (s.modifyProc j f).proc i = if i = j then f (s.proc i) else s.proc i := by
  by_cases hi : i = j
  · subst hi
    simp
  · simp [hi]

@[simp] theorem setStack_thread (s : State n) (t : Thread n) (fs : Stack) (c : Fin n) :
    (s.setStack t fs).thread c = s.thread c := rfl

@[simp] theorem setCpu_thread (s : State n) (d : Fin n) (u : Cpu) (c : Fin n) :
    (s.setCpu d u).thread c = s.thread c := rfl

@[simp] theorem setLocked_thread (s : State n) (l : Lock) (h : Option (Fin n)) (c : Fin n) :
    (s.setLocked l h).thread c = s.thread c := rfl

@[simp] theorem panic_thread (s : State n) (d : Fin n) (m : Panic) (c : Fin n) :
    (s.panic d m).thread c = s.thread c := rfl

@[simp] theorem setStack_myproc (s : State n) (t : Thread n) (fs : Stack) (c : Fin n) :
    (s.setStack t fs).myproc c = s.myproc c := rfl

@[simp] theorem setLocked_myproc (s : State n) (l : Lock) (h : Option (Fin n)) (c : Fin n) :
    (s.setLocked l h).myproc c = s.myproc c := rfl

@[simp] theorem setCur_myproc (s : State n) (d : Fin n) (p : Option Slot) (c : Fin n) :
    (s.setCur d p).myproc c = s.myproc c := rfl

theorem thread_of_cur_none {s : State n} {c : Fin n} (h : s.cur c = none) :
    s.thread c = .hart c := by
  simp [thread, h]

theorem thread_of_cur_some {s : State n} {c : Fin n} {p : Slot} (h : s.cur c = some p) :
    s.thread c = .proc p := by
  simp [thread, h]

end State

/-! ## Assignments -/

inductive Write
  | state (i : Slot) (v : ProcState)
  | chan (i : Slot) (v : Option Chan)
  | killed (i : Slot) (v : Int32)
  | xstate (i : Slot) (v : Int32)
  | pid (i : Slot) (v : Int32)
  | classe (i : Slot) (v : Int32)
  | prioridade (i : Slot) (v : Int32)
  | stride (i : Slot) (v : Int32)
  | pass (i : Slot) (v : Int32)
  | tickets (i : Slot) (v : Int32)
  | parent (i : Slot) (v : Option Slot)
  /-- `p->context` is set up to start at `forkret` -/
  | context (i : Slot)
  | nextpid (v : Int32)
  | lastIndex (cl : Classe) (v : Nat)
  /-- `c->proc` -/
  | cpuProc (v : Option Slot)
  /-- `intr_on` and `intr_off` -/
  | intr (b : Bool)
  | intena (b : Bool)
  /-- the return value of the running process thread -/
  | a0 (v : Int32)
  | event (e : Event)
  deriving DecidableEq, Repr

/-- The effect of an assignment on the record of slot `i`. -/
def Write.onProc (i : Slot) (p : Proc) : Write → Proc
  | .state j v => if i = j then { p with state := v } else p
  | .chan j v => if i = j then { p with chan := v } else p
  | .killed j v => if i = j then { p with killed := v } else p
  | .xstate j v => if i = j then { p with xstate := v } else p
  | .pid j v => if i = j then { p with pid := v } else p
  | .classe j v => if i = j then { p with classe := v } else p
  | .prioridade j v => if i = j then { p with prioridade := v } else p
  | .stride j v => if i = j then { p with stride := v } else p
  | .pass j v => if i = j then { p with pass := v } else p
  | .tickets j v => if i = j then { p with tickets := v } else p
  | .parent j v => if i = j then { p with parent := v } else p
  | _ => p

/-- What every assignment of the list does to a record, up to a transitive relation, is what all of
them do. -/
theorem Write.foldl_onProc {R : Proc → Proc → Prop} {i : Slot} (hrefl : ∀ q, R q q)
    (htrans : ∀ a b c, R a b → R b c → R a c) {ws : List Write}
    (h : ∀ w ∈ ws, ∀ q, R q (w.onProc i q)) (q : Proc) :
    R q (ws.foldl (fun q w => w.onProc i q) q) := by
  induction ws generalizing q with
  | nil => exact hrefl q
  | cons w ws ih =>
    have hfirst := h w List.mem_cons_self q
    have hrest := ih (fun v hv => h v (List.mem_cons_of_mem w hv)) (w.onProc i q)
    exact htrans _ _ _ hfirst hrest

/-- The effect of an assignment on `c->proc` of the executing hart. -/
def Write.onMyproc (p : Option Slot) : Write → Option Slot
  | .cpuProc v => v
  | _ => p

/-- The effect of an assignment on the interrupt bit of the executing hart. -/
def Write.onIntr (b : Bool) : Write → Bool
  | .intr v => v
  | _ => b

/-- The effect of an assignment on the history. -/
def Write.onTrace (tr : List Event) : Write → List Event
  | .event e => e :: tr
  | _ => tr

/-- The effect of an assignment on `last_index`. -/
def Write.onLastIndex (last : Classe → Nat) : Write → Classe → Nat
  | .lastIndex cl v => update last cl v
  | _ => last

/-- The effect of an assignment on the stack of process `i`. -/
def Write.onContext (i : Slot) (st : Stack) : Write → Stack
  | .context j => if i = j then newStack else st
  | _ => st

attribute [simp] Write.onProc Write.onMyproc Write.onIntr Write.onTrace Write.onLastIndex

namespace State

variable {n : Nat}

/-- The effect of one assignment executed on hart `c`. -/
def write (s : State n) (c : Fin n) : Write → State n
  | .state i v => s.modifyProc i fun p => { p with state := v }
  | .chan i v => s.modifyProc i fun p => { p with chan := v }
  | .killed i v => s.modifyProc i fun p => { p with killed := v }
  | .xstate i v => s.modifyProc i fun p => { p with xstate := v }
  | .pid i v => s.modifyProc i fun p => { p with pid := v }
  | .classe i v => s.modifyProc i fun p => { p with classe := v }
  | .prioridade i v => s.modifyProc i fun p => { p with prioridade := v }
  | .stride i v => s.modifyProc i fun p => { p with stride := v }
  | .pass i v => s.modifyProc i fun p => { p with pass := v }
  | .tickets i v => s.modifyProc i fun p => { p with tickets := v }
  | .parent i v => s.modifyProc i fun p => { p with parent := v }
  | .context i => s.setStack (.proc i) newStack
  | .nextpid v => { s with nextpid := v }
  | .lastIndex cl v => { s with lastIndex := update s.lastIndex cl v }
  | .cpuProc v => s.setCpu c { s.cpu c with proc := v }
  | .intr b => s.setCpu c { s.cpu c with intr := b }
  | .intena b => s.setCpu c { s.cpu c with intena := b }
  | .a0 v =>
      { s with
        a0 :=
          match s.cur c with
          | none => s.a0
          | some p => update s.a0 p v }
  | .event e => { s with trace := e :: s.trace }

/-- Assignments take effect in program order. -/
def writes (s : State n) (c : Fin n) (ws : List Write) : State n :=
  ws.foldl (fun s w => s.write c w) s

attribute [local simp] write myproc Write.onContext

theorem writes_nil (s : State n) (c : Fin n) : s.writes c [] = s := rfl

/-- What no assignment of the list changes is the same after all of them. -/
theorem writes_frame {β : Type*} (get : State n → β) {c : Fin n} {ws : List Write}
    (h : ∀ w ∈ ws, ∀ s : State n, get (s.write c w) = get s) (s : State n) :
    get (s.writes c ws) = get s := by
  induction ws generalizing s with
  | nil => rfl
  | cons w ws ih =>
    calc
      get ((s.write c w).writes c ws) = get (s.write c w) :=
        ih (fun v hv => h v (List.mem_cons_of_mem w hv)) _
      _ = get s := h w List.mem_cons_self s

@[simp] theorem writes_locked (s : State n) (c : Fin n) (ws : List Write) :
    (s.writes c ws).locked = s.locked := by
  refine writes_frame (·.locked) (fun w _ s => ?_) s
  cases w <;> rfl

@[simp] theorem writes_cur (s : State n) (c : Fin n) (ws : List Write) :
    (s.writes c ws).cur = s.cur := by
  refine writes_frame (·.cur) (fun w _ s => ?_) s
  cases w <;> rfl

@[simp] theorem writes_initproc (s : State n) (c : Fin n) (ws : List Write) :
    (s.writes c ws).initproc = s.initproc := by
  refine writes_frame (·.initproc) (fun w _ s => ?_) s
  cases w <;> rfl

@[simp] theorem writes_thread (s : State n) (c : Fin n) (ws : List Write) (d : Fin n) :
    (s.writes c ws).thread d = s.thread d := by
  simp [thread]

@[simp] theorem writes_stack_hart (s : State n) (c : Fin n) (ws : List Write) (d : Fin n) :
    (s.writes c ws).stack (.hart d) = s.stack (.hart d) := by
  refine writes_frame (·.stack (.hart d)) (fun w _ s => ?_) s
  cases w <;> rfl

theorem writes_cpu_of_ne (s : State n) {c d : Fin n} (hdc : d ≠ c) (ws : List Write) :
    (s.writes c ws).cpu d = s.cpu d := by
  refine writes_frame (·.cpu d) (fun w _ s => ?_) s
  cases w <;> simp [hdc]

@[simp] theorem writes_noff (s : State n) (c d : Fin n) (ws : List Write) :
    ((s.writes c ws).cpu d).noff = (s.cpu d).noff := by
  refine writes_frame (fun s => (s.cpu d).noff) (fun w _ s => ?_) s
  by_cases hd : d = c
  · subst hd
    cases w <;> simp
  · cases w <;> simp [hd]

@[simp] theorem writes_panicked (s : State n) (c d : Fin n) (ws : List Write) :
    ((s.writes c ws).cpu d).panicked = (s.cpu d).panicked := by
  refine writes_frame (fun s => (s.cpu d).panicked) (fun w _ s => ?_) s
  by_cases hd : d = c
  · subst hd
    cases w <;> simp
  · cases w <;> simp [hd]

/-! What a list of assignments leaves in one variable is a fold over the list. -/

theorem writes_fold {β : Type*} (get : State n → β) (upd : Write → β → β) {c : Fin n}
    (h : ∀ (s : State n) (w : Write), get (s.write c w) = upd w (get s)) (s : State n)
    (ws : List Write) : get (s.writes c ws) = ws.foldl (fun b w => upd w b) (get s) := by
  induction ws generalizing s with
  | nil => rfl
  | cons w ws ih =>
    calc
      get ((s.write c w).writes c ws)
          = ws.foldl (fun b w => upd w b) (get (s.write c w)) := ih _
      _ = ws.foldl (fun b w => upd w b) (upd w (get s)) := by rw [h]

@[simp] theorem writes_proc (s : State n) (c : Fin n) (ws : List Write) (i : Slot) :
    (s.writes c ws).proc i = ws.foldl (fun p w => w.onProc i p) (s.proc i) := by
  refine writes_fold (·.proc i) (fun w p => w.onProc i p) (fun s w => ?_) s ws
  cases w <;> simp only [write, Write.onProc, modifyProc_apply, setStack_proc, setCpu_proc]

@[simp] theorem writes_myproc (s : State n) (c : Fin n) (ws : List Write) :
    (s.writes c ws).myproc c = ws.foldl (fun p w => w.onMyproc p) (s.myproc c) := by
  refine writes_fold (·.myproc c) (fun w p => w.onMyproc p) (fun s w => ?_) s ws
  cases w <;> simp

@[simp] theorem writes_intr (s : State n) (c : Fin n) (ws : List Write) :
    ((s.writes c ws).cpu c).intr = ws.foldl (fun b w => w.onIntr b) (s.cpu c).intr := by
  refine writes_fold (fun s => (s.cpu c).intr) (fun w b => w.onIntr b) (fun s w => ?_) s ws
  cases w <;> simp

@[simp] theorem writes_trace (s : State n) (c : Fin n) (ws : List Write) :
    (s.writes c ws).trace = ws.foldl (fun tr w => w.onTrace tr) s.trace := by
  refine writes_fold (·.trace) (fun w tr => w.onTrace tr) (fun s w => ?_) s ws
  cases w <;> rfl

@[simp] theorem writes_lastIndex (s : State n) (c : Fin n) (ws : List Write) :
    (s.writes c ws).lastIndex = ws.foldl (fun last w => w.onLastIndex last) s.lastIndex := by
  refine writes_fold (·.lastIndex) (fun w last => w.onLastIndex last) (fun s w => ?_) s ws
  cases w <;> rfl

@[simp] theorem writes_stack_proc (s : State n) (c : Fin n) (ws : List Write) (i : Slot) :
    (s.writes c ws).stack (.proc i) =
      ws.foldl (fun st w => w.onContext i st) (s.stack (.proc i)) := by
  refine writes_fold (·.stack (.proc i)) (fun w st => w.onContext i st) (fun s w => ?_) s ws
  cases w <;> simp [update_apply]

end State

def freeproc (i : Slot) : List Write :=
  [.pid i 0, .parent i none, .chan i none, .killed i 0, .xstate i 0, .state i .unused]

end Xv6Schedulers.Kernel
