import Xv6Schedulers.Kernel.Step

/-!
# Solo — the machine with one hart, without its lock table

With one hart nobody else holds a lock, so a lock operation always succeeds and the lock table is
the list of the locks the hart holds.  A `Solo` is a state of the one-hart machine in that form:

* `Solo.next` is the step function, with the two steps of `acquire` taken as one;
* `Solo.run ok` runs a list of choices through configurations that pass the test `ok`;
* `run_path` says that such a run is a run of the machine, whose guard follows from the test.

The form is made to be computed with: a run of a few hundred steps is evaluated by the kernel.
-/

namespace Xv6Schedulers.Kernel

open Lib Function

/-- A configuration of the machine with one hart. -/
structure Solo where
  proc : Slot → Proc
  nextpid : Int32
  lastIndex : Classe → Nat
  /-- the locks of the hart, newest first -/
  held : List Lock
  cpu : Cpu
  cur : Option Slot
  /-- the stack of the scheduler -/
  hart : Stack
  /-- the kernel stacks of the processes -/
  kstack : Slot → Stack
  a0 : Slot → Int32
  trace : List Event

namespace Solo

def state (v : Solo) : State 1 where
  proc := v.proc
  initproc := initSlot
  nextpid := v.nextpid
  lastIndex := v.lastIndex
  locked := fun l => if l ∈ v.held then some 0 else none
  cpu := fun _ => v.cpu
  cur := fun _ => v.cur
  stack := fun u =>
    match u with
    | .hart _ => v.hart
    | .proc p => v.kstack p
  a0 := v.a0
  trace := v.trace

@[simp] theorem state_proc (v : Solo) : v.state.proc = v.proc := rfl

@[simp] theorem state_cpu (v : Solo) (c : Fin 1) : v.state.cpu c = v.cpu := rfl

@[simp] theorem state_myproc (v : Solo) (c : Fin 1) : v.state.myproc c = v.cpu.proc := rfl

@[simp] theorem state_a0 (v : Solo) : v.state.a0 = v.a0 := rfl

@[simp] theorem state_trace (v : Solo) : v.state.trace = v.trace := rfl

@[simp] theorem state_holding (v : Solo) (c : Fin 1) (l : Lock) :
    v.state.Holding c l ↔ l ∈ v.held := by
  rw [Subsingleton.elim c 0]
  simp [State.Holding, state]

/-- The stack of the running thread. -/
def top (v : Solo) : Stack :=
  match v.cur with
  | none => v.hart
  | some p => v.kstack p

/-- Replace the stack of the running thread. -/
def put (v : Solo) (st : Stack) : Solo :=
  match v.cur with
  | none => { v with hart := st }
  | some p => { v with kstack := update v.kstack p st }

def write (v : Solo) : Write → Solo
  | .context i => { v with kstack := update v.kstack i newStack }
  | .nextpid k => { v with nextpid := k }
  | .lastIndex cl k => { v with lastIndex := update v.lastIndex cl k }
  | .cpuProc p => { v with cpu := { v.cpu with proc := p } }
  | .intr b => { v with cpu := { v.cpu with intr := b } }
  | .intena b => { v with cpu := { v.cpu with intena := b } }
  | .a0 k =>
      match v.cur with
      | none => v
      | some p => { v with a0 := update v.a0 p k }
  | .event e => { v with trace := e :: v.trace }
  | w => { v with proc := fun i => w.onProc i (v.proc i) }

/-- The step of the frame on top of the stack. -/
def frame (v : Solo) (f : Frame) (rest : Stack) (ch : Choice) : Option Solo :=
  match f, ch with
  | .acquire l, .go =>
      if l ∈ v.held then
        none
      else
        some { v.put rest with held := l :: v.held, cpu := v.cpu.pushOff }
  | .release l, .go =>
      match v.cpu.popOff with
      | .error _ => none
      | .ok u =>
          if l ∈ v.held then
            some { v.put rest with held := v.held.filter (· ≠ l), cpu := u }
          else
            none
  | .swtch p, .go => some { v.put rest with cur := some p }
  | .sched .swtch, .go => some { v.put rest with cur := none }
  | f, ch =>
      match code v.state 0 f ch with
      | some (.goes ws fs) => some (ws.foldl write (v.put (fs ++ rest)))
      | _ => none

def interrupt (v : Solo) (timer : Bool) : Option Solo :=
  match v.top with
  | .trap .user :: _ => none
  | st =>
      if v.cpu.intr then
        some { v.put (.trap (.service false) :: .trap (.kerneltrap timer) :: st) with
          cpu := { v.cpu with intr := false } }
      else
        none

/-- One step: an interrupt, or the frame on top. -/
def next (v : Solo) (ch : Choice) : Option Solo :=
  if v.cpu.panicked ≠ none then
    none
  else
    match ch with
    | .intr timer => v.interrupt timer
    | ch =>
        match v.top with
        | [] => none
        | f :: rest => v.frame f rest ch

/-- Run a list of choices through configurations that pass the test. -/
def run (ok : Solo → Bool) (v : Solo) : List Choice → Option Solo
  | [] => some v
  | ch :: chs =>
      match ok v, v.next ch with
      | true, some w => w.run ok chs
      | _, _ => none

/-! ## Choices of some calls -/

/-- `k` steps of code that leaves no choice. -/
def go (k : Nat) : List Choice := List.replicate k .go

/-- A round of `scheduler_stride` up to the end of a scan that finds one `RUNNABLE` process. -/
def scanOne : List Choice := go 256

def startUser : List Choice := go 4 ++ [.done, .go]

/-- The first round of `scheduler_loteria`, up to user space of `init`. -/
def drawInit : List Choice := .draw .class0 :: go 6 ++ [.done, .go]

/-- A fork call when slot `k` is the first free one, up to user space. -/
def forkTo (call : Syscall) (k : Nat) : List Choice :=
  .trap (.syscall call) :: go (5 + 4 * k + 6) ++ [.alloc .ok] ++ go 15

/-- A system call that sleeps on `ch`, up to the switch to the scheduler. -/
def sleepOn (ch : Chan) : List Choice :=
  .trap (.syscall .other) :: go 5 ++ [.enter 0, .go, .sleep ch] ++ go 6

/-- A timer interrupt in user space, up to the switch to the scheduler. -/
def preempt : List Choice := [.trap (.device true), .done] ++ go 10

/-- `init` calls `forkprio(0)` and `forkprio(1)` and sleeps, up to the head of the loop. -/
def twoChildren : List Choice :=
  scanOne ++ startUser ++ forkTo (.forkprio 0) 1 ++ forkTo (.forkprio 1) 2 ++ sleepOn (.obj 0) ++ go 2

def boot (mode : SchedMode) : Solo where
  proc := update (fun _ => Proc.zero) initSlot userinitProc
  nextpid := 2
  lastIndex := fun _ => 0
  held := []
  cpu := { proc := none, noff := 0, intena := false, intr := false, panicked := none }
  cur := none
  hart := mode.stack
  kstack := fun p => if p = initSlot then newStack else []
  a0 := fun _ => 0
  trace := [.create initSlot .userinit 0 0 0]

/-! ## The machine takes the same steps -/

/-- States of the one-hart machine are equal when all their parts are. -/
theorem state_ext {s t : State 1} (hproc : ∀ i, s.proc i = t.proc i)
    (hinit : s.initproc = t.initproc) (hpid : s.nextpid = t.nextpid)
    (hlast : s.lastIndex = t.lastIndex) (hlock : ∀ l, s.locked l = t.locked l)
    (hcpu : s.cpu 0 = t.cpu 0) (hcur : s.cur 0 = t.cur 0) (hstack : ∀ u, s.stack u = t.stack u)
    (ha0 : s.a0 = t.a0) (htrace : s.trace = t.trace) : s = t := by
  cases s
  cases t
  simp only [State.mk.injEq]
  refine ⟨funext hproc, hinit, hpid, hlast, funext hlock, ?_, ?_, funext hstack, ha0, htrace⟩
  · funext c
    rw [Subsingleton.elim c 0]
    exact hcpu
  · funext c
    rw [Subsingleton.elim c 0]
    exact hcur

theorem state_write (v : Solo) (w : Write) : v.state.write 0 w = (v.write w).state := by
  have hproc : ∀ i, (v.state.write 0 w).proc i = w.onProc i (v.proc i) :=
    fun i => State.writes_proc v.state 0 [w] i
  cases w
  case a0 k => cases h : v.cur <;> simp [State.write, write, state, h]
  all_goals
    refine state_ext hproc rfl rfl rfl (fun l => rfl) ?_ rfl ?_ rfl rfl
    · simp [State.write, write, state]
    · intro u
      cases u <;> simp [State.write, write, state, update_apply]

theorem state_writes (v : Solo) (ws : List Write) :
    v.state.writes 0 ws = (ws.foldl write v).state := by
  induction ws generalizing v with
  | nil => rfl
  | cons w ws ih =>
    calc
      v.state.writes 0 (w :: ws) = (v.state.write 0 w).writes 0 ws := rfl
      _ = ((v.write w).state).writes 0 ws := by rw [state_write]
      _ = (ws.foldl write (v.write w)).state := ih _

theorem state_top (v : Solo) : v.state.stack (v.state.thread 0) = v.top := by
  cases h : v.cur with
  | none =>
    rw [State.thread_of_cur_none (s := v.state) (c := 0) h]
    simp [top, h, state]
  | some p =>
    rw [State.thread_of_cur_some (s := v.state) (c := 0) h]
    simp [top, h, state]

theorem put_stack (v : Solo) (st : Stack) (u : Thread 1) :
    (v.put st).state.stack u = update v.state.stack (v.state.thread 0) st u := by
  cases h : v.cur with
  | none =>
    rw [State.thread_of_cur_none (s := v.state) (c := 0) h]
    cases u with
    | hart c => simp [Subsingleton.elim c 0, put, h, state]
    | proc q => simp [put, h, state]
  | some p =>
    rw [State.thread_of_cur_some (s := v.state) (c := 0) h]
    cases u with
    | hart c => simp [put, h, state]
    | proc q => simp [put, h, state, update_apply]

theorem put_eq (v : Solo) (st : Stack) :
    v.put st = { v with hart := (v.put st).hart, kstack := (v.put st).kstack } := by
  cases h : v.cur <;> simp [put, h]

theorem state_put (v : Solo) (st : Stack) :
    v.state.setStack (v.state.thread 0) st = (v.put st).state := by
  have hstack : ∀ u, (v.state.setStack (v.state.thread 0) st).stack u = (v.put st).state.stack u :=
    fun u => (put_stack v st u).symm
  rw [put_eq v st] at hstack ⊢
  exact state_ext (fun _ => rfl) rfl rfl rfl (fun _ => rfl) rfl rfl hstack rfl rfl

/-- The machine states passed through from a configuration: its own, and the one where `acquire`
is about to test the lock. -/
inductive Passes (v : Solo) : State 1 → Prop
  | start : Passes v v.state
  | spin {l : Lock} {rest : Stack} (htop : v.top = .acquire l :: rest) :
      Passes v ((v.state.setCpu 0 v.cpu.pushOff).setStack (v.state.thread 0) (.spin l :: rest))

/-- What most guards ask of these states. -/
def Near (v : Solo) (s : State 1) : Prop :=
  s = v.state ∨ (s.proc = v.proc ∧ s.myproc 0 = v.cpu.proc ∧
    ∃ l rest, s.stack (s.thread 0) = .spin l :: rest)

theorem Passes.near {v : Solo} {s : State 1} (h : v.Passes s) : v.Near s := by
  cases h with
  | start => exact .inl rfl
  | @spin l rest htop =>
    refine .inr ⟨rfl, ?_, l, rest, ?_⟩
    · simp [State.myproc, Cpu.pushOff]
    · simp

section Simulation

variable {G : Machine.Guard (State 1) (Fin 1 × Choice)} {v w : Solo} {ch : Choice} {l : Lock}
  {rest : Stack}

theorem acquire_path (hrun : v.cpu.panicked = none) (htop : v.top = .acquire l :: rest)
    (hfree : l ∉ v.held) (hG : ∀ s t, v.Passes s → G s (0, .go) t) :
    (machine 1).Path G v.state
      ({ v.put rest with held := l :: v.held, cpu := v.cpu.pushOff } : Solo).state := by
  let s := (v.state.setCpu 0 v.cpu.pushOff).setStack (v.state.thread 0) (.spin l :: rest)
  have htop' : v.state.stack (v.state.thread 0) = .acquire l :: rest := by rw [state_top, htop]
  have hlocked : v.state.locked l = none := by simp [state, hfree]
  have hstack : s.stack (s.thread 0) = .spin l :: rest := by simp [s]
  have hfirst : (machine 1).step v.state (0, .go) = some s := by
    have hpan : (v.state.cpu 0).panicked = none := hrun
    simp only [machine, step, hpan, htop', frameStep, acquireStep, State.Holding]
    simp [hfree, s, state]
  have hpan : (s.cpu 0).panicked = none := by simpa [s, Cpu.pushOff] using hrun
  have hsecond : (machine 1).step s (0, .go) =
      some ((s.setLocked l (some 0)).setStack (s.thread 0) rest) := by
    simp only [machine, step, hpan, hstack, frameStep, spinStep]
    simp [s, hlocked]
  have hend : (s.setLocked l (some 0)).setStack (s.thread 0) rest =
      ({ v.put rest with held := l :: v.held, cpu := v.cpu.pushOff } : Solo).state := by
    have hput := put_stack v rest
    rw [put_eq v rest] at hput ⊢
    refine state_ext (fun _ => rfl) rfl rfl rfl ?_ ?_ rfl ?_ rfl rfl
    · intro l'
      by_cases hl : l' = l
      · simp [s, state, hl]
      · simp [s, state, hl]
    · simp [s, state]
    · intro u
      rw [← update_idem] at hput
      exact (hput u).symm
  rw [hend] at hsecond
  exact Machine.Path.head hfirst (hG _ _ .start)
    (Machine.Path.head hsecond (hG _ _ (.spin htop)) (Machine.Path.refl _))

theorem release_state (u : Cpu) :
    ((v.state.setLocked l none).setCpu 0 u).setStack (v.state.thread 0) rest =
      ({ v.put rest with held := v.held.filter (· ≠ l), cpu := u } : Solo).state := by
  have hput := put_stack v rest
  rw [put_eq v rest] at hput ⊢
  refine state_ext (fun _ => rfl) rfl rfl rfl ?_ ?_ rfl (fun t => (hput t).symm) rfl rfl
  · intro l'
    by_cases hl : l' = l
    · simp [state, hl]
    · simp [state, hl]
  · simp [state]

theorem switch_state (p : Option Slot) : (v.state.setStack (v.state.thread 0) rest).setCur 0 p =
      ({ v.put rest with cur := p } : Solo).state := by
  have hput := put_stack v rest
  rw [put_eq v rest] at hput ⊢
  refine state_ext (fun _ => rfl) rfl rfl rfl (fun _ => rfl) rfl ?_ (fun t => (hput t).symm) rfl rfl
  simp [state]

theorem interrupt_state (u : Cpu) : (v.state.setCpu 0 u).setStack (v.state.thread 0) rest =
      ({ v.put rest with cpu := u } : Solo).state := by
  have hput := put_stack v rest
  rw [put_eq v rest] at hput ⊢
  refine state_ext (fun _ => rfl) rfl rfl rfl (fun _ => rfl) ?_ rfl (fun t => (hput t).symm) rfl rfl
  simp [state]

/-- A frame that takes one step of the machine. -/
theorem frame_step {f : Frame} (hacq : ∀ l, f ≠ .acquire l) (h : v.frame f rest ch = some w) :
    frameStep v.state 0 f rest ch = some w.state := by
  unfold frame at h
  split at h
  · exact absurd rfl (hacq _)
  · rename_i l
    split at h
    · cases h
    · rename_i u hpop
      split at h <;> cases h
      rename_i hl
      have hhold : v.state.Holding 0 l := by simp [State.Holding, state, hl]
      have hpop' : ((v.state.setLocked l none).cpu 0).popOff = .ok u := hpop
      simp only [frameStep, releaseStep, hhold, if_true, hpop']
      rw [← release_state]
      rfl
  · cases h
    simp only [frameStep, swtchStep, switch_state]
  · cases h
    simp only [frameStep, swtchBackStep, switch_state]
  · rename_i hrel hsw hback
    split at h
    · cases h
      rename_i ws fs hcode
      have hcodeStep : codeStep v.state 0 f rest ch =
          some ((v.state.setStack (v.state.thread 0) (fs ++ rest)).writes 0 ws) := by
        simp only [codeStep, hcode]
      rw [state_put, state_writes] at hcodeStep
      rw [← hcodeStep]
      unfold frameStep
      split
      · exact absurd rfl (hacq _)
      · simp [code] at hcode
      · exact absurd rfl (hrel _ rfl)
      · exact absurd rfl (hsw _ rfl)
      · exact absurd rfl (hback rfl)
      · rfl
    · cases h

theorem interrupt_step {timer : Bool} (h : v.interrupt timer = some w) :
    Kernel.interrupt v.state 0 timer = some w.state := by
  unfold interrupt at h
  split at h
  · cases h
  · rename_i hne
    split at h <;> cases h
    have hintr : (v.state.cpu 0).intr = true := by assumption
    unfold Kernel.interrupt
    rw [state_top]
    split
    · rename_i htop
      exact (hne _ htop).elim
    · simp only [hintr, if_true, interrupt_state]
      rfl

theorem next_step (hacq : ch = .go → ∀ l rest, v.top ≠ .acquire l :: rest)
    (h : v.next ch = some w) : step v.state 0 ch = some w.state := by
  unfold next at h
  split at h
  · cases h
  · rename_i hrun
    have hrun' : ¬ (v.state.cpu 0).panicked ≠ none := hrun
    cases ch with
    | intr timer =>
      simp only [step, hrun', if_false]
      exact interrupt_step h
    | _ =>
      cases htop : v.top with
      | nil => simp [htop] at h
      | cons f rest =>
        simp only [htop] at h
        simp only [step, hrun', if_false, state_top, htop]
        refine frame_step ?_ h
        rintro l rfl
        first
        | exact hacq rfl l rest htop
        | simp [frame, code] at h

theorem next_path (h : v.next ch = some w) (hG : ∀ s t, v.Passes s → G s (0, ch) t) :
    (machine 1).Path G v.state w.state := by
  by_cases hacq : ch = .go ∧ ∃ l rest, v.top = .acquire l :: rest
  · rcases hacq with ⟨rfl, l, rest, htop⟩
    unfold next at h
    split at h
    · cases h
    · rename_i hrun
      simp only [htop, frame] at h
      split at h <;> cases h
      exact acquire_path (by simpa using hrun) htop (by assumption) hG
  · have hstep := next_step (fun hgo l rest htop => hacq ⟨hgo, l, rest, htop⟩) h
    exact Machine.Path.head (a := (0, ch)) hstep (hG _ _ .start) (Machine.Path.refl _)

theorem run_passes {ok : Solo → Bool} {chs : List Choice} (h : v.run ok chs = some w)
    (hG : ∀ v, ok v = true → ∀ s ch t, v.Passes s → G s (0, ch) t) :
    (machine 1).Path G v.state w.state := by
  induction chs generalizing v with
  | nil =>
    cases h
    exact Machine.Path.refl _
  | cons ch chs ih =>
    unfold run at h
    split at h
    · rename_i u hok hu
      exact (next_path hu fun s t hs => hG v hok s ch t hs).trans (ih h)
    · cases h

theorem run_path {ok : Solo → Bool} {chs : List Choice} (h : v.run ok chs = some w)
    (hG : ∀ v, ok v = true → ∀ s ch t, v.Near s → G s (0, ch) t) :
    (machine 1).Path G v.state w.state :=
  run_passes h fun v hv s ch t hs => hG v hv s ch t hs.near

theorem run_reaches {chs : List Choice} (h : v.run (fun _ => true) chs = some w) :
    (machine 1).Reaches v.state w.state :=
  run_path h fun _ _ _ _ _ _ => trivial

theorem boot_state (mode : SchedMode) : (boot mode).state = Kernel.boot fun _ => mode := by
  refine state_ext (fun _ => rfl) rfl rfl rfl (fun _ => rfl) rfl rfl ?_ rfl rfl
  intro u
  cases u <;> rfl

theorem reaches_of_any {mode : SchedMode} {P : Solo → Prop} {_ : DecidablePred P}
    {chs : List Choice}
    (h : ((boot mode).run (fun _ => true) chs).any (fun v => decide (P v)) = true) :
    ∃ v, (machine 1).Reaches (Kernel.boot fun _ => mode) v.state ∧ P v := by
  rcases (Option.any_eq_true _ _).1 h with ⟨v, hv, htest⟩
  exact ⟨v, boot_state mode ▸ run_reaches hv, of_decide_eq_true htest⟩

end Simulation

end Solo
end Xv6Schedulers.Kernel
