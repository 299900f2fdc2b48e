import Xv6Schedulers.Locking.Reachable

/-!
# Shape — which frame stands on which

`Wf` says which locks a stack holds.  The laws about `sleep`, `wakeup`, `exit` and `wait` also need
to know who called whom:

* `sweep st` is the `wakeup` loop a thread is in, `settling st` the `sleep` it is about to complete,
  `slumber st` the lock of the `sleep` it has completed;
* `Shape me st` says that every frame of the stack stands on a caller the code gives it;
* `Shift` lists what a step that is not a segment of code does to the stack of its thread.

`reachable_formed` is the result: every stack of a reachable state has the shape.
-/

namespace Xv6Schedulers.Lifecycle

open Kernel Locking Lib

/-! ## Views of a stack -/

/-- The `wakeup` the thread is in: its channel, and the slot the loop has come to. -/
@[simp] def sweep : Stack → Option (Option Chan × Nat)
  | .acquire _ :: r => sweep r
  | .spin _ :: r => sweep r
  | .release _ :: r => sweep r
  | .wake (.wakeupNext ch k) :: _ => some (ch, k)
  | .wake (.wakeupLocked ch i) :: _ => some (ch, i.val)
  | _ => none

/-- The thread is inside `sleep(ch, lk)`, has its own lock, and has not set `p->state` yet. -/
@[simp] def settling : Stack → Option (Chan × Lock)
  | .release _ :: r => settling r
  | .sched (.sleepReleased ch lk) :: _ => some (ch, lk)
  | _ => none

/-- The thread is inside `sleep(_, lk)`, in its call of `sched`. -/
@[simp] def slumber : Stack → Option Lock
  | .release _ :: r => slumber r
  | .sched .sched :: .sched (.sleepBack lk) :: _ => some lk
  | .sched .swtch :: .sched (.schedRet _) :: .sched (.sleepBack lk) :: _ => some lk
  | .sched (.schedRet _) :: .sched (.sleepBack lk) :: _ => some lk
  | _ => none

/-- Only frames of `usertrap`. -/
def Base (r : Stack) : Prop := ∀ f ∈ r, ∃ pc, f = .trap pc

/-- The code that follows an `acquire` of a lock of level 0. -/
def Entry : Lock → Stack → Prop
  | .wait, .wait (.scan _ 0 false) :: _ => True
  | .wait, .fork (.setParent _ _) :: _ => True
  | .wait, .exit (.reparent _ 0) :: _ => True
  | .cond k, .trap (.crit k' _) :: _ => k = k'
  | _, _ => False

/-- The caller of `sleep(_, lk)`. -/
def Sleeper (lk : Lock) (r : Stack) : Prop :=
  match lk with
  | .wait => ∃ addr r', r = .wait (.scan addr 0 false) :: r'
  | .cond k => (∃ r', r = .trap (.crit k true) :: r') ∧ ∀ pc, .wait pc ∉ r
  | _ => False

/-- The callers of `wakeup`. -/
def Waker : Stack → Prop
  | .trap (.crit _ _) :: _ => True
  | .exit (.reparent _ _) :: _ => True
  | .exit (.woken _) :: _ => True
  | _ => False

/-- The channel of a `sleep` of process `p`: in `wait` its own. -/
def Channel (me : Option Slot) (ch : Chan) (lk : Lock) : Prop := lk = .wait → ∀ p ∈ me, ch = .proc p

/-- What a frame requires of the frames below it. -/
def Frame.Fits (me : Option Slot) (r : Stack) : Frame → Prop
  | .acquire l => (rank l = 0 → Entry l r) ∧ settling r = none
  | .spin l => (rank l = 0 → Entry l r) ∧ settling r = none
  | .release l => rank l = 0 → sweep r = none
  -- an interrupt may come anywhere where no lock is held
  | .trap (.kerneltrap _) => settling r = none
  | .trap .kerneltrapRet => settling r = none
  | .trap (.service true) => sweep r = none ∧ settling r = none ∧ ∀ pc, .wait pc ∉ r
  | .trap (.crit _ true) => sweep r = none ∧ settling r = none ∧ ∀ pc, .wait pc ∉ r
  | .sched (.sleepLocked ch lk) => Sleeper lk r ∧ Channel me ch lk
  | .sched (.sleepReleased ch lk) => Sleeper lk r ∧ Channel me ch lk
  | .sched (.sleepBack lk) => Sleeper lk r
  | .wake (.wakeupNext _ _) => Waker r
  | .wake (.wakeupLocked _ _) => Waker r
  | .wait _ => Base r
  | .fork _ => Base r
  | .exit _ => Base r
  | _ => sweep r = none ∧ settling r = none

attribute [local simp] Frame.Fits

/-- Every frame stands on a caller the code gives it. -/
def Shape (me : Option Slot) : Stack → Prop
  | [] => True
  | f :: r => Frame.Fits me r f ∧ Shape me r

@[simp] theorem shape_nil (me : Option Slot) : Shape me [] := trivial

@[simp] theorem shape_cons (me : Option Slot) (f : Frame) (r : Stack) :
    Shape me (f :: r) ↔ Frame.Fits me r f ∧ Shape me r :=
  Iff.rfl

section Views

variable {me : Option Slot} {r : Stack} {f : Frame} {lk : Lock}

theorem Base.sweep_eq (h : Base r) : sweep r = none := by
  cases r with
  | nil => rfl
  | cons f r =>
    rcases h f List.mem_cons_self with ⟨pc, rfl⟩
    rfl

theorem Base.settling_eq (h : Base r) : settling r = none := by
  cases r with
  | nil => rfl
  | cons f r =>
    rcases h f List.mem_cons_self with ⟨pc, rfl⟩
    rfl

theorem Base.wait_notMem (h : Base r) (pc : WaitPc) : .wait pc ∉ r := by
  intro hmem
  rcases h _ hmem with ⟨pc', heq⟩
  cases heq

theorem Sleeper.sweep_eq (h : Sleeper lk r) : sweep r = none := by
  cases lk with
  | wait =>
    rcases h with ⟨addr, r', rfl⟩
    rfl
  | cond k =>
    rcases h with ⟨⟨r', rfl⟩, -⟩
    rfl
  | _ => exact h.elim

theorem Sleeper.settling_eq (h : Sleeper lk r) : settling r = none := by
  cases lk with
  | wait =>
    rcases h with ⟨addr, r', rfl⟩
    rfl
  | cond k =>
    rcases h with ⟨⟨r', rfl⟩, -⟩
    rfl
  | _ => exact h.elim

theorem Sleeper.entry (h : Sleeper lk r) : Entry lk r := by
  cases lk with
  | wait =>
    rcases h with ⟨addr, r', rfl⟩
    trivial
  | cond k =>
    rcases h with ⟨⟨r', rfl⟩, -⟩
    rfl
  | _ => exact h.elim

theorem Entry.sweep_eq (h : Entry lk r) : sweep r = none := by
  unfold Entry at h
  split at h <;> first | rfl | exact h.elim

theorem Waker.sweep_eq (h : Waker r) : sweep r = none := by
  unfold Waker at h
  split at h <;> first | rfl | exact h.elim

theorem Waker.settling_eq (h : Waker r) : settling r = none := by
  unfold Waker at h
  split at h <;> first | rfl | exact h.elim

end Views

/-! ## Segments keep the shape -/

section Segments

variable {n : Nat} {s : State n} {c : Fin n} {me : Option Slot} {p : Slot}
  {ws : List Write} {fs rest : Stack}

theorem schedSeg_shape {pc : SchedPc} (h : SchedSeg s c pc ws fs)
    (hwf : Wf me (.sched pc :: rest)) (hsh : Shape me (.sched pc :: rest)) :
    Shape me (fs ++ rest) := by
  rcases hsh with ⟨hfits, hrest⟩
  cases h with
  | forkret hp =>
    rcases hwf with ⟨⟨-, rfl⟩, -, -⟩
    simp
  | sleepLocked =>
    exact ⟨by simp, hfits, hrest⟩
  | sleepReleased hp =>
    exact ⟨by simp, hfits.1, hrest⟩
  | sleepBack hp =>
    exact ⟨by simp, ⟨fun _ => hfits.entry, hfits.settling_eq⟩, hrest⟩
  | _ => simp_all

theorem wakeSeg_shape {pc : WakePc} (h : WakeSeg s c pc ws fs)
    (hsh : Shape me (.wake pc :: rest)) : Shape me (fs ++ rest) := by
  rcases hsh with ⟨hfits, hrest⟩
  cases h <;> simp_all

theorem forkSeg_shape {pc : ForkPc} (h : ForkSeg s c pc ws fs)
    (hsh : Shape me (.fork pc :: rest)) : Shape me (fs ++ rest) := by
  rcases hsh with ⟨hbase, hrest⟩
  have hsweep := Base.sweep_eq hbase
  have hsettling := Base.settling_eq hbase
  cases h <;> simp_all [Entry]

theorem exitSeg_shape {pc : ExitPc} (h : ExitSeg s c pc ws fs)
    (hsh : Shape me (.exit pc :: rest)) : Shape me (fs ++ rest) := by
  rcases hsh with ⟨hbase, hrest⟩
  have hwait := Base.wait_notMem hbase
  cases h <;> simp_all [Entry, Waker]

theorem waitSeg_shape {pc : WaitPc} (hp : s.myproc c = some p) (h : WaitSeg s c pc ws fs)
    (hsh : Shape (some p) (.wait pc :: rest)) : Shape (some p) (fs ++ rest) := by
  rcases hsh with ⟨hbase, hrest⟩
  have hsweep := Base.sweep_eq hbase
  have hsettling := Base.settling_eq hbase
  cases h <;> simp_all [Sleeper, Channel]

theorem call_shape (call : Syscall) :
    Shape me (call.call ++ [.trap (.done false), .trap .user]) := by
  cases call <;> simp [Base, Entry]

theorem trapSeg_shape {pc : TrapPc} (h : TrapSeg s c pc ws fs) (hwf : Wf me (.trap pc :: rest))
    (hsh : Shape me (.trap pc :: rest)) : Shape me (fs ++ rest) := by
  rcases hwf with ⟨hok, -, -⟩
  rcases hsh with ⟨hfits, hrest⟩
  cases h with
  | call hp hkilled =>
    rcases hok with ⟨-, rfl⟩
    simpa using call_shape _
  | @enter canSleep k =>
    cases canSleep <;> simp_all [Entry]
  | @exitCrit k canSleep =>
    cases canSleep <;> simp_all
  | @critWakeup k canSleep ch =>
    cases canSleep <;> simp_all [Waker]
  | @served canSleep =>
    exact hrest
  | _ =>
    simp_all [Frame.Ok, Base, Sleeper, Channel]

/-- A segment of code keeps the shape of the stack. -/
theorem seg_shape {f : Frame} (hp : s.myproc c = procOf me (f :: rest)) (h : Seg s c f ws fs)
    (hwf : Wf me (f :: rest)) (hsh : Shape me (f :: rest)) : Shape me (fs ++ rest) := by
  cases h with
  | ret => exact hsh.2
  | loteria h =>
    rcases hwf with ⟨⟨-, rfl⟩, -, -⟩
    cases h <;> simp
  | @stride pc _ _ h =>
    have hnil : rest = [] := by
      cases pc <;> simp_all [Frame.Ok]
    subst hnil
    cases h <;> simp
  | sched h => exact schedSeg_shape h hwf hsh
  | wake h => exact wakeSeg_shape h hsh
  | fork h => exact forkSeg_shape h hsh
  | exit h => exact exitSeg_shape h hsh
  | wait h =>
    rcases Option.isSome_iff_exists.1 hwf.1.1 with ⟨p, rfl⟩
    exact waitSeg_shape hp h hsh
  | trap h => exact trapSeg_shape h hwf hsh

end Segments

/-! ## Steps that are not segments of code -/

/-- What such a step does to the stack of its thread. -/
inductive Shift (me : Option Slot) : Stack → Stack → Prop
  | same (st : Stack) : Shift me st st
  | acquire (l : Lock) (r : Stack) : Shift me (.acquire l :: r) (.spin l :: r)
  | spin (l : Lock) (r : Stack) : Shift me (.spin l :: r) r
  | release (l : Lock) (r : Stack) : Shift me (.release l :: r) r
  | swtch (p : Slot) (r : Stack) : Shift me (.swtch p :: r) r
  | swtchBack (r : Stack) : Shift me (.sched .swtch :: r) r
  | interrupt (timer : Bool) (st : Stack) (hheld : held me st = []) :
      Shift me st (.trap (.service false) :: .trap (.kerneltrap timer) :: st)

/-- A step that is not a segment of code, as seen by the process subsystem. -/
structure Shifts {n : Nat} (s t : State n) (c : Fin n) : Prop where
  still : Still s t
  self : Shift (s.cur c) (s.stack (s.thread c)) (t.stack (s.thread c))
  other : ∀ u, u ≠ s.thread c → t.stack u = s.stack u

section Moves

variable {n : Nat} {s t : State n} {c : Fin n}

/-- A step runs a segment of code or shifts the stack of its thread. -/
theorem move_shifts (h : Inv s) (hrun : (s.cpu c).panicked = none) (hm : Move s c t) :
    (∃ f rest ws fs, s.stack (s.thread c) = f :: rest ∧ Seg s c f ws fs ∧
      t = after s c ws (fs ++ rest)) ∨ Shifts s t c := by
  rcases move_cases hm with hseg | hstill
  · exact .inl hseg
  -- only the stack of the executed thread is assigned
  have hset : ∀ {v : State n} {st : Stack}, v.stack = s.stack →
      Shift (s.cur c) (s.stack (s.thread c)) st → t.stack = Function.update v.stack (s.thread c) st →
      Shifts s t c := by
    intro v st hv hshift ht
    refine ⟨hstill, by simpa [ht] using hshift, ?_⟩
    intro u hu
    simp [ht, hv, hu]
  have hsame : t.stack = s.stack → Shifts s t c := by
    intro ht
    exact ⟨hstill, by rw [ht]; exact .same _, fun u _ => by rw [ht]⟩
  cases hm with
  | @acquire l rest hst hfree =>
    exact .inr (hset rfl (by rw [hst]; exact .acquire l rest) rfl)
  | acquireTwice hst hold => exact .inr (hsame rfl)
  | @spin l rest hst hfree =>
    exact .inr (hset rfl (by rw [hst]; exact .spin l rest) rfl)
  | @release l rest u hst hold hpop =>
    exact .inr (hset rfl (by rw [hst]; exact .release l rest) rfl)
  | releaseUnheld hst hold => exact .inr (hsame rfl)
  | releasePanic hst hold hpop => exact .inr (hsame rfl)
  | @swtch p rest hst =>
    exact .inr (hset rfl (by rw [hst]; exact .swtch p rest) rfl)
  | @swtchBack rest hst =>
    exact .inr (hset rfl (by rw [hst]; exact .swtchBack rest) rfl)
  | seg hst hseg => exact .inl ⟨_, _, _, _, hst, hseg, rfl⟩
  | panic hst hcode => exact .inr (hsame rfl)
  | @interrupt timer hintr huser =>
    refine .inr (hset rfl (.interrupt timer _ ?_) rfl)
    -- interrupts are off while a lock is held
    have hzero : (s.cpu c).noff = 0 := by
      by_contra hne
      simp [h.lock.intr c hrun hne] at hintr
    have hcount := h.lock.noff c hrun
    have hlen : (heldBy s c).length = 0 := by omega
    exact List.length_eq_zero_iff.1 hlen

theorem settling_held {p : Slot} {st : Stack} {x : Chan × Lock} (h : settling st = some x) :
    .proc p ∈ held (some p) st := by
  induction st with
  | nil => simp at h
  | cons f r ih =>
    cases f with
    | release l => exact List.mem_cons_of_mem l (ih h)
    | sched pc => cases pc <;> simp at h ⊢
    | _ => simp at h

theorem settling_none {st : Stack} (hwf : Wf none st) : settling st = none := by
  induction st with
  | nil => rfl
  | cons f r ih =>
    rcases hwf with ⟨hok, -, hr⟩
    cases f with
    | release l => exact ih hr
    | sched pc => cases pc <;> simp [Frame.Ok] at hok
    | _ => rfl

theorem shift_shape {me : Option Slot} {old new : Stack} (h : Shift me old new)
    (hwf : Wf me old) (hsh : Shape me old) : Shape me new := by
  cases h with
  | same => exact hsh
  | acquire l r => exact hsh
  | spin l r => exact hsh.2
  | release l r => exact hsh.2
  | swtch p r => exact hsh.2
  | swtchBack r => exact hsh.2
  | interrupt timer st hheld =>
    refine ⟨by simp, ?_, hsh⟩
    cases hset : settling old with
    | none => exact hset
    | some x =>
      -- a process that settles holds its own lock
      cases me with
      | none => exact absurd hset (by rw [settling_none hwf]; simp)
      | some p =>
        have hmem := settling_held (p := p) hset
        rw [hheld] at hmem
        cases hmem

/-- The invariants of locks and processes, and the shape of every stack. -/
structure Formed (s : State n) : Prop where
  inv : Inv s
  shape : ∀ u : Thread n, Shape u.self (s.stack u)

theorem Formed.shape_thread (h : Formed s) (c : Fin n) :
    Shape (s.cur c) (s.stack (s.thread c)) := by
  simpa using h.shape (s.thread c)

theorem formed_move (h : Formed s) (hrun : (s.cpu c).panicked = none) (hm : Move s c t) :
    Formed t := by
  refine ⟨move_inv h.inv hrun hm, ?_⟩
  have hwf := h.inv.lock.wf_thread c
  have hshape := h.shape_thread c
  rcases move_shifts h.inv hrun hm with ⟨f, rest, ws, fs, hst, hseg, rfl⟩ | hshift
  · have hacts := seg_acts h.inv.proc hst hseg
    have hmy : s.myproc c = procOf (s.cur c) (f :: rest) := by
      rw [← hst]
      exact h.inv.proc.myproc_procOf c
    rw [hst] at hwf hshape
    intro u
    by_cases hu : u = s.thread c
    · rw [hu, hacts.self, thread_self]
      exact seg_shape hmy hseg hwf hshape
    · rcases hacts.other u hu with heq | ⟨i, rfl, -, heq⟩
      · rw [heq]
        exact h.shape u
      · rw [heq]
        simp [newStack]
  · intro u
    by_cases hu : u = s.thread c
    · rw [hu, thread_self]
      exact shift_shape hshift.self hwf hshape
    · rw [hshift.other u hu]
      exact h.shape u

theorem boot_formed (mode : Fin n → SchedMode) : Formed (boot mode) := by
  refine ⟨boot_inv mode, ?_⟩
  intro u
  cases u with
  | hart d =>
    have hst : (boot mode).stack (.hart d) = (mode d).stack := rfl
    rw [hst]
    cases mode d <;> simp [SchedMode.stack]
  | proc p =>
    have hst : (boot mode).stack (.proc p) = if p = initSlot then newStack else [] := rfl
    rw [hst]
    split <;> simp [newStack]

theorem reachable_formed {mode : Fin n → SchedMode} (h : Reachable mode s) : Formed s := by
  refine h.invariant (boot_formed mode) ?_
  intro s a t hs hstep
  rcases step_move hstep with ⟨hrun, hm⟩
  exact formed_move hs hrun hm

/-! ## Who holds a lock of level 0 -/

theorem current_of_held {u : Thread n} {l : Lock} (h : Inv s) (hl : l ∈ held u.self (s.stack u))
    (hrank : rank l = 0) : ∃ d, s.thread d = u ∧ s.locked l = some d := by
  cases u with
  | hart d =>
    cases hcur : s.cur d with
    | none =>
      have hthread := State.thread_of_cur_none hcur
      refine ⟨d, hthread, (h.lock.holder l d).2 ?_⟩
      simpa [heldBy, hcur, hthread, Thread.self] using hl
    | some p =>
      exfalso
      rcases h.proc.resting d p hcur with ⟨cl, hst⟩ | hst <;>
        simp [hst, Thread.self] at hl <;> simp [hl] at hrank
  | proc p =>
    by_cases hex : ∃ d, s.cur d = some p
    · rcases hex with ⟨d, hcur⟩
      have hthread := State.thread_of_cur_some hcur
      refine ⟨d, hthread, (h.lock.holder l d).2 ?_⟩
      simpa [heldBy, hcur, hthread, Thread.self] using hl
    · exfalso
      have hwf := h.lock.wf (.proc p)
      rcases h.proc.parked p (fun d hd => hex ⟨d, hd⟩) with hparked | ⟨hst, -⟩
      · have heq := hparked.held_eq hwf
        simp only [Thread.self] at hl
        rw [heq] at hl
        simp [List.mem_singleton.1 hl] at hrank
      · simp [hst] at hl

theorem held_unique {u v : Thread n} {l : Lock} (h : Inv s) (hu : l ∈ held u.self (s.stack u))
    (hv : l ∈ held v.self (s.stack v)) (hrank : rank l = 0) : u = v := by
  rcases current_of_held h hu hrank with ⟨d, hd, hlock⟩
  rcases current_of_held h hv hrank with ⟨d', hd', hlock'⟩
  rw [hlock] at hlock'
  cases hlock'
  rw [← hd, hd']

end Moves

end Xv6Schedulers.Lifecycle
