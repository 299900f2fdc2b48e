import Xv6Schedulers.Kernel.Segment

/-!
# Move — what one step can do

Inversion of `step`: a step of a hart is one of the moves below.  Together with `Segment.lean` this
is the only place where the step function is taken apart.
-/

namespace Xv6Schedulers.Kernel

variable {n : Nat} {s t : State n} {c : Fin n} {ch : Choice} {m : Panic}

/-- The steps hart `c` can take, with the state they lead to. -/
inductive Move (s : State n) (c : Fin n) : State n → Prop
  | acquire {l : Lock} {rest : Stack} (hst : s.stack (s.thread c) = .acquire l :: rest)
      (hfree : ¬ s.Holding c l) :
      Move s c ((s.setCpu c (s.cpu c).pushOff).setStack (s.thread c) (.spin l :: rest))
  | acquireTwice {l : Lock} {rest : Stack} (hst : s.stack (s.thread c) = .acquire l :: rest)
      (hold : s.Holding c l) :
      Move s c ((s.setCpu c (s.cpu c).pushOff).panic c .acquire)
  | spin {l : Lock} {rest : Stack} (hst : s.stack (s.thread c) = .spin l :: rest)
      (hfree : s.locked l = none) :
      Move s c ((s.setLocked l (some c)).setStack (s.thread c) rest)
  | release {l : Lock} {rest : Stack} {u : Cpu}
      (hst : s.stack (s.thread c) = .release l :: rest)
      (hold : s.Holding c l) (hpop : (s.cpu c).popOff = .ok u) :
      Move s c (((s.setLocked l none).setCpu c u).setStack (s.thread c) rest)
  | releaseUnheld {l : Lock} {rest : Stack} (hst : s.stack (s.thread c) = .release l :: rest)
      (hold : ¬ s.Holding c l) :
      Move s c (s.panic c .release)
  | releasePanic {l : Lock} {rest : Stack} {m : Panic}
      (hst : s.stack (s.thread c) = .release l :: rest)
      (hold : s.Holding c l) (hpop : (s.cpu c).popOff = .error m) :
      Move s c ((s.setLocked l none).panic c m)
  | swtch {p : Slot} {rest : Stack} (hst : s.stack (s.thread c) = .swtch p :: rest) :
      Move s c ((s.setStack (s.thread c) rest).setCur c (some p))
  | swtchBack {rest : Stack} (hst : s.stack (s.thread c) = .sched .swtch :: rest) :
      Move s c ((s.setStack (s.thread c) rest).setCur c none)
  | seg {f : Frame} {rest : Stack} {ws : List Write} {fs : Stack}
      (hst : s.stack (s.thread c) = f :: rest) (hseg : Seg s c f ws fs) :
      Move s c ((s.setStack (s.thread c) (fs ++ rest)).writes c ws)
  | panic {f : Frame} {rest : Stack} {ch : Choice} {m : Panic}
      (hst : s.stack (s.thread c) = f :: rest) (hcode : code s c f ch = some (.panics m)) :
      Move s c (s.panic c m)
  | interrupt {timer : Bool} (hintr : (s.cpu c).intr = true)
      (huser : ∀ r, s.stack (s.thread c) ≠ .trap .user :: r) :
      Move s c ((s.setCpu c { s.cpu c with intr := false }).setStack (s.thread c)
        (.trap (.service false) :: .trap (.kerneltrap timer) :: s.stack (s.thread c)))

/-- The frame on top moves as listed. -/
theorem frameStep_move {f : Frame} {rest : Stack}
    (hst : s.stack (s.thread c) = f :: rest) (h : frameStep s c f rest ch = some t) :
    Move s c t := by
  have hcode : ∀ {f}, s.stack (s.thread c) = f :: rest → codeStep s c f rest ch = some t →
      Move s c t := by
    intro f hst h
    unfold codeStep at h
    split at h
    · cases h
    · cases h
      exact .panic hst (by assumption)
    · cases h
      exact .seg hst (code_seg (by assumption))
  unfold frameStep at h
  split at h
  · cases h
    unfold acquireStep
    simp only
    split
    · exact .acquireTwice hst (by assumption)
    · exact .acquire hst (by assumption)
  · unfold spinStep at h
    split at h <;> cases h
    exact .spin hst (by assumption)
  · cases h
    unfold releaseStep
    split
    · simp only
      split
      · exact .releasePanic hst (by assumption) (by assumption)
      · exact .release hst (by assumption) (by assumption)
    · exact .releaseUnheld hst (by assumption)
  · cases h
    exact .swtch hst
  · cases h
    exact .swtchBack hst
  · exact hcode hst h

/-- Every step is a move of a hart that has not panicked. -/
theorem step_move (h : step s c ch = some t) : (s.cpu c).panicked = none ∧ Move s c t := by
  unfold step at h
  split at h
  · cases h
  · refine ⟨by simp_all, ?_⟩
    split at h
    · unfold interrupt at h
      split at h
      · cases h
      · rename_i huser
        split at h <;> cases h
        exact .interrupt (by assumption) fun r hr => huser r hr
    · split at h
      · cases h
      · exact frameStep_move (by assumption) h

/-! ## Steps that only move control -/

/-- The frames that are not lock operations, calls of `swtch`, or trap handlers. -/
def Frame.isCore : Frame → Bool
  | .acquire _ | .spin _ | .release _ | .swtch _ | .sched .swtch | .trap _ => false
  | _ => true

/-- The frames of a stack that carry the data of the process subsystem. -/
def core (st : Stack) : Stack := st.filter Frame.isCore

@[simp] theorem core_nil : core [] = [] := rfl

theorem core_cons (f : Frame) (r : Stack) :
    core (f :: r) = if f.isCore then f :: core r else core r := by
  simp [core, List.filter_cons]

theorem mem_core {f : Frame} {st : Stack} (hf : f.isCore = true) : f ∈ core st ↔ f ∈ st := by
  simp [core, hf]

/-- Nothing changes but locks, processors, and the frames outside the core of a stack. -/
structure Still (s t : State n) : Prop where
  proc : t.proc = s.proc
  initproc : t.initproc = s.initproc
  nextpid : t.nextpid = s.nextpid
  lastIndex : t.lastIndex = s.lastIndex
  a0 : t.a0 = s.a0
  trace : t.trace = s.trace
  myproc : ∀ d, t.myproc d = s.myproc d
  core : ∀ u, core (t.stack u) = core (s.stack u)

attribute [local simp] Frame.isCore core_cons

/-- A step either runs a segment of code or leaves the process subsystem alone. -/
theorem move_cases (hm : Move s c t) :
    (∃ f rest ws fs, s.stack (s.thread c) = f :: rest ∧ Seg s c f ws fs ∧
      t = (s.setStack (s.thread c) (fs ++ rest)).writes c ws) ∨ Still s t := by
  have hstack : ∀ {u : State n} {st : Stack}, u.stack = Function.update s.stack (s.thread c) st →
      core st = core (s.stack (s.thread c)) → ∀ v, core (u.stack v) = core (s.stack v) := by
    intro u st hu hst v
    by_cases hv : v = s.thread c
    · rw [hu, hv]
      simpa using hst
    · rw [hu]
      simp [hv]
  -- every change of a processor outside the code leaves `c->proc` alone
  have hcpu : ∀ {u : State n} {v : Cpu}, u.cpu = Function.update s.cpu c v →
      v.proc = (s.cpu c).proc → ∀ d, u.myproc d = s.myproc d := by
    intro u v hu hv d
    by_cases hd : d = c
    · simp [State.myproc, hu, hd, hv]
    · simp [State.myproc, hu, hd]
  cases hm with
  | acquire hst _ =>
    refine .inr ⟨rfl, rfl, rfl, rfl, rfl, rfl, hcpu rfl rfl, hstack rfl ?_⟩
    simp [hst]
  | acquireTwice _ _ =>
    refine .inr ⟨rfl, rfl, rfl, rfl, rfl, rfl, hcpu (v := ?_) ?_ ?_, fun _ => rfl⟩
    · exact { (s.cpu c).pushOff with panicked := some .acquire }
    · simp [State.panic, State.setCpu]
    · rfl
  | spin hst _ =>
    refine .inr ⟨rfl, rfl, rfl, rfl, rfl, rfl, fun _ => rfl, hstack rfl ?_⟩
    simp [hst]
  | release hst _ hpop =>
    refine .inr ⟨rfl, rfl, rfl, rfl, rfl, rfl, hcpu rfl (Cpu.popOff_ok hpop).2.1, hstack rfl ?_⟩
    simp [hst]
  | releaseUnheld _ _ => exact .inr ⟨rfl, rfl, rfl, rfl, rfl, rfl, hcpu rfl rfl, fun _ => rfl⟩
  | releasePanic _ _ _ => exact .inr ⟨rfl, rfl, rfl, rfl, rfl, rfl, hcpu rfl rfl, fun _ => rfl⟩
  | swtch hst =>
    refine .inr ⟨rfl, rfl, rfl, rfl, rfl, rfl, fun _ => rfl, hstack rfl ?_⟩
    simp [hst]
  | swtchBack hst =>
    refine .inr ⟨rfl, rfl, rfl, rfl, rfl, rfl, fun _ => rfl, hstack rfl ?_⟩
    simp [hst]
  | seg hst hseg => exact .inl ⟨_, _, _, _, hst, hseg, rfl⟩
  | panic _ _ => exact .inr ⟨rfl, rfl, rfl, rfl, rfl, rfl, hcpu rfl rfl, fun _ => rfl⟩
  | interrupt _ _ =>
    refine .inr ⟨rfl, rfl, rfl, rfl, rfl, rfl, hcpu rfl rfl, hstack rfl ?_⟩
    simp

/-- The panics of the code outside `spinlock.c`, and where they stand. -/
inductive CodePanic (s : State n) (c : Fin n) : Frame → Panic → Prop
  | schedLock {p : Slot} (hp : s.myproc c = some p) (hold : ¬ s.Holding c (.proc p)) :
      CodePanic s c (.sched .sched) .schedLock
  | schedLocks (hnoff : (s.cpu c).noff ≠ 1) : CodePanic s c (.sched .sched) .schedLocks
  | schedRunning {p : Slot} (hp : s.myproc c = some p)
      (hstate : (s.proc p).state = .running) :
      CodePanic s c (.sched .sched) .schedRunning
  | schedInterruptible (hnoff : (s.cpu c).noff = 1) (hintr : (s.cpu c).intr = true) :
      CodePanic s c (.sched .sched) .schedInterruptible
  | initExiting {status : Int32} : CodePanic s c (.exit (.start status)) .initExiting
  | zombieExit : CodePanic s c (.exit .zombie) .zombieExit

theorem schedCode_panic {pc : SchedPc}
    (h : schedCode s c pc ch = some (.panics m)) : CodePanic s c (.sched pc) m := by
  cases pc <;> cases ch <;>
    simp only [schedCode, reduceCtorEq, Option.some.injEq] at h
  all_goals rcases Option.bind_eq_some_iff.1 h with ⟨p, hp, hpanic⟩
  case sched.go =>
      (repeat' split at hpanic) <;> simp only [Option.some.injEq, reduceCtorEq] at hpanic <;>
        cases hpanic
      · exact .schedLock hp (by assumption)
      · exact .schedLocks (by assumption)
      · exact .schedRunning hp (by assumption)
      · exact .schedInterruptible (not_not.1 (by assumption)) (by assumption)
  all_goals cases hpanic

theorem exitCode_panic {pc : ExitPc}
    (h : exitCode s c pc ch = some (.panics m)) : CodePanic s c (.exit pc) m := by
  cases pc <;> cases ch <;>
    simp only [exitCode, reduceCtorEq, Option.some.injEq] at h
  case zombie.go =>
      cases h
      exact .zombieExit
  case start.go =>
      rcases Option.bind_eq_some_iff.1 h with ⟨p, hp, hpanic⟩
      split at hpanic <;> cases hpanic
      exact .initExiting
  all_goals
    rcases Option.bind_eq_some_iff.1 h with ⟨p, hp, hpanic⟩
    (repeat' split at hpanic) <;> cases hpanic

theorem code_panic {f : Frame} (h : code s c f ch = some (.panics m)) : CodePanic s c f m:= by
  cases f with
  | sched pc => exact schedCode_panic (by simpa only [code] using h)
  | exit pc => exact exitCode_panic (by simpa only [code] using h)
  | acquire => simp [code] at h
  | spin => simp [code] at h
  | release => simp [code] at h
  | swtch => simp [code] at h
  | ret => cases ch <;> simp [code] at h
  | loteria pc =>
    cases pc <;> cases ch <;> simp only [code, loteriaCode, reduceCtorEq] at h <;>
      (repeat' split at h) <;> cases h
  | stride pc =>
    cases pc <;> cases ch <;> simp only [code, strideCode, reduceCtorEq] at h <;>
      (repeat' split at h) <;> cases h
  | wake pc =>
    cases pc <;> cases ch <;> simp only [code, wakeCode, reduceCtorEq] at h <;>
      first
      | ((repeat' split at h) <;> cases h)
      | (rcases Option.bind_eq_some_iff.1 h with ⟨p, hp, hpanic⟩; cases hpanic)
  | fork pc =>
    unfold code forkCode at h
    simp only at h
    split at h <;>
      first
      | ((repeat' split at h) <;> cases h)
      | (rcases Option.bind_eq_some_iff.1 h with ⟨p, hp, hpanic⟩; cases hpanic)
  | wait pc =>
    cases pc <;> cases ch <;> simp only [code, waitCode, reduceCtorEq] at h <;>
      rcases Option.bind_eq_some_iff.1 h with ⟨p, hp, hpanic⟩ <;>
      (repeat' split at hpanic) <;> cases hpanic
  | trap pc =>
    unfold code trapCode at h
    simp only at h
    split at h <;>
      first
      | ((repeat' split at h) <;> cases h)
      | (rcases Option.bind_eq_some_iff.1 h with ⟨p, hp, hpanic⟩
         (repeat' split at hpanic) <;> cases hpanic)

end Xv6Schedulers.Kernel
