import Xv6Schedulers.Kernel.Solo
import Xv6Schedulers.Locking.Reachable

/-!
# Switch — the protocol of `swtch`

The lock of a process is acquired by one thread and released by another across `swtch`, in both
directions.  For any number of harts under either scheduler:

* a process whose lock is free is `RUNNING` exactly if one hart has it in `c->proc`;
* every `swtch` is called with `noff == 1` and no lock but that of the process;
* the only panics ever reached are `acquire` and `init exiting`.

In user space a hart holds nothing (`user_holds_nothing`).

The first of these panics is real: `forkprio` acquires `np->lock` a second time when `uvmcopy`
fails.
-/

namespace Xv6Schedulers.Locking

open Kernel Lib

variable {n : Nat} {s t : State n} {c : Fin n} {p : Slot}

/-! ## `RUNNING` and `c->proc` -/

theorem Inv.onCpu_of_free (h : Inv s) (hfree : s.locked (.proc p) = none)
    (hc : s.myproc c = some p) : onCpu s c = true := by
  by_contra hoff
  have hheld := off_held h.lock h.proc hc (by simpa using hoff)
  rw [← h.lock.holder, hfree] at hheld
  cases hheld

theorem Inv.running_iff (h : Inv s) (hfree : s.locked (.proc p) = none) :
    (s.proc p).state = .running ↔ ∃! c, (s.cpu c).proc = some p := by
  constructor
  · intro hrun
    rcases h.proc.running p hrun with ⟨c, hc⟩
    refine ⟨c, hc, ?_⟩
    intro d hd
    exact h.proc.owner d c p hd hc
  · rintro ⟨c, hc, -⟩
    exact h.proc.on c p hc (h.onCpu_of_free hfree hc)

/-! ## Calls of `swtch` -/

/-- Hart `c` is about to execute `swtch` to or from process `p`. -/
inductive Switching (s : State n) (c : Fin n) (p : Slot) : Prop
  | enter {rest : Stack} (hst : s.stack (s.thread c) = .swtch p :: rest)
  | leave {rest : Stack} (hst : s.stack (s.thread c) = .sched .swtch :: rest)
      (hp : s.myproc c = some p)

theorem Inv.switching_heldBy (h : Inv s) (hsw : Switching s c p) : heldBy s c = [.proc p] := by
  cases hsw with
  | @enter rest hst =>
    have hwf := h.wf_stack hst
    have hcur := hwf.1.1
    rw [hcur] at hwf
    rw [heldBy, hcur, hst]
    exact target_held hwf rfl
  | @leave rest hst hp =>
    have hwf := h.wf_stack hst
    rcases hwf with ⟨⟨hsome, b, r, rfl⟩, -, hwfr⟩
    rcases Option.isSome_iff_exists.1 hsome with ⟨q, hcur⟩
    have hqp : q = p := by
      have hq := h.proc.myproc_of_cur hcur
      simpa [hp] using hq.symm
    subst hqp
    rw [hcur] at hwfr
    rw [heldBy, hcur, hst]
    exact hwfr.1.2

theorem Inv.switching_noff (h : Inv s) (hrun : (s.cpu c).panicked = none)
    (hsw : Switching s c p) : (s.cpu c).noff = 1 := by
  have hnoff := h.lock.noff c hrun
  have hspin : spinning (s.stack (s.thread c)) = none := by
    cases hsw with
    | enter hst => rw [hst]; rfl
    | leave hst hp => rw [hst]; rfl
  rw [h.switching_heldBy hsw, hspin] at hnoff
  exact hnoff

/-! ## Panics -/

/-- The panics that runs can reach. -/
def Reported (m : Panic) : Prop := m = .acquire ∨ m = .initExiting

/-- Where `sched` makes its tests they all pass, and a zombie is never switched to again. -/
theorem Inv.codePanic (h : Inv s) (hrun : (s.cpu c).panicked = none) {f : Frame} {rest : Stack}
    {m : Panic} (hst : s.stack (s.thread c) = f :: rest) (hm : CodePanic s c f m) :
    Reported m := by
  -- the facts about a process that has called `sched`
  have hsched : f = .sched .sched → ∃ p, s.cur c = some p ∧ s.myproc c = some p ∧
      heldBy s c = [.proc p] ∧ (s.cpu c).noff = 1 ∧ Off (s.proc p).state := by
    intro hf
    subst hf
    have hok := (h.wf_stack hst).1
    rcases Option.isSome_iff_exists.1 hok.1 with ⟨p, hcur⟩
    have hmine := h.proc.myproc_of_cur hcur
    have hheld : heldBy s c = [.proc p] := by
      rw [heldBy, hst, hcur]
      simpa [hcur] using hok.2
    have hnoff : (s.cpu c).noff = 1 := by
      have hcount := h.lock.noff c hrun
      rw [hheld, hst] at hcount
      simpa using hcount
    refine ⟨p, hcur, hmine, hheld, hnoff, h.proc.off c p hmine ?_⟩
    rw [State.thread_of_cur_some hcur] at hst
    simp [onCpu, hcur, hst]
  cases hm with
  | @schedLock q hq hold =>
    rcases hsched rfl with ⟨p, -, hmine, hheld, -, -⟩
    have hqp : q = p := by simpa [hmine] using hq.symm
    subst hqp
    refine absurd ((h.lock.holder _ c).2 ?_) hold
    simp [hheld]
  | schedLocks hne =>
    rcases hsched rfl with ⟨p, -, -, -, hnoff, -⟩
    exact absurd hnoff hne
  | @schedRunning q hq hstate =>
    rcases hsched rfl with ⟨p, -, hmine, -, -, hoff⟩
    have hqp : q = p := by simpa [hmine] using hq.symm
    subst hqp
    simp [Off, hstate] at hoff
  | schedInterruptible hnoff hintr =>
    have hoff := h.lock.intr c hrun (by omega)
    simp [hintr] at hoff
  | initExiting => exact .inr rfl
  | zombieExit =>
    rcases Option.isSome_iff_exists.1 (h.wf_stack hst).1.1 with ⟨p, hcur⟩
    rw [State.thread_of_cur_some hcur] at hst
    have hstate := h.proc.running_cur hcur (by rw [hst]; rfl)
    have hdead := h.proc.zombie p (by simp [hst])
    simp [Dead, hstate] at hdead

/-- One step stops a hart only with a reported panic. -/
theorem move_panicked (h : Inv s) (hrun : (s.cpu c).panicked = none) (hm : Move s c t)
    (hold : ∀ d m, (s.cpu d).panicked = some m → Reported m) :
    ∀ d m, (t.cpu d).panicked = some m → Reported m := by
  -- a step changes the message of its own hart only
  have hown : ∀ u : Cpu, (∀ m, u.panicked = some m → Reported m) → t.cpu = Function.update s.cpu c u →
      ∀ d m, (t.cpu d).panicked = some m → Reported m := by
    intro u hu hcpu d m hd
    by_cases hdc : d = c
    · subst hdc
      rw [hcpu] at hd
      exact hu m (by simpa using hd)
    · rw [hcpu] at hd
      exact hold d m (by simpa [hdc] using hd)
  cases hm with
  | acquire hst hfree => exact hown (s.cpu c).pushOff (by simp [Cpu.pushOff, hrun]) rfl
  | acquireTwice hst hheld =>
    refine hown { (s.cpu c).pushOff with panicked := some .acquire } ?_ (by simp [State.panic, State.setCpu])
    intro m hm
    exact .inl (by simpa using hm.symm)
  | spin hst hfree => exact hold
  | @release l rest u hst hheld hpop =>
    have hsame := (Cpu.popOff_ok hpop).2.2.1
    exact hown u (by simp [hsame, hrun]) rfl
  | releaseUnheld hst hheld => exact absurd (release_ok h hrun hst).1 hheld
  | releasePanic hst hheld hpop => exact absurd hpop ((release_ok h hrun hst).2 _)
  | swtch hst => exact hold
  | swtchBack hst => exact hold
  | seg hst hseg =>
    intro d m hd
    exact hold d m (by simpa using hd)
  | @panic f rest ch m hst hcode =>
    have hm := h.codePanic hrun hst (code_panic hcode)
    refine hown { s.cpu c with panicked := some m } ?_ rfl
    intro m' hm'
    have heq : m = m' := by simpa using hm'
    exact heq ▸ hm
  | interrupt hintr huser => exact hown { s.cpu c with intr := false } (by simp [hrun]) rfl

theorem reachable_panicked {mode : Fin n → SchedMode} (h : Reachable mode s) :
    ∀ d m, (s.cpu d).panicked = some m → Reported m := by
  have hboth : Inv s ∧ ∀ d m, (s.cpu d).panicked = some m → Reported m := by
    refine h.invariant (I := fun s => Inv s ∧ ∀ d m, (s.cpu d).panicked = some m → Reported m)
      ⟨boot_inv mode, by simp [boot]⟩ ?_
    intro s a t hs hstep
    rcases step_move hstep with ⟨hrun, hm⟩
    exact ⟨move_inv hs.1 hrun hm, move_panicked hs.1 hrun hm hs.2⟩
  exact hboth.2

/-! ## The switch protocol -/

/-- In every reachable state: a process whose lock is free is `RUNNING` iff exactly one hart has it
in `c->proc`; every `swtch` happens with `noff = 1` and exactly `p->lock` held by the hart; and no
hart has stopped in one of the panics of `sched`, or with `zombie exit`. -/
theorem switch_protocol {mode : Fin n → SchedMode} (h : Reachable mode s) :
    (∀ p, s.locked (.proc p) = none →
      ((s.proc p).state = .running ↔ ∃! c, (s.cpu c).proc = some p)) ∧
    (∀ c p, (s.cpu c).panicked = none → Switching s c p →
      (s.cpu c).noff = 1 ∧ ∀ l, s.locked l = some c ↔ l = .proc p) ∧
    (∀ c m, (s.cpu c).panicked = some m → m = .acquire ∨ m = .initExiting) := by
  have hinv := reachable_inv h
  refine ⟨fun p hfree => hinv.running_iff hfree, ?_, reachable_panicked h⟩
  intro c p hrun hsw
  refine ⟨hinv.switching_noff hrun hsw, ?_⟩
  intro l
  rw [hinv.lock.holder, hinv.switching_heldBy hsw, List.mem_singleton]

/-- The lottery scheduler dispatches `init`, which releases its lock in `forkret`. -/
def firstDispatch : Option (State 1) :=
  (machine 1).exec (boot fun _ => .loteria)
    [(0, .draw .class0), (0, .go), (0, .go), (0, .go), (0, .go), (0, .go), (0, .go), (0, .go)]

theorem switch_protocol_firstDispatch : ∃ s : State 1, Reachable (fun _ => .loteria) s ∧
    s.locked (.proc initSlot) = none ∧ (s.proc initSlot).state = .running ∧
    ∃! c, (s.cpu c).proc = some initSlot := by
  have hsome : firstDispatch.isSome = true := by decide
  rcases Option.isSome_iff_exists.1 hsome with ⟨s, hs⟩
  have hreach : Reachable (fun _ => .loteria) s := Machine.reaches_of_exec hs
  have hstate : (firstDispatch.map fun s =>
      decide (s.locked (.proc initSlot) = none ∧ (s.proc initSlot).state = .running)) =
      some true := by decide
  rw [hs] at hstate
  have hfacts : s.locked (.proc initSlot) = none ∧ (s.proc initSlot).state = .running := by
    simpa using hstate
  exact ⟨s, hreach, hfacts.1, hfacts.2, ((switch_protocol hreach).1 initSlot hfacts.1).1 hfacts.2⟩

/-- A hart in user space holds no lock and has no `push_off` open.  It executes a `RUNNING` process,
which is the process of no other hart. -/
theorem user_holds_nothing {mode : Fin n → SchedMode} (h : Reachable mode s) {c : Fin n}
    {rest : Stack} (hrun : (s.cpu c).panicked = none)
    (hst : s.stack (s.thread c) = .trap .user :: rest) :
    (s.cpu c).noff = 0 ∧ (∀ l, s.locked l ≠ some c) ∧
      ∃ p, s.cur c = some p ∧ (s.proc p).state = .running ∧ ∀ d, s.myproc d = some p → d = c := by
  have hinv := reachable_inv h
  rcases (hinv.wf_stack hst).1 with ⟨hsome, rfl⟩
  rcases Option.isSome_iff_exists.1 hsome with ⟨p, hcur⟩
  have hheld : heldBy s c = [] := by
    rw [heldBy, hst]
    rfl
  refine ⟨?_, fun l hl => ?_, p, hcur, ?_, fun d hd => ?_⟩
  · rw [hinv.lock.noff c hrun, hheld, hst]
    rfl
  · rw [hinv.lock.holder, hheld] at hl
    cases hl
  · refine hinv.proc.running_cur hcur ?_
    rw [← State.thread_of_cur_some hcur, hst]
    rfl
  · exact hinv.proc.owner d c p hd (hinv.proc.myproc_of_cur hcur)

theorem user_holds_nothing_init : ∃ s : State 1, Reachable (fun _ => .loteria) s ∧
    s.stack (s.thread 0) = [.trap .user] ∧ ∀ l, s.locked l ≠ some 0 := by
  have hrun : ((Solo.boot .loteria).run (fun _ => true) Solo.drawInit).any (fun v =>
      v.top = [.trap .user] ∧ v.cpu.panicked = none) = true := by
    decide +kernel
  rcases Solo.reaches_of_any hrun with ⟨v, hreach, htop, hpan⟩
  have hst := (Solo.state_top v).trans htop
  exact ⟨v.state, hreach, hst, (user_holds_nothing hreach hpan hst).2.1⟩

end Xv6Schedulers.Locking
