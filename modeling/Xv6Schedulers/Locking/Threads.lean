import Xv6Schedulers.Kernel.State
import Xv6Schedulers.Lib.Machine

/-!
# Threads — the interrupt state belongs to the kernel thread

`noff` and `intena` are per-processor variables, but what they remember belongs to the thread that
runs there.  This module looks at kernel threads only through `acquire`, `release`, `sched` and the
scheduler's `swtch`, and leaves everything else open: a thread may take and release any locks in any
order, call `sched` whenever it likes, and be resumed by the scheduler of any hart.

* `Threads` is the state: the processors, the thread each of them runs, the locks, and the local
  variable `intena` of every thread that is inside `sched`;
* `Threads.step` runs one call; `Op` lists them;
* `Sound` is the invariant of the processors, `Keeps p b` that of a thread between its first and
  its last lock.
-/

namespace Xv6Schedulers.Locking

open Kernel Lib Function

/-- The kernel threads as `spinlock.c` and `sched` see them. -/
structure Threads (n : Nat) where
  cpu : Fin n → Cpu
  /-- the process whose thread the hart runs, `none` for its scheduler -/
  cur : Fin n → Option Slot
  /-- the lock the hart is about to take in the loop of `acquire` -/
  spin : Fin n → Option Lock
  /-- `lk->locked` and `lk->cpu` -/
  locked : Lock → Option (Fin n)
  /-- the local `intena` of a thread that is inside `sched` -/
  saved : Slot → Option Bool

/-- What a thread may call. -/
inductive Op
  /-- `acquire(lk)` up to its loop -/
  | acquire (l : Lock)
  /-- the test-and-set in the loop of `acquire` succeeds -/
  | take
  | release (l : Lock)
  /-- `push_off` and `pop_off` around a read of `mycpu()->proc` -/
  | myproc
  /-- `intr_on`, `intr_off`, and the hardware on entry to and return from a trap -/
  | intr (b : Bool)
  /-- `c->proc = p` -/
  | cpuProc (p : Option Slot)
  /-- `sched` up to its `swtch`; the argument is the test `p->state == RUNNING` -/
  | sched (running : Bool)
  /-- `sched` from its `swtch` on -/
  | schedRet
  /-- the scheduler's `swtch(&c->context, &p->context)` -/
  | swtch (p : Slot)
  /-- `allocproc` makes `p->context` start at `forkret` -/
  | context (p : Slot)
  /-- any other `panic` -/
  | panic (m : Panic)
  deriving DecidableEq, Repr

namespace Threads

variable {n : Nat}

@[simps]
def setCpu (g : Threads n) (c : Fin n) (u : Cpu) : Threads n := { g with cpu := update g.cpu c u }

def Holding (g : Threads n) (c : Fin n) (l : Lock) : Prop := g.locked l = some c

instance (g : Threads n) (c : Fin n) (l : Lock) : Decidable (g.Holding c l) :=
  inferInstanceAs (Decidable (g.locked l = some c))

/-- `panic`: the hart stops. -/
def halt (g : Threads n) (c : Fin n) (m : Panic) : Threads n :=
  g.setCpu c { g.cpu c with panicked := some m }

/-- The hart has switched to a thread that is still to restore `intena`. -/
def resuming (g : Threads n) (c : Fin n) : Option Bool := (g.cur c).bind g.saved

def acquire (g : Threads n) (c : Fin n) (l : Lock) : Threads n :=
  let g := g.setCpu c (g.cpu c).pushOff
  if g.Holding c l then
    g.halt c .acquire
  else
    { g with spin := update g.spin c (some l) }

def release (g : Threads n) (c : Fin n) (l : Lock) : Threads n :=
  if g.Holding c l then
    let g := { g with locked := update g.locked l none }
    match (g.cpu c).popOff with
    | .error m => g.halt c m
    | .ok u => g.setCpu c u
  else
    g.halt c .release

/-- `push_off(); ...; pop_off();`. -/
def myproc (g : Threads n) (c : Fin n) : Threads n :=
  let g := g.setCpu c (g.cpu c).pushOff
  match (g.cpu c).popOff with
  | .error m => g.halt c m
  | .ok u => g.setCpu c u

/-- `sched` of process `p` up to its `swtch`. -/
def sched (g : Threads n) (c : Fin n) (p : Slot) (running : Bool) : Threads n :=
  if ¬ g.Holding c (.proc p) then
    g.halt c .schedLock
  else if (g.cpu c).noff ≠ 1 then
    g.halt c .schedLocks
  else if running then
    g.halt c .schedRunning
  else if (g.cpu c).intr then
    g.halt c .schedInterruptible
  else
    { g with
      cur := update g.cur c none
      saved := update g.saved p (some (g.cpu c).intena) }

/-- A call by a thread that is neither in the loop of `acquire` nor inside `sched`. -/
def exec (g : Threads n) (c : Fin n) : Op → Option (Threads n)
  | .acquire l => some (g.acquire c l)
  | .release l => some (g.release c l)
  | .myproc => some (g.myproc c)
  | .intr b =>
      -- the kernel switches interrupts by hand only while no lock is held
      if (g.cpu c).noff = 0 then
        some (g.setCpu c { g.cpu c with intr := b })
      else
        none
  | .cpuProc p => some (g.setCpu c { g.cpu c with proc := p })
  | .sched running =>
      match g.cur c with
      | some p => some (g.sched c p running)
      | none => none
  | .swtch p =>
      -- the scheduler holds `p->lock` and nothing else, and `p` is `RUNNABLE`
      if g.cur c = none ∧ (g.cpu c).noff = 1 ∧ g.Holding c (.proc p) ∧ ∀ d, g.cur d ≠ some p then
        some { g with cur := update g.cur c (some p) }
      else
        none
  | .context p =>
      if ∀ d, g.cur d ≠ some p then
        some { g with saved := update g.saved p none }
      else
        none
  | .panic m =>
      if m ≠ .popOff ∧ m ≠ .popOffInterruptible then
        some (g.halt c m)
      else
        none
  | _ => none

def step (g : Threads n) (c : Fin n) (op : Op) : Option (Threads n) :=
  if (g.cpu c).panicked ≠ none then
    none
  else
    match g.spin c, g.resuming c, op with
    | some l, _, .take =>
        if g.locked l = none then
          some { g with
            locked := update g.locked l (some c)
            spin := update g.spin c none }
        else
          none
    | none, some b, .schedRet =>
        some { g.setCpu c { g.cpu c with intena := b } with
          saved := fun p => if g.cur c = some p then none else g.saved p }
    | none, none, op => g.exec c op
    | _, _, _ => none

/-- Every hart runs its scheduler, with interrupts off. -/
def boot (n : Nat) : Threads n where
  cpu := fun _ => { proc := none, noff := 0, intena := false, intr := false, panicked := none }
  cur := fun _ => none
  spin := fun _ => none
  locked := fun _ => none
  saved := fun _ => none

/-- The machine with `n` harts; a label names the hart and the call. -/
def machine (n : Nat) : Machine (Threads n) (Fin n × Op) where
  step g a := g.step a.1 a.2

def Reachable (g : Threads n) : Prop := (machine n).Reaches (boot n) g

/-! ## What a call can do -/

/-- The outcomes of the calls. -/
inductive Call (g : Threads n) (c : Fin n) : Op → Threads n → Prop
  | acquire {l : Lock} (hfree : ¬ g.Holding c l) : Call g c (.acquire l)
        { g.setCpu c (g.cpu c).pushOff with spin := update g.spin c (some l) }
  | acquireTwice {l : Lock} (hold : g.Holding c l) :
      Call g c (.acquire l) (g.setCpu c { (g.cpu c).pushOff with panicked := some .acquire })
  | take {l : Lock} (hspin : g.spin c = some l) (hfree : g.locked l = none) : Call g c .take
        { g with
          locked := update g.locked l (some c)
          spin := update g.spin c none }
  | release {l : Lock} {u : Cpu} (hold : g.Holding c l) (hpop : (g.cpu c).popOff = .ok u) :
      Call g c (.release l)
        { g.setCpu c u with locked := update g.locked l none }
  | releasePanic {l : Lock} {m : Panic} (hold : g.Holding c l)
      (hpop : (g.cpu c).popOff = .error m) :
      Call g c (.release l)
        { g.halt c m with locked := update g.locked l none }
  | myproc {u : Cpu} (hpop : (g.cpu c).pushOff.popOff = .ok u) : Call g c .myproc (g.setCpu c u)
  | myprocPanic {m : Panic} (hpop : (g.cpu c).pushOff.popOff = .error m) :
      Call g c .myproc (g.setCpu c { (g.cpu c).pushOff with panicked := some m })
  | intr {b : Bool} (hnoff : (g.cpu c).noff = 0) :
      Call g c (.intr b) (g.setCpu c { g.cpu c with intr := b })
  | cpuProc {p : Option Slot} : Call g c (.cpuProc p) (g.setCpu c { g.cpu c with proc := p })
  | sched {p : Slot} (hcur : g.cur c = some p) (hold : g.Holding c (.proc p))
      (hnoff : (g.cpu c).noff = 1) (hintr : (g.cpu c).intr = false) :
      Call g c (.sched false)
        { g with
          cur := update g.cur c none
          saved := update g.saved p (some (g.cpu c).intena) }
  | schedRet {p : Slot} {b : Bool} (hcur : g.cur c = some p) (hsaved : g.saved p = some b) :
      Call g c .schedRet
        { g.setCpu c { g.cpu c with intena := b } with
          saved := update g.saved p none }
  | swtch {p : Slot} (hcur : g.cur c = none) (hnoff : (g.cpu c).noff = 1)
      (hold : g.Holding c (.proc p)) (hidle : ∀ d, g.cur d ≠ some p) :
      Call g c (.swtch p) { g with cur := update g.cur c (some p) }
  | context {p : Slot} (hidle : ∀ d, g.cur d ≠ some p) :
      Call g c (.context p) { g with saved := update g.saved p none }
  | halt {op : Op} {m : Panic} (hop : ∀ l, op ≠ .acquire l)
      (hm : m ≠ .popOff ∧ m ≠ .popOffInterruptible) : Call g c op (g.halt c m)

section Inversion

variable {g g' : Threads n} {c : Fin n} {op : Op}

theorem release_call {l : Lock} : Call g c (.release l) (g.release c l) := by
  unfold Threads.release
  split
  · rename_i hold
    simp only
    split
    · exact .releasePanic hold (by assumption)
    · exact .release hold (by assumption)
  · exact .halt (by simp) (by simp)

theorem myproc_call : Call g c .myproc (g.myproc c) := by
  unfold Threads.myproc
  simp only [setCpu_cpu, update_self]
  split
  · rename_i m hpop
    have h := Call.myprocPanic hpop
    simpa [Threads.halt, setCpu] using h
  · rename_i u hpop
    have h := Call.myproc hpop
    simpa [setCpu] using h

theorem acquire_call {l : Lock} : Call g c (.acquire l) (g.acquire c l) := by
  unfold Threads.acquire
  simp only
  split
  · rename_i hold
    have h := Call.acquireTwice (g := g) (c := c) (l := l) hold
    simpa [Threads.halt, setCpu] using h
  · rename_i hfree
    exact .acquire hfree

theorem sched_call {p : Slot} {running : Bool} (hcur : g.cur c = some p) :
    Call g c (.sched running) (g.sched c p running) := by
  unfold Threads.sched
  split
  · exact .halt (by simp) (by simp)
  split
  · exact .halt (by simp) (by simp)
  split
  · exact .halt (by simp) (by simp)
  split
  · exact .halt (by simp) (by simp)
  rename_i hold hnoff hrunning hintr
  have hfalse : running = false := by simpa using hrunning
  subst hfalse
  exact .sched hcur (by simpa using hold) (by simpa using hnoff) (by simpa using hintr)

theorem exec_call (h : g.exec c op = some g') : Call g c op g' := by
  cases op with
  | acquire l =>
    cases h
    exact acquire_call
  | release l =>
    cases h
    exact release_call
  | myproc =>
    cases h
    exact myproc_call
  | cpuProc p =>
    cases h
    exact .cpuProc
  | sched running =>
    simp only [exec] at h
    split at h
    · cases h
      exact sched_call (by assumption)
    · cases h
  | intr b =>
    simp only [exec] at h
    split at h <;> cases h
    exact .intr (by assumption)
  | swtch p =>
    simp only [exec] at h
    split at h <;> cases h
    rename_i hcond
    exact .swtch hcond.1 hcond.2.1 hcond.2.2.1 hcond.2.2.2
  | context p =>
    simp only [exec] at h
    split at h <;> cases h
    exact .context (by assumption)
  | panic m =>
    simp only [exec] at h
    split at h <;> cases h
    exact .halt (by simp) (by assumption)
  | take => cases h
  | schedRet => cases h

theorem step_call (h : g.step c op = some g') : (g.cpu c).panicked = none ∧ Call g c op g' ∧
      (op ≠ .take → g.spin c = none) ∧ (op ≠ .schedRet → g.spin c = none → g.resuming c = none) := by
  unfold step at h
  split at h
  · cases h
  · rename_i hrun
    refine ⟨by simpa using hrun, ?_⟩
    split at h
    · rename_i l _ hspin
      split at h <;> cases h
      exact ⟨.take hspin (by assumption), by simp, by simp [hspin]⟩
    · rename_i b hspin hres
      cases h
      rcases Option.bind_eq_some_iff.1 hres with ⟨p, hcur, hsaved⟩
      have heq : (fun q => if g.cur c = some q then none else g.saved q) =
          update g.saved p none := by
        funext q
        by_cases hq : q = p
        · simp [hq, hcur]
        · simp [hq, hcur, Ne.symm hq]
      rw [heq]
      exact ⟨.schedRet hcur hsaved, fun _ => hspin, by simp⟩
    · rename_i hspin hres
      exact ⟨exec_call h, fun _ => hspin, fun _ _ => hres⟩
    · cases h

end Inversion

/-! ## Processors -/

/-- The locks in the list are those of the hart. -/
def Lists (g : Threads n) (c : Fin n) (ls : List Lock) : Prop :=
  ls.Nodup ∧ ∀ l, l ∈ ls ↔ g.locked l = some c

/-- `noff` counts locks, interrupts are off while it is positive, and `pop_off` does not panic. -/
structure Sound (g : Threads n) : Prop where
  noff : ∀ c, (g.cpu c).panicked = none →
    ∃ ls, g.Lists c ls ∧ (g.cpu c).noff = ls.length + (g.spin c).toList.length
  intr : ∀ c, (g.cpu c).noff ≠ 0 → (g.cpu c).intr = false
  panics : ∀ c, (g.cpu c).panicked ≠ some .popOff ∧ (g.cpu c).panicked ≠ some .popOffInterruptible
  own : ∀ c d p, g.cur c = some p → g.cur d = some p → c = d

attribute [local simp] Cpu.pushOff

section Sound

variable {g g' : Threads n} {c d : Fin n} {op : Op} {l : Lock} {u : Cpu}

theorem Sound.popOff_ok (h : Sound g) (hrun : (g.cpu c).panicked = none) (hold : g.Holding c l) :
    ∃ u, (g.cpu c).popOff = .ok u := by
  rcases h.noff c hrun with ⟨ls, hls, hcount⟩
  have hmem := (hls.2 l).2 hold
  have hpos := List.length_pos_of_mem hmem
  cases hpop : (g.cpu c).popOff with
  | ok u => exact ⟨u, rfl⟩
  | error m =>
    rcases Cpu.popOff_error hpop with hintr | hzero
    · rw [h.intr c (by omega)] at hintr
      cases hintr
    · omega

theorem Lists.take {ls : List Lock} (h : g.Lists c ls) (hfree : g.locked l = none) :
    Lists { g with locked := update g.locked l (some d) } c
      (if c = d then l :: ls else ls) := by
  have hl : l ∉ ls := fun hmem => by simp [(h.2 l).1 hmem] at hfree
  split
  · rename_i hcd
    refine ⟨List.nodup_cons.2 ⟨hl, h.1⟩, fun k => ?_⟩
    by_cases hk : k = l
    · simp [hk, hcd]
    · simp [hk, h.2 k]
  · rename_i hcd
    refine ⟨h.1, fun k => ?_⟩
    by_cases hk : k = l
    · simp [hk, hl, Ne.symm hcd]
    · simp [hk, h.2 k]

theorem Lists.drop {ls : List Lock} (h : g.Lists c ls) (hold : g.Holding d l) :
    Lists { g with locked := update g.locked l none } c
      (if c = d then ls.erase l else ls) := by
  split
  · refine ⟨h.1.erase l, fun k => ?_⟩
    by_cases hk : k = l
    · simp [hk, h.1.not_mem_erase]
    · simp [hk, List.mem_erase_of_ne hk, h.2 k]
  · rename_i hcd
    refine ⟨h.1, fun k => ?_⟩
    by_cases hk : k = l
    · subst hk
      have hne : k ∉ ls := by
        intro hmem
        have hsome : some c = some d := ((h.2 k).1 hmem).symm.trans hold
        exact hcd (Option.some.inj hsome)
      simp [hne]
    · simp [hk, h.2 k]

theorem Sound.setCpu (h : Sound g)
    (hnoff : u.panicked = none → (g.cpu c).panicked = none ∧ u.noff = (g.cpu c).noff)
    (hintr : u.noff ≠ 0 → u.intr = false)
    (hpanic : u.panicked ≠ some .popOff ∧ u.panicked ≠ some .popOffInterruptible) :
    Sound (g.setCpu c u) := by
  refine ⟨fun d hd => ?_, fun d => ?_, fun d => ?_, h.own⟩
  · by_cases hdc : d = c
    · subst hdc
      simp only [setCpu_cpu, update_self] at hd ⊢
      rcases hnoff hd with ⟨hrun, heq⟩
      rw [heq]
      exact h.noff d hrun
    · simp only [setCpu_cpu, update_of_ne hdc] at hd ⊢
      exact h.noff d hd
  · by_cases hdc : d = c
    · subst hdc
      simpa using hintr
    · simpa [hdc] using h.intr d
  · by_cases hdc : d = c
    · subst hdc
      simpa using hpanic
    · simpa [hdc] using h.panics d

theorem sound_call (h : Sound g) (hrun : (g.cpu c).panicked = none)
    (hfree : op ≠ .take → g.spin c = none) (hcall : Call g c op g') : Sound g' := by
  have hpop : (g.cpu c).pushOff.popOff =
      .ok { g.cpu c with intena := if (g.cpu c).noff = 0 then (g.cpu c).intr else (g.cpu c).intena } :=
    Cpu.popOff_pushOff (h.intr c)
  cases hcall with
  | @acquire l hnot =>
    have hspin := hfree (by simp)
    refine ⟨fun d hd => ?_, fun d => ?_, fun d => ?_, h.own⟩
    · by_cases hdc : d = c
      · subst hdc
        rcases h.noff d hrun with ⟨ls, hls, hcount⟩
        refine ⟨ls, hls, ?_⟩
        simp [hcount, hspin]
      · simp only [setCpu_cpu, update_of_ne hdc] at hd ⊢
        exact h.noff d hd
    · by_cases hdc : d = c
      · subst hdc
        simp
      · simpa [hdc] using h.intr d
    · by_cases hdc : d = c
      · subst hdc
        simp [hrun]
      · simpa [hdc] using h.panics d
  | acquireTwice hold =>
    exact h.setCpu (by simp) (by simp) (by simp)
  | @take l hspin hlock =>
    refine ⟨fun d hd => ?_, h.intr, h.panics, h.own⟩
    rcases h.noff d hd with ⟨ls, hls, hcount⟩
    refine ⟨_, hls.take hlock, ?_⟩
    by_cases hdc : d = c
    · subst hdc
      simp [hcount, hspin]
    · simp [hcount, hdc]
  | @release l u hold hok =>
    have hspin := hfree (by simp)
    rcases Cpu.popOff_ok hok with ⟨hnoff, -, hpan, hintr⟩
    refine ⟨fun d hd => ?_, fun d => ?_, fun d => ?_, h.own⟩
    · by_cases hdc : d = c
      · subst hdc
        rcases h.noff d hrun with ⟨ls, hls, hcount⟩
        refine ⟨_, hls.drop hold, ?_⟩
        have hmem := (hls.2 l).2 hold
        have hlen := List.length_erase_of_mem hmem
        have hpos := List.length_pos_of_mem hmem
        simp only [setCpu_cpu, setCpu_spin, update_self, hspin, if_true, hlen] at hcount ⊢
        simp at hcount ⊢
        omega
      · simp only [setCpu_cpu, update_of_ne hdc] at hd
        rcases h.noff d hd with ⟨ls, hls, hcount⟩
        refine ⟨_, hls.drop hold, ?_⟩
        simp [hcount, hdc]
    · by_cases hdc : d = c
      · subst hdc
        simpa using hintr
      · simpa [hdc] using h.intr d
    · by_cases hdc : d = c
      · subst hdc
        simp [hpan, hrun]
      · simpa [hdc] using h.panics d
  | releasePanic hold herr =>
    rcases h.popOff_ok hrun hold with ⟨u, hok⟩
    rw [hok] at herr
    cases herr
  | myproc hok =>
    rw [hpop] at hok
    cases hok
    exact h.setCpu (fun _ => ⟨hrun, rfl⟩) (h.intr c) (by simp [hrun])
  | myprocPanic herr =>
    rw [hpop] at herr
    cases herr
  | intr hnoff =>
    exact h.setCpu (fun _ => ⟨hrun, rfl⟩) (by simp [hnoff]) (by simp [hrun])
  | cpuProc => exact h.setCpu (fun _ => ⟨hrun, rfl⟩) (h.intr c) (by simp [hrun])
  | @sched p hcur hold hnoff hintr =>
    refine ⟨h.noff, h.intr, h.panics, fun d e q hd he => ?_⟩
    by_cases hdc : d = c
    · simp [hdc] at hd
    · by_cases hec : e = c
      · simp [hec] at he
      · exact h.own d e q (by simpa [hdc] using hd) (by simpa [hec] using he)
  | @schedRet p b hcur hsaved =>
    have hset : Sound (g.setCpu c { g.cpu c with intena := b }) :=
      h.setCpu (fun _ => ⟨hrun, rfl⟩) (h.intr c) (by simp [hrun])
    exact { hset with }
  | @swtch p hcur hnoff hold hidle =>
    refine ⟨h.noff, h.intr, h.panics, fun d e q hd he => ?_⟩
    -- nobody else runs the process
    by_cases hdc : d = c
    · by_cases hec : e = c
      · rw [hdc, hec]
      · have hq : p = q := by simpa [hdc] using hd
        exact absurd (by simpa [hec, hq] using he) (hidle e)
    · by_cases hec : e = c
      · have hq : p = q := by simpa [hec] using he
        exact absurd (by simpa [hdc, hq] using hd) (hidle d)
      · exact h.own d e q (by simpa [hdc] using hd) (by simpa [hec] using he)
  | context hidle => exact { h with }
  | halt _ hm => exact h.setCpu (by simp) (h.intr c) (by simpa using hm)

theorem sound_boot : Sound (boot n) := by
  refine ⟨fun c _ => ⟨[], ⟨List.nodup_nil, by simp [boot]⟩, rfl⟩, fun c hc => absurd rfl hc,
    fun c => by simp [boot], fun c d p hc => by simp [boot] at hc⟩

theorem reachable_sound (h : Reachable g) : Sound g := by
  refine h.invariant sound_boot ?_
  intro g a g' hs hstep
  rcases step_call hstep with ⟨hrun, hcall, hfree, -⟩
  exact sound_call hs hrun hfree hcall

end Sound

/-! ## Threads -/

/-- The thread of process `p` holds a lock, and took its first one when interrupts were `b`: it
runs on a hart that remembers `b`, or it is inside `sched` and remembers `b` itself. -/
def Keeps (p : Slot) (b : Bool) (g : Threads n) : Prop :=
  (∃ c, g.cur c = some p ∧ (g.cpu c).noff ≠ 0 ∧
    (g.saved p = some b ∨ (g.saved p = none ∧ (g.cpu c).intena = b))) ∨
  ((∀ c, g.cur c ≠ some p) ∧ g.saved p = some b)

/-- The step is not the end of the thread, and does not release the last lock of process `p`. -/
def Locked (p : Slot) : Machine.Guard (Threads n) (Fin n × Op) :=
  fun g a g' => a.2 ≠ .context p ∧ (g.cur a.1 = some p → (g'.cpu a.1).noff ≠ 0)

section Law

variable {g g' : Threads n} {c d : Fin n} {op : Op} {l : Lock} {p : Slot} {b : Bool}

theorem Keeps.frame (h : Keeps p b g) (hcur : ∀ d, g'.cur d = some p ↔ g.cur d = some p)
    (hsaved : g'.saved p = g.saved p)
    (hcpu : ∀ d, g.cur d = some p → g'.cpu d = g.cpu d) : Keeps p b g' := by
  rcases h with ⟨d, hd, hnoff, hwhere⟩ | ⟨hidle, hwhere⟩
  · refine .inl ⟨d, (hcur d).2 hd, ?_, ?_⟩
    · rw [hcpu d hd]
      exact hnoff
    · rw [hcpu d hd, hsaved]
      exact hwhere
  · refine .inr ⟨fun d hd => hidle d ((hcur d).1 hd), ?_⟩
    rw [hsaved]
    exact hwhere

theorem Keeps.setCpu {u : Cpu} (h : Keeps p b g) (hown : Sound g) (hc : g.cur c = some p)
    (hnoff : u.noff ≠ 0) (hintena : u.intena = (g.cpu c).intena) :
    Keeps p b (g.setCpu c u) := by
  rcases h with ⟨d, hd, -, hwhere⟩ | ⟨hidle, -⟩
  · have hdc := hown.own d c p hd hc
    subst hdc
    exact .inl ⟨d, hd, by simpa using hnoff, by simpa [hintena] using hwhere⟩
  · exact absurd hc (hidle c)

theorem keeps_self (h : Keeps p b g) (hs : Sound g) (hcur : g.cur c = some p)
    (hres : op ≠ .schedRet → op ≠ .take → g.saved p = none) (hcall : Call g c op g')
    (hlock : (g'.cpu c).noff ≠ 0) : Keeps p b g' := by
  have hnoff : (g.cpu c).noff ≠ 0 := by
    rcases h with ⟨d, hd, hnoff, -⟩ | ⟨hidle, -⟩
    · rwa [hs.own c d p hcur hd]
    · exact absurd hcur (hidle c)
  cases hcall with
  | acquire hfree =>
    exact h.setCpu hs hcur (by simp) (by simp [hnoff])
  | acquireTwice hold =>
    exact h.setCpu hs hcur (by simp) (by simp [hnoff])
  | take hspin hfree => exact h.frame (fun _ => Iff.rfl) rfl (fun _ _ => rfl)
  | @release l u hold hok =>
    exact h.setCpu hs hcur (by simpa using hlock) (Cpu.popOff_intena hok)
  | releasePanic hold herr => exact h.setCpu hs hcur hnoff rfl
  | myproc hok =>
    rw [Cpu.popOff_pushOff (hs.intr c)] at hok
    cases hok
    exact h.setCpu hs hcur hnoff (by simp [hnoff])
  | myprocPanic herr =>
    exact h.setCpu hs hcur (by simp) (by simp [hnoff])
  | intr hzero => exact absurd hzero hnoff
  | cpuProc => exact h.setCpu hs hcur hnoff rfl
  | @sched q hq hold hone hintr =>
    -- the local variable takes over from the processor
    have hpq : q = p := by
      rw [hcur] at hq
      exact (Option.some.inj hq).symm
    subst hpq
    have hnone := hres (by simp) (by simp)
    rcases h with ⟨d, hd, -, hwhere⟩ | ⟨hidle, -⟩
    · have hdc := hs.own d c q hd hcur
      subst hdc
      refine .inr ⟨fun e he => ?_, ?_⟩
      · by_cases hed : e = d
        · simp [hed] at he
        · exact hed (hs.own e d q (by simpa [hed] using he) hcur)
      · rcases hwhere with hsome | ⟨-, hintena⟩
        · rw [hnone] at hsome
          cases hsome
        · simp [hintena]
    · exact absurd hcur (hidle c)
  | @schedRet q b' hq hsaved =>
    -- the processor takes over from the local variable
    have hpq : q = p := by
      rw [hcur] at hq
      exact (Option.some.inj hq).symm
    subst hpq
    refine .inl ⟨c, hcur, by simpa using hnoff, .inr ⟨by simp, ?_⟩⟩
    rcases h with ⟨d, -, -, hwhere⟩ | ⟨hidle, -⟩
    · rcases hwhere with hsome | ⟨hnone, -⟩
      · rw [hsaved] at hsome
        simpa using hsome
      · rw [hsaved] at hnone
        cases hnone
    · exact absurd hcur (hidle c)
  | swtch hnone _ _ _ =>
    rw [hcur] at hnone
    cases hnone
  | @context q hidle =>
    have hpq : p ≠ q := by
      rintro rfl
      exact hidle c hcur
    exact h.frame (fun _ => Iff.rfl) (by simp [hpq]) (fun _ _ => rfl)
  | halt _ hm => exact h.setCpu hs hcur hnoff rfl

theorem keeps_other (h : Keeps p b g) (hcur : g.cur c ≠ some p) (hcall : Call g c op g')
    (hop : op ≠ .context p) : Keeps p b g' := by
  have hcpu : ∀ {u : Cpu}, ∀ d, g.cur d = some p → (g.setCpu c u).cpu d = g.cpu d := by
    intro u d hd
    have hdc : d ≠ c := by
      rintro rfl
      exact hcur hd
    simp [hdc]
  cases hcall with
  | take hspin hfree => exact h.frame (fun _ => Iff.rfl) rfl (fun _ _ => rfl)
  | @sched q hq hold hone hintr =>
    have hpq : p ≠ q := by
      rintro rfl
      exact hcur hq
    refine h.frame (fun d => ?_) (by simp [hpq]) (fun _ _ => rfl)
    by_cases hdc : d = c
    · simp [hdc, hcur]
    · simp [hdc]
  | @schedRet q b' hq hsaved =>
    have hpq : p ≠ q := by
      rintro rfl
      exact hcur hq
    exact h.frame (fun _ => Iff.rfl) (by simp [hpq]) hcpu
  | @swtch q hnone hone hold hidle =>
    by_cases hpq : q = p
    · -- the thread comes back, perhaps on another hart
      subst hpq
      rcases h with ⟨d, hd, -, -⟩ | ⟨-, hsaved⟩
      · exact absurd hd (hidle d)
      · exact .inl ⟨c, by simp, by simp [hone], .inl hsaved⟩
    · refine h.frame (fun d => ?_) rfl (fun _ _ => rfl)
      by_cases hdc : d = c
      · simp [hdc, hcur, hpq]
      · simp [hdc]
  | @context q hidle =>
    have hpq : p ≠ q := by
      rintro rfl
      exact hop rfl
    exact h.frame (fun _ => Iff.rfl) (by simp [hpq]) (fun _ _ => rfl)
  | _ => exact h.frame (fun _ => Iff.rfl) rfl hcpu

theorem keeps_step {a : Fin n × Op} (h : Keeps p b g) (hs : Sound g)
    (hstep : (machine n).step g a = some g') (hguard : Locked p g a g') : Keeps p b g' := by
  rcases step_call hstep with ⟨-, hcall, hfree, hres⟩
  by_cases hcur : g.cur a.1 = some p
  · refine keeps_self h hs hcur (fun hret htake => ?_) hcall (hguard.2 hcur)
    have hnone := hres hret (hfree htake)
    simpa [resuming, hcur] using hnone
  · exact keeps_other h hcur hcall hguard.1

/-- The interrupt-enable state belongs to the kernel thread.  Interrupts are off on every hart with
`noff > 0`, `pop_off` does not panic, and from the first lock a thread takes to the last one it
releases, on whatever harts it runs in between, its interrupts are restored. -/
theorem interrupts_belong_to_thread (n : Nat) :
    (∀ g : Threads n, Reachable g → ∀ c, ((g.cpu c).noff > 0 → (g.cpu c).intr = false) ∧
      (g.cpu c).panicked ≠ some .popOff ∧ (g.cpu c).panicked ≠ some .popOffInterruptible) ∧
    ∀ (g₀ g₁ g₂ g₃ : Threads n) (c d : Fin n) (p : Slot) (first last : Lock), Reachable g₀ →
      g₀.cur c = some p → (g₀.cpu c).noff = 0 →
      (machine n).step g₀ (c, .acquire first) = some g₁ →
      (machine n).Path (Locked p) g₁ g₂ →
      g₂.cur d = some p → (machine n).step g₂ (d, .release last) = some g₃ →
      (g₃.cpu d).noff = 0 → (g₃.cpu d).intr = (g₀.cpu c).intr := by
  constructor
  · intro g h c
    have hs := reachable_sound h
    exact ⟨fun hpos => hs.intr c (Nat.pos_iff_ne_zero.1 hpos), hs.panics c⟩
  · intro g₀ g₁ g₂ g₃ c d p first last h hcur hzero hfirst hpath hcur' hlast hzero'
    have hs₁ : Sound g₁ := by
      rcases step_call hfirst with ⟨hrun, hcall, hfree, -⟩
      exact sound_call (reachable_sound h) hrun hfree hcall
    -- the first lock
    have hkeeps₁ : Keeps p (g₀.cpu c).intr g₁ := by
      rcases step_call hfirst with ⟨-, hcall, hfree, hres⟩
      have hnone : g₀.saved p = none := by
        have hres := hres (by simp) (hfree (by simp))
        simpa [resuming, hcur] using hres
      have hpush : (g₀.cpu c).pushOff.noff ≠ 0 ∧ (g₀.cpu c).pushOff.intena = (g₀.cpu c).intr := by
        simp [hzero]
      cases hcall with
      | acquire hnot => exact .inl ⟨c, hcur, by simpa using hpush.1, .inr ⟨hnone, by simpa using hpush.2⟩⟩
      | acquireTwice hold =>
        exact .inl ⟨c, hcur, by simpa using hpush.1, .inr ⟨hnone, by simpa using hpush.2⟩⟩
      | halt hop _ => exact absurd rfl (hop first)
    -- the run in between
    have hmid : Sound g₂ ∧ Keeps p (g₀.cpu c).intr g₂ := by
      refine hpath.invariant (I := fun g => Sound g ∧ Keeps p (g₀.cpu c).intr g) ⟨hs₁, hkeeps₁⟩ ?_
      rintro g a g' ⟨hs, hk⟩ hstep hguard
      refine ⟨?_, keeps_step hk hs hstep hguard⟩
      rcases step_call hstep with ⟨hrun, hcall, hfree, -⟩
      exact sound_call hs hrun hfree hcall
    -- the last lock
    rcases hmid with ⟨hs₂, hkeeps⟩
    rcases step_call hlast with ⟨hrun, hcall, hfree, hres⟩
    have hnone : g₂.saved p = none := by
      have hres := hres (by simp) (hfree (by simp))
      simpa [resuming, hcur'] using hres
    have hmem : (g₂.cpu d).noff ≠ 0 ∧ (g₂.cpu d).intena = (g₀.cpu c).intr := by
      rcases hkeeps with ⟨e, he, hnoff, hwhere⟩ | ⟨hidle, -⟩
      · have hed := hs₂.own e d p he hcur'
        subst hed
        rcases hwhere with hsome | ⟨-, hintena⟩
        · rw [hnone] at hsome
          cases hsome
        · exact ⟨hnoff, hintena⟩
      · exact absurd hcur' (hidle d)
    cases hcall with
    | @release _ u hold hok =>
      have hu : u.noff = 0 := by simpa using hzero'
      have hintr : u.intr = (g₂.cpu d).intena := Cpu.popOff_last hok hu
      simpa [hintr] using hmem.2
    | releasePanic hold herr =>
      rcases hs₂.popOff_ok hrun hold with ⟨u, hok⟩
      rw [hok] at herr
      cases herr
    | halt _ _ => exact absurd (by simpa [Threads.halt] using hzero') hmem.1

/-- The test of `Locked` on two harts. -/
def stillLocked (p : Slot) (g : Threads 2) (a : Fin 2 × Op) (g' : Threads 2) : Bool :=
  decide (a.2 ≠ .context p ∧ (g.cur a.1 = some p → (g'.cpu a.1).noff ≠ 0))

/-- A process starts on hart 0 and turns interrupts on. -/
def starts : List (Fin 2 × Op) :=
  [(0, .acquire (.proc (slotAt 0))), (0, .take), (0, .swtch (slotAt 0)),
    (0, .release (.proc (slotAt 0))), (0, .intr true)]

/-- It calls `yield` and comes back on hart 1, whose scheduler runs with interrupts off. -/
def migrates : List (Fin 2 × Op) :=
  [(0, .take), (0, .sched false), (0, .release (.proc (slotAt 0))),
    (1, .acquire (.proc (slotAt 0))), (1, .take), (1, .swtch (slotAt 0)), (1, .schedRet)]

/-- A `yield` that ends on another hart restores the interrupts of its thread. -/
theorem interrupts_belong_to_thread_yield :
    ∃ g₀ g₁ g₂ g₃ : Threads 2, Reachable g₀ ∧ g₀.cur 0 = some (slotAt 0) ∧
      (g₀.cpu 0).noff = 0 ∧ (g₀.cpu 0).intr = true ∧
      (machine 2).step g₀ (0, .acquire (.proc (slotAt 0))) = some g₁ ∧
      (machine 2).Path (Locked (slotAt 0)) g₁ g₂ ∧ g₂.cur 1 = some (slotAt 0) ∧
      (g₂.cpu 1).intr = false ∧
      (machine 2).step g₂ (1, .release (.proc (slotAt 0))) = some g₃ ∧ (g₃.cpu 1).noff = 0 ∧
      (g₃.cpu 1).intr = (g₀.cpu 0).intr := by
  have hrun : ((machine 2).exec (boot 2) starts).any (fun g₀ =>
      g₀.cur 0 = some (slotAt 0) ∧ (g₀.cpu 0).noff = 0 ∧ (g₀.cpu 0).intr = true ∧
      ((machine 2).step g₀ (0, .acquire (.proc (slotAt 0)))).any (fun g₁ =>
        ((machine 2).execBy (stillLocked (slotAt 0)) g₁ migrates).any (fun g₂ =>
          g₂.cur 1 = some (slotAt 0) ∧ (g₂.cpu 1).intr = false ∧
          ((machine 2).step g₂ (1, .release (.proc (slotAt 0)))).any (fun g₃ =>
            (g₃.cpu 1).noff = 0)))) = true := by
    decide +kernel
  rcases (Option.any_eq_true _ _).1 hrun with ⟨g₀, hg₀, htest⟩
  simp only [decide_eq_true_eq] at htest
  rcases htest with ⟨hcur, hzero, hintr, htest⟩
  rcases (Option.any_eq_true _ _).1 htest with ⟨g₁, hfirst, htest⟩
  rcases (Option.any_eq_true _ _).1 htest with ⟨g₂, hg₂, htest⟩
  simp only [decide_eq_true_eq] at htest
  rcases htest with ⟨hcur', hintr', htest⟩
  rcases (Option.any_eq_true _ _).1 htest with ⟨g₃, hlast, hzero'⟩
  simp only [decide_eq_true_eq] at hzero'
  have hreach : Reachable g₀ := Machine.reaches_of_exec hg₀
  have hpath : (machine 2).Path (Locked (slotAt 0)) g₁ g₂ := by
    refine Machine.path_of_execBy (fun g a g' hok => ?_) hg₂
    simp only [stillLocked, decide_eq_true_eq] at hok
    exact hok
  exact ⟨g₀, g₁, g₂, g₃, hreach, hcur, hzero, hintr, hfirst, hpath, hcur', hintr', hlast, hzero',
    (interrupts_belong_to_thread 2).2 _ _ _ _ _ _ _ _ _ hreach hcur hzero hfirst hpath hcur' hlast
      hzero'⟩

end Law

end Threads

end Xv6Schedulers.Locking
