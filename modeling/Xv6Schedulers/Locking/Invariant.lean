import Xv6Schedulers.Locking.Discipline

/-!
# Invariant — locks, processors and process states

Two invariants of every reachable state, for any number of harts and either scheduler:

* `LockInv`: every stack is well formed, the locks a hart holds are those of the thread it
  executes, `noff` counts them, and interrupts are off while it is positive;
* `ProcInv`: `c->proc` names the process the hart has dispatched, no two harts have the same one,
  that process is `RUNNING` until it gives the hart up, and nothing else is.

This module states them and derives what the step proofs use.
-/

namespace Xv6Schedulers.Locking

open Kernel

variable {n : Nat}

/-! ## Well-formed stacks -/

section Stacks

variable {me : Option Slot} {p : Slot} {st : Stack}

theorem expects_held {e : Slot × ProcState} (hwf : Wf me st) (he : expects st = some e) :
    .proc e.1 ∈ held me st := by
  induction st with
  | nil => simp at he
  | cons f r ih =>
    rcases hwf with ⟨hok, -, hr⟩
    cases f with
    | acquire l =>
      rcases hok with ⟨-, hne, -⟩
      exact (List.mem_erase_of_ne (hne e he).symm).2 (ih hr he)
    | spin l =>
      rcases hok with ⟨-, hne, -⟩
      exact (List.mem_erase_of_ne (hne e he).symm).2 (ih hr he)
    | release l => exact List.mem_cons_of_mem l (ih hr he)
    | fork pc =>
      cases pc <;> simp only [expects, reduceCtorEq, Option.some.injEq] at he <;>
        subst he <;> simp
    | stride pc =>
      cases pc <;> simp only [expects, reduceCtorEq, Option.map_eq_some_iff] at he <;>
        rcases he with ⟨b, rfl, rfl⟩ <;> simp
    | _ => simp at he

theorem expects_state {e : Slot × ProcState} (he : expects st = some e) :
    e.2 = .unused ∨ e.2 = .runnable := by
  induction st with
  | nil => simp at he
  | cons f r ih =>
    cases f with
    | acquire l => exact ih he
    | spin l => exact ih he
    | release l => exact ih he
    | fork pc =>
      cases pc <;> simp only [expects, reduceCtorEq, Option.some.injEq] at he <;>
        subst he <;> simp
    | stride pc =>
      cases pc <;> simp only [expects, reduceCtorEq, Option.map_eq_some_iff] at he <;>
        rcases he with ⟨b, rfl, rfl⟩ <;> simp
    | _ => simp at he

theorem leaving_held (hwf : Wf (some p) st) (hl : leaving st = true) :
    .proc p ∈ held (some p) st := by
  induction st with
  | nil => simp at hl
  | cons f r ih =>
    rcases hwf with ⟨hok, -, hr⟩
    cases f with
    | release l => exact List.mem_cons_of_mem l (ih hr hl)
    | sched pc =>
      cases pc <;> simp only [leaving, Bool.false_eq_true] at hl
      · simp [hok.2]
      · rcases hok with ⟨-, b, r', rfl⟩
        simp [hr.1.2]
    | _ => simp at hl

theorem leaving_none (hwf : Wf none st) : leaving st = false := by
  induction st with
  | nil => rfl
  | cons f r ih =>
    rcases hwf with ⟨hok, -, hr⟩
    cases f with
    | release l => exact ih hr
    | sched pc => cases pc <;> simp [Frame.Ok] at hok
    | _ => rfl

theorem target_held (hwf : Wf none st) (ht : target st = some p) : held none st = [.proc p] := by
  cases st with
  | nil => simp at ht
  | cons f r =>
    rcases hwf with ⟨hok, -, -⟩
    cases f with
    | swtch q =>
      have hq : q = p := by simpa using ht
      subst hq
      rcases hok with ⟨-, ⟨cl, rfl⟩ | rfl⟩ <;> simp
    | loteria pc =>
      rcases hok with ⟨-, rfl⟩
      cases pc <;> simp at ht
      subst ht
      simp
    | stride pc =>
      cases pc <;> simp at ht
      rcases hok with ⟨-, rfl⟩
      subst ht
      simp
    | _ => simp at ht

theorem target_self (hwf : Wf (some p) st) : target st = none := by
  cases st with
  | nil => rfl
  | cons f r =>
    rcases hwf with ⟨hok, -, -⟩
    cases f with
    | swtch q => simp [Frame.Ok] at hok
    | loteria pc => simp [Frame.Ok] at hok
    | stride pc => cases pc <;> simp [Frame.Ok] at hok
    | _ => rfl

/-- The scheduler's call of `swtch`. -/
@[simp] def Frame.enters : Frame → Bool
  | .swtch _ => true
  | _ => false

def entering (st : Stack) : Bool := st.head?.any Frame.enters

@[simp] theorem entering_nil : entering [] = false := rfl

@[simp] theorem entering_cons (f : Frame) (r : Stack) : entering (f :: r) = Frame.enters f := rfl

theorem entering_of_target_none (h : target st = none) : entering st = false := by
  cases st with
  | nil => rfl
  | cons f r => cases f <;> simp at h ⊢

/-- The stack of a scheduler while process `p` runs. -/
def Resting (p : Slot) (st : Stack) : Prop :=
  (∃ cl, st = [.loteria (.back cl p)]) ∨ st = [.stride (.back p)]

theorem Resting.target_eq (h : Resting p st) : target st = some p := by
  rcases h with ⟨cl, rfl⟩ | rfl <;> rfl

theorem Resting.entering_eq (h : Resting p st) : entering st = false := by
  rcases h with ⟨cl, rfl⟩ | rfl <;> rfl

/-- The stack of a process that no hart executes: inside `sched`, or not yet started. -/
def Parked (st : Stack) : Prop := (∃ b r, st = .sched (.schedRet b) :: r) ∨ st = newStack

theorem Parked.held_eq (h : Parked st) (hwf : Wf (some p) st) : held (some p) st = [.proc p] := by
  rcases h with ⟨b, r, rfl⟩ | rfl
  · simpa using hwf.1.2
  · simp [newStack]

theorem Parked.quiet (h : Parked st) :
    spinning st = none ∧ leaving st = false ∧ expects st = none := by
  rcases h with ⟨b, r, rfl⟩ | rfl <;> simp [newStack]

@[simp] theorem claims_newStack : claims newStack = [] := rfl

theorem wf_newStack : Wf (some p) newStack := by
  simp [newStack, Frame.Ok]

end Stacks

/-! ## The invariants -/

/-- The locks of the thread that hart `c` executes. -/
def heldBy (s : State n) (c : Fin n) : List Lock := held (s.cur c) (s.stack (s.thread c))

/-- Locks, `noff` and the interrupt bit. -/
structure LockInv (s : State n) : Prop where
  wf : ∀ u : Thread n, Wf u.self (s.stack u)
  holder : ∀ l c, s.locked l = some c ↔ l ∈ heldBy s c
  nodup : ∀ c, (heldBy s c).Nodup
  noff : ∀ c, (s.cpu c).panicked = none →
    (s.cpu c).noff = (heldBy s c).length + (spinning (s.stack (s.thread c))).toList.length
  intr : ∀ c, (s.cpu c).panicked = none → (s.cpu c).noff ≠ 0 → (s.cpu c).intr = false

/-- The hart is between its dispatch of a process and the point where the process gives it up. -/
def onCpu (s : State n) (c : Fin n) : Bool :=
  match s.cur c with
  | some p => !leaving (s.stack (.proc p))
  | none => entering (s.stack (.hart c))

/-- The states in which a process gives up the hart. -/
def Off (v : ProcState) : Prop := v = .runnable ∨ v = .sleeping ∨ v = .zombie

/-- `ZOMBIE`, or already freed. -/
def Dead (v : ProcState) : Prop := v = .zombie ∨ v = .unused

/-- Processors and process states. -/
structure ProcInv (s : State n) : Prop where
  resting : ∀ c p, s.cur c = some p → Resting p (s.stack (.hart c))
  myproc : ∀ c, s.myproc c = target (s.stack (.hart c))
  owner : ∀ c d p, s.myproc c = some p → s.myproc d = some p → c = d
  parked : ∀ p, (∀ c, s.cur c ≠ some p) →
    Parked (s.stack (.proc p)) ∨ (s.stack (.proc p) = [] ∧ (s.proc p).state = .unused)
  on : ∀ c p, s.myproc c = some p → onCpu s c = true → (s.proc p).state = .running
  off : ∀ c p, s.myproc c = some p → onCpu s c = false → Off (s.proc p).state
  running : ∀ p, (s.proc p).state = .running → ∃ c, s.myproc c = some p
  expect : ∀ c e, expects (s.stack (s.thread c)) = some e → (s.proc e.1).state = e.2
  claim : ∀ u i, i ∈ claims (s.stack u) → (s.proc i).state = .used
  claim_owner : ∀ u v i, i ∈ claims (s.stack u) → i ∈ claims (s.stack v) → u = v
  zombie : ∀ p, .exit .zombie ∈ s.stack (.proc p) → Dead (s.proc p).state

/-! ## Consequences -/

section Consequences

variable {s : State n} {c d : Fin n} {p i : Slot}

@[simp] theorem thread_self (s : State n) (c : Fin n) : (s.thread c).self = s.cur c := by
  cases h : s.cur c with
  | none => simp [State.thread_of_cur_none h, Thread.self]
  | some p => simp [State.thread_of_cur_some h, Thread.self]

theorem LockInv.wf_thread (h : LockInv s) (c : Fin n) : Wf (s.cur c) (s.stack (s.thread c)) := by
  simpa using h.wf (s.thread c)

theorem ProcInv.myproc_of_cur (h : ProcInv s) (hc : s.cur c = some p) : s.myproc c = some p := by
  rw [h.myproc c, (h.resting c p hc).target_eq]

theorem ProcInv.thread_ne (h : ProcInv s) (hdc : d ≠ c) : s.thread d ≠ s.thread c := by
  intro heq
  cases hd : s.cur d with
  | none =>
    rw [State.thread_of_cur_none hd] at heq
    cases hc : s.cur c with
    | none =>
      rw [State.thread_of_cur_none hc] at heq
      exact hdc (by simpa using heq)
    | some q => simp [State.thread_of_cur_some hc] at heq
  | some p =>
    rw [State.thread_of_cur_some hd] at heq
    cases hc : s.cur c with
    | none => simp [State.thread_of_cur_none hc] at heq
    | some q =>
      have hpq : p = q := by simpa [State.thread_of_cur_some hc] using heq
      subst hpq
      exact hdc (h.owner d c p (h.myproc_of_cur hd) (h.myproc_of_cur hc))

theorem ProcInv.myproc_procOf (h : ProcInv s) (c : Fin n) :
    s.myproc c = procOf (s.cur c) (s.stack (s.thread c)) := by
  cases hc : s.cur c with
  | none => simp [procOf, State.thread_of_cur_none hc, h.myproc c]
  | some p => simp [procOf, h.myproc_of_cur hc]

theorem off_held (hl : LockInv s) (hp : ProcInv s) (hc : s.myproc c = some p)
    (hoff : onCpu s c = false) : .proc p ∈ heldBy s c := by
  have hwf := hl.wf_thread c
  cases hcur : s.cur c with
  | none =>
    rw [hcur, State.thread_of_cur_none hcur] at hwf
    have ht : target (s.stack (.hart c)) = some p := by rw [← hp.myproc c, hc]
    simp [heldBy, hcur, State.thread_of_cur_none hcur, target_held hwf ht]
  | some q =>
    have hq : q = p := by
      have := hp.myproc_of_cur hcur
      simpa [hc] using this.symm
    subst hq
    rw [hcur, State.thread_of_cur_some hcur] at hwf
    have hleave : leaving (s.stack (.proc q)) = true := by simpa [onCpu, hcur] using hoff
    simpa [heldBy, hcur, State.thread_of_cur_some hcur] using leaving_held hwf hleave

/-- The lock of a process that is not `RUNNING` keeps every other hart away from it. -/
theorem not_myproc_of_held (hl : LockInv s) (hp : ProcInv s) (hi : .proc i ∈ heldBy s c)
    (hrun : (s.proc i).state ≠ .running) (hdc : d ≠ c) : s.myproc d ≠ some i := by
  intro hd
  cases hon : onCpu s d with
  | true => exact hrun (hp.on d i hd hon)
  | false =>
    have hlock := (hl.holder _ _).2 (off_held hl hp hd hon)
    rw [(hl.holder _ _).2 hi] at hlock
    exact hdc (Option.some.inj hlock).symm

theorem ProcInv.myproc_ne (h : ProcInv s)
    (hi : (s.proc i).state = .unused ∨ (s.proc i).state = .used) : s.myproc d ≠ some i := by
  intro hd
  cases hon : onCpu s d with
  | true => simp [h.on d i hd hon] at hi
  | false =>
    have hoff := h.off d i hd hon
    rcases hi with hi | hi <;> simp [Off, hi] at hoff

theorem ProcInv.cur_ne (h : ProcInv s)
    (hi : (s.proc i).state = .unused ∨ (s.proc i).state = .used) : s.cur d ≠ some i :=
  fun hd => h.myproc_ne hi (h.myproc_of_cur hd)

theorem ProcInv.running_cur (h : ProcInv s) (hc : s.cur c = some p)
    (hl : leaving (s.stack (.proc p)) = false) : (s.proc p).state = .running :=
  h.on c p (h.myproc_of_cur hc) (by simp [onCpu, hc, hl])

end Consequences

end Xv6Schedulers.Locking
