import Xv6Schedulers.Kernel.Move
import Mathlib.Data.List.Perm.Basic

/-!
# Discipline — which locks a control point holds

Which locks a thread holds is a function of its stack: `held me st`, where `me` is the process the
thread belongs to (`none` for a scheduler).  `Wf me st` says that the stack is one the code can
build: each frame stands over a caller that holds what the frame relies on, and every lock about
to be taken lies above all locks held, in the order

`wait_lock`, condition locks < `proc[0].lock` < … < `proc[NPROC-1].lock` < `pid_lock`.

The main result is `seg_keeps`: a segment of code keeps `Wf` and neither takes nor drops a lock.
-/

namespace Xv6Schedulers.Locking

open Kernel

/-! ## The lock order -/

/-- The level of a lock; locks of level 0 are never nested in each other. -/
@[simp] def rank : Lock → Nat
  | .wait => 0
  | .cond _ => 0
  | .proc i => i.val + 1
  | .pid => NPROC + 1

/-- Every lock of `ls` is below `l`. -/
def Below (l : Lock) (ls : List Lock) : Prop := ∀ k ∈ ls, rank k < rank l

theorem Below.notMem {l : Lock} {ls : List Lock} (h : Below l ls) : l ∉ ls :=
  fun hl => Nat.lt_irrefl _ (h l hl)

/-! ## Locks held at a control point -/

/-- The lock of the process a thread belongs to. -/
def selfLock (me : Option Slot) : List Lock := me.toList.map .proc

@[simp] theorem selfLock_some (p : Slot) : selfLock (some p) = [.proc p] := rfl

/-- The locks held where a frame is on top, given those held by the frames below. -/
@[simp] def Frame.locks (me : Option Slot) (below : List Lock) : Frame → List Lock
  | .acquire l => below.erase l
  | .spin l => below.erase l
  | .release l => l :: below
  | .loteria (.scan _ start i) => .proc (slotAt (start + i)) :: below
  | .loteria (.back _ idx) => .proc idx :: below
  | .stride (.next _ best) => best.toList.map .proc ++ below
  | .stride (.scan i best) => .proc i :: (best.toList.map .proc ++ below)
  | .stride (.back b) => .proc b :: below
  | .sched .yieldLocked => selfLock me ++ below
  | .sched .forkret => selfLock me ++ below
  | .sched (.sleepLocked _ _) => selfLock me ++ below
  | .sched (.sleepReleased _ lk) => selfLock me ++ below.erase lk
  | .sched (.sleepBack lk) => selfLock me ++ below.erase lk
  | .wake (.wakeupLocked _ i) => .proc i :: below
  | .wake (.killLocked _ i) => .proc i :: below
  | .wake .setkilledLocked => selfLock me ++ below
  | .wake .killedLocked => selfLock me ++ below
  | .fork (.allocLocked _ i) => .proc i :: below
  | .fork (.allocPid _ i) => .pid :: .proc i :: below
  | .fork (.allocFound _ i _) => .proc i :: below
  | .fork (.setParent _ _) => .wait :: below
  | .fork (.setRunnable i _) => .proc i :: below
  -- reached only if `acquire` let the same hart take the lock twice
  | .fork (.copyFailed i) => .proc i :: .proc i :: below
  | .exit (.reparent _ _) => .wait :: below
  | .exit (.woken _) => .wait :: below
  | .exit (.locked _) => selfLock me ++ .wait :: below
  | .exit .zombie => selfLock me ++ below
  | .wait (.scan _ _ _) => .wait :: below
  | .wait (.locked _ i) => .proc i :: .wait :: below
  | .wait (.killed _) => .wait :: below
  | .trap (.crit k _) => .cond k :: below
  | _ => below

/-- The locks a thread with this stack holds. -/
def held (me : Option Slot) : Stack → List Lock
  | [] => []
  | f :: r => Frame.locks me (held me r) f

@[simp] theorem held_nil (me : Option Slot) : held me [] = [] := rfl

@[simp] theorem held_cons (me : Option Slot) (f : Frame) (r : Stack) :
    held me (f :: r) = Frame.locks me (held me r) f := rfl

/-! ## Well-formed stacks -/

/-- The thread is past its change of `p->state` and on its way to `swtch`. -/
@[simp] def leaving : Stack → Bool
  | .release _ :: r => leaving r
  | .sched .sched :: _ => true
  | .sched .swtch :: _ => true
  | _ => false

/-- The slots a `fork` in progress has filled in and not yet made runnable. -/
@[simp] def claims : Stack → List Slot
  | [] => []
  | .fork (.setParent i _) :: r => i :: claims r
  | .fork (.setRunnable i _) :: r => i :: claims r
  | _ :: r => claims r

theorem claims_append (fs r : Stack) : claims (fs ++ r) = claims fs ++ claims r := by
  induction fs with
  | nil => rfl
  | cons f fs ih =>
    cases f with
    | fork pc => cases pc <;> simp [ih]
    | _ => simp [ih]

theorem claims_core (st : Stack) : claims (core st) = claims st := by
  induction st with
  | nil => rfl
  | cons f r ih =>
    cases f with
    | fork pc => cases pc <;> simp [core_cons, Frame.isCore, ih]
    | sched pc => cases pc <;> simp [core_cons, Frame.isCore, ih]
    | _ => simp [core_cons, Frame.isCore, ih]

/-- The process the scheduler's frame is switching to or back from. -/
@[simp] def Frame.switchesTo : Frame → Option Slot
  | .swtch p => some p
  | .loteria (.back _ p) => some p
  | .stride (.back p) => some p
  | _ => none

def target (st : Stack) : Option Slot := st.head?.bind Frame.switchesTo

@[simp] theorem target_nil : target [] = none := rfl

@[simp] theorem target_cons (f : Frame) (r : Stack) : target (f :: r) = Frame.switchesTo f := rfl

/-- The lock a frame spins on. -/
@[simp] def Frame.spins : Frame → Option Lock
  | .spin l => some l
  | _ => none

def spinning (st : Stack) : Option Lock := st.head?.bind Frame.spins

@[simp] theorem spinning_nil : spinning [] = none := rfl

@[simp] theorem spinning_cons (f : Frame) (r : Stack) : spinning (f :: r) = Frame.spins f := rfl

/-- A slot whose `state` the thread has tested and still relies on: the slot `allocproc` found,
and the candidate of the stride scan. -/
@[simp] def expects : Stack → Option (Slot × ProcState)
  | .acquire _ :: r => expects r
  | .spin _ :: r => expects r
  | .release _ :: r => expects r
  | .fork (.allocPid _ i) :: _ => some (i, .unused)
  | .fork (.allocFound _ i _) :: _ => some (i, .unused)
  | .stride (.next _ best) :: _ => best.map (·, .runnable)
  | .stride (.scan _ best) :: _ => best.map (·, .runnable)
  | _ => none

/-- What a frame requires of the frames below it. -/
def Frame.Ok (me : Option Slot) (r : Stack) : Frame → Prop
  | .acquire l =>
      l ∈ held me r ∧ (∀ e ∈ expects r, l ≠ .proc e.1) ∧
        (l ∈ (held me r).erase l ∨ Below l ((held me r).erase l))
  | .spin l => l ∈ held me r ∧ (∀ e ∈ expects r, l ≠ .proc e.1) ∧ Below l ((held me r).erase l)
  | .release _ => True
  | .ret _ => me.isSome
  | .loteria _ => me = none ∧ r = []
  | .stride (.next i best) => me = none ∧ r = [] ∧ ∀ b ∈ best, b.val < i
  | .stride (.scan i best) => me = none ∧ r = [] ∧ ∀ b ∈ best, b.val < i.val
  | .stride _ => me = none ∧ r = []
  | .swtch p => me = none ∧ ((∃ cl, r = [.loteria (.back cl p)]) ∨ r = [.stride (.back p)])
  | .sched .yieldLocked => me.isSome ∧ held me r = []
  | .sched .sched => me.isSome ∧ held me r = selfLock me
  | .sched .swtch => me.isSome ∧ ∃ b r', r = .sched (.schedRet b) :: r'
  | .sched (.schedRet _) => me.isSome ∧ held me r = selfLock me
  | .sched .forkret => me.isSome ∧ r = [.trap .user]
  | .sched (.sleepLocked _ lk) => me.isSome ∧ held me r = [lk] ∧ rank lk = 0
  | .sched (.sleepReleased _ lk) => me.isSome ∧ held me r = [lk] ∧ rank lk = 0
  | .sched (.sleepBack lk) => me.isSome ∧ held me r = [lk] ∧ rank lk = 0
  | .wake (.wakeupNext _ _) => ∀ l ∈ held me r, rank l = 0
  | .wake (.wakeupLocked _ _) => ∀ l ∈ held me r, rank l = 0
  | .wake (.killNext _ _) => me.isSome ∧ held me r = []
  | .wake (.killLocked _ _) => me.isSome ∧ held me r = []
  | .wake _ => me.isSome ∧ ∀ l ∈ held me r, rank l = 0
  | .fork _ => me.isSome ∧ held me r = [] ∧ claims r = []
  | .exit _ => me.isSome ∧ held me r = []
  | .wait _ => me.isSome ∧ held me r = []
  | .trap .user => me.isSome ∧ r = []
  | .trap (.service canSleep) => held me r = [] ∧ (canSleep = true → me.isSome)
  | .trap (.crit _ canSleep) => held me r = [] ∧ (canSleep = true → me.isSome)
  | .trap (.kerneltrap _) => held me r = []
  | .trap .kerneltrapRet => me.isSome ∧ held me r = []
  | .trap _ => me.isSome ∧ r = [.trap .user]

/-- What a frame may cover: only lock operations run while a test or a changed `p->state` is still
to be acted on, only `swtch` runs over the point where the scheduler comes back. -/
@[simp] def Frame.Covers (r : Stack) : Frame → Prop
  | .acquire _ => spinning r = none ∧ target r = none ∧ leaving r = false
  | .spin _ => spinning r = none ∧ target r = none ∧ leaving r = false
  | .release _ => spinning r = none ∧ target r = none
  | .swtch _ => True
  | _ => spinning r = none ∧ target r = none ∧ leaving r = false ∧ expects r = none

/-- The stack is one that the code can build. -/
def Wf (me : Option Slot) : Stack → Prop
  | [] => True
  | f :: r => Frame.Ok me r f ∧ Frame.Covers r f ∧ Wf me r

@[simp] theorem wf_nil (me : Option Slot) : Wf me [] := trivial

@[simp] theorem wf_cons (me : Option Slot) (f : Frame) (r : Stack) :
    Wf me (f :: r) ↔ Frame.Ok me r f ∧ Frame.Covers r f ∧ Wf me r :=
  Iff.rfl

/-- `myproc()` as the current thread of a hart must see it. -/
def procOf (me : Option Slot) (st : Stack) : Option Slot :=
  match me with
  | some p => some p
  | none => target st

/-! ## Segments keep the discipline -/

/-- The new stack is well formed, holds the same locks, and does not spin. -/
def Keeps (me : Option Slot) (old new : Stack) : Prop :=
  Wf me new ∧ (held me new).Perm (held me old) ∧ spinning new = none

section Keeps

variable {n : Nat} {s : State n} {c : Fin n} {me : Option Slot} {p : Slot}
  {ws : List Write} {fs rest : Stack}

attribute [local simp] Frame.Ok

attribute [local simp] Keeps Below

theorem loteriaSeg_keeps {pc : LoteriaPc} (h : LoteriaSeg s pc ws fs)
    (hwf : Wf me (.loteria pc :: rest)) : Keeps me (.loteria pc :: rest) (fs ++ rest) := by
  rcases hwf with ⟨⟨hme, hrest⟩, -, -⟩
  subst hme hrest
  cases h <;> simp

theorem below_best {i : Slot} {best : Option Slot} (h : ∀ b ∈ best, b.val < i.val) :
    Below (.proc i) (best.toList.map .proc) := by
  intro k hk
  rcases List.mem_map.1 hk with ⟨b, hb, rfl⟩
  exact Nat.succ_lt_succ (h b (Option.mem_toList.1 hb))

theorem strideSeg_keeps {pc : StridePc} (h : StrideSeg s pc ws fs)
    (hwf : Wf me (.stride pc :: rest)) : Keeps me (.stride pc :: rest) (fs ++ rest) := by
  rcases hwf with ⟨hok, -, -⟩
  cases h with
  | @visit i best =>
    rcases hok with ⟨rfl, rfl, hbest⟩
    have hbelow := below_best hbest
    have hne : ∀ b, best = some b → i ≠ b := by
      rintro b hb rfl
      exact Nat.lt_irrefl _ (hbest i hb)
    simp_all
  | better =>
    rcases hok with ⟨rfl, rfl, hbest⟩
    refine ⟨by simp, ?_, rfl⟩
    exact List.Perm.swap _ _ _
  | worse =>
    rcases hok with ⟨rfl, rfl, hbest⟩
    have hlt := hbest _ rfl
    refine ⟨?_, by simp, rfl⟩
    simp
    omega
  | skip =>
    rcases hok with ⟨rfl, rfl, hbest⟩
    refine ⟨?_, by simp, rfl⟩
    refine ⟨trivial, by simp, ⟨rfl, rfl, ?_⟩, by simp, trivial⟩
    intro b hb
    have hlt := hbest b hb
    omega
  | _ => simp_all

theorem schedSeg_keeps {pc : SchedPc} (hp : s.myproc c = some p) (h : SchedSeg s c pc ws fs)
    (hwf : Wf (some p) (.sched pc :: rest)) :
    Keeps (some p) (.sched pc :: rest) (fs ++ rest) := by
  rcases hwf with ⟨hok, hleave, hrest⟩
  cases h with
  | sleepLocked =>
    rcases hok with ⟨-, hheld, hrank⟩
    refine ⟨by simp_all, ?_, rfl⟩
    simpa [hheld] using List.Perm.swap _ _ _
  | _ => simp_all

theorem wakeSeg_keeps {pc : WakePc} (hp : s.myproc c = procOf me (.wake pc :: rest))
    (h : WakeSeg s c pc ws fs) (hwf : Wf me (.wake pc :: rest)) :
    Keeps me (.wake pc :: rest) (fs ++ rest) := by
  rcases hwf with ⟨hok, hleave, hrest⟩
  cases me with
  | none => cases h <;> simp_all
  | some p => cases h <;> simp_all [procOf]

theorem forkSeg_keeps {pc : ForkPc} (h : ForkSeg s c pc ws fs)
    (hwf : Wf (some p) (.fork pc :: rest)) (hnd : (held (some p) (.fork pc :: rest)).Nodup) :
    Keeps (some p) (.fork pc :: rest) (fs ++ rest) := by
  rcases hwf with ⟨⟨hme, hheld, hclaims⟩, hleave, hrest⟩
  cases h with
  | copyFailed => simp at hnd
  | _ => simp_all

theorem exitSeg_keeps {pc : ExitPc} (hp : s.myproc c = some p) (h : ExitSeg s c pc ws fs)
    (hwf : Wf (some p) (.exit pc :: rest)) :
    Keeps (some p) (.exit pc :: rest) (fs ++ rest) := by
  rcases hwf with ⟨⟨hme, hheld⟩, hleave, hrest⟩
  cases h with
  | locked =>
    refine ⟨by simp_all, ?_, rfl⟩
    simpa [hheld] using List.Perm.swap _ _ _
  | _ => simp_all

theorem waitSeg_keeps {pc : WaitPc} (hp : s.myproc c = some p) (h : WaitSeg s c pc ws fs)
    (hwf : Wf (some p) (.wait pc :: rest)) :
    Keeps (some p) (.wait pc :: rest) (fs ++ rest) := by
  rcases hwf with ⟨⟨hme, hheld⟩, hleave, hrest⟩
  cases h <;> simp_all

theorem call_keeps (call : Syscall) :
    Wf (some p) (call.call ++ [.trap (.done false), .trap .user]) ∧
      held (some p) (call.call ++ [.trap (.done false), .trap .user]) = [] ∧
      spinning (call.call ++ [.trap (.done false), .trap .user]) = none := by
  cases call <;> simp

theorem trapSeg_keeps {pc : TrapPc} (hp : s.myproc c = procOf me (.trap pc :: rest))
    (h : TrapSeg s c pc ws fs) (hwf : Wf me (.trap pc :: rest)) :
    Keeps me (.trap pc :: rest) (fs ++ rest) := by
  rcases hwf with ⟨hok, hleave, hrest⟩
  cases me with
  | none =>
    cases h <;> simp_all [procOf]
  | some p =>
    cases h with
    | @call q call hq hkilled =>
      rcases hok with ⟨-, rfl⟩
      have hcall := call_keeps (p := p) call
      simpa using hcall
    | _ =>
      simp_all [procOf]

/-- A segment keeps the stack well formed and neither takes nor drops a lock. -/
theorem seg_keeps {f : Frame} (hp : s.myproc c = procOf me (f :: rest)) (h : Seg s c f ws fs)
    (hwf : Wf me (f :: rest)) (hnd : (held me (f :: rest)).Nodup) :
    Keeps me (f :: rest) (fs ++ rest) := by
  have hself : me.isSome → ∃ p, me = some p ∧ s.myproc c = some p := by
    intro hme
    rcases Option.isSome_iff_exists.1 hme with ⟨p, rfl⟩
    exact ⟨p, rfl, hp⟩
  cases h with
  | ret =>
    rcases hwf with ⟨hok, hleave, hrest⟩
    simp_all
  | loteria h => exact loteriaSeg_keeps h hwf
  | stride h => exact strideSeg_keeps h hwf
  | sched h =>
    rename_i pc
    have hme : me.isSome := by
      rcases hwf with ⟨hok, -, -⟩
      cases pc <;> exact hok.1
    rcases hself hme with ⟨p, rfl, hp⟩
    exact schedSeg_keeps hp h hwf
  | wake h => exact wakeSeg_keeps hp h hwf
  | fork h =>
    rcases hself hwf.1.1 with ⟨p, rfl, -⟩
    exact forkSeg_keeps h hwf hnd
  | exit h =>
    rcases hself hwf.1.1 with ⟨p, rfl, hp⟩
    exact exitSeg_keeps hp h hwf
  | wait h =>
    rcases hself hwf.1.1 with ⟨p, rfl, hp⟩
    exact waitSeg_keeps hp h hwf
  | trap h => exact trapSeg_keeps hp h hwf

/-- Code turns interrupts on only where no lock is held. -/
theorem seg_intr {f : Frame} (h : Seg s c f ws fs) (hwf : Wf me (f :: rest))
    (hon : .intr true ∈ ws) : held me (f :: rest) = [] ∧ spinning (f :: rest) = none := by
  rcases hwf with ⟨hok, -, -⟩
  cases h with
  | ret => simp at hon
  | loteria h => cases h <;> simp_all
  | stride h => cases h <;> simp_all
  | sched h => cases h <;> simp at hon
  | wake h => cases h <;> simp at hon
  | fork h =>
    cases h with
    | @allocated call => cases call <;> simp at hon
    | _ => simp at hon
  | exit h => cases h <;> simp at hon
  | wait h => cases h <;> simp at hon
  | trap h => cases h <;> simp_all

end Keeps

end Xv6Schedulers.Locking
