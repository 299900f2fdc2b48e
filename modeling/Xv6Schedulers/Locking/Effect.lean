import Xv6Schedulers.Locking.Invariant

/-!
# Effect — what a step does to processors and process states

Seen from `ProcInv`, a step that does not switch threads is one of eight things.  Most are `quiet`:
they change neither a `state` nor `c->proc`, and leave a stack of the same shape.  The others are
the transitions of a process:

* `dispatch` and `back`: a scheduler takes a process and gets it back;
* `leave`: a running process becomes `RUNNABLE`, `SLEEPING` or `ZOMBIE`;
* `wake`: a sleeping process becomes `RUNNABLE`;
* `alloc`, `start`, `free`: `allocproc`, the end of `fork`, and `freeproc`.

`seg_effect` sorts the segments of code into these classes.
-/

namespace Xv6Schedulers.Locking

open Kernel

variable {n : Nat}

/-! ## Classes of steps -/

/-- The step of hart `c` replaces the stack of the thread it executes by `new`.  Another stack
changes only where `allocproc` prepares the context of a process that no hart executes. -/
structure Acts (s t : State n) (c : Fin n) (new : Stack) : Prop where
  cur : t.cur = s.cur
  cpu : ∀ d, d ≠ c → t.cpu d = s.cpu d
  self : t.stack (s.thread c) = new
  other : ∀ u, u ≠ s.thread c → t.stack u = s.stack u ∨
    ∃ i, u = .proc i ∧ (∀ d, s.cur d ≠ some i) ∧ t.stack u = newStack

/-- The parts of a stack that `ProcInv` looks at. -/
structure SameShape (old new : Stack) : Prop where
  leaving : leaving new = leaving old
  entering : entering new = entering old
  target : target new = target old
  claims : claims new = claims old
  zombie : .exit .zombie ∈ new → .exit .zombie ∈ old

/-- The step assigns `v` to the `state` of slot `i` and no other. -/
structure SetsState (s t : State n) (i : Slot) (v : ProcState) : Prop where
  at_slot : (t.proc i).state = v
  elsewhere : ∀ j, j ≠ i → (t.proc j).state = (s.proc j).state

/-- The classes of steps; `old` and `new` are the stacks of the executed thread. -/
inductive Effect (s t : State n) (c : Fin n) (old new : Stack) : Prop
  | quiet (hstate : ∀ i, (t.proc i).state = (s.proc i).state) (hmy : t.myproc c = s.myproc c)
      (hshape : SameShape old new) (hexp : ∀ e ∈ expects new, (s.proc e.1).state = e.2)
  | dispatch (b : Slot) (hb : (s.proc b).state = .runnable) (hheld : .proc b ∈ heldBy s c)
      (hcur : s.cur c = none) (hold : target old = none) (hsets : SetsState s t b .running)
      (hmy : t.myproc c = some b) (hnew : ∃ r, new = .swtch b :: r ∧ Resting b r)
  | back (b : Slot) (hcur : s.cur c = none) (hold : Resting b old)
      (hstate : ∀ i, (t.proc i).state = (s.proc i).state) (hmy : t.myproc c = none)
      (hnew : target new = none) (hclaims : claims new = []) (hexp : expects new = none)
  | leave (p : Slot) (v : ProcState) (hcur : s.cur c = some p) (hold : leaving old = false)
      (hv : Off v) (hsets : SetsState s t p v) (hmy : t.myproc c = s.myproc c)
      (hnew : leaving new = true) (hclaims : claims new = claims old)
      (hzombie : .exit .zombie ∈ new → .exit .zombie ∈ old ∨ v = .zombie)
      (hexp : expects new = none)
  | wake (i : Slot) (hi : (s.proc i).state = .sleeping) (hsets : SetsState s t i .runnable)
      (hmy : t.myproc c = s.myproc c) (hshape : SameShape old new) (hexp : expects new = none)
  | alloc (i : Slot) (hi : (s.proc i).state = .unused) (hheld : .proc i ∈ heldBy s c)
      (hsets : SetsState s t i .used) (hmy : t.myproc c = s.myproc c)
      (hctx : t.stack (.proc i) = newStack) (hleave : leaving new = leaving old)
      (hcur : (s.cur c).isSome) (hclaims : ∀ j ∈ claims new, j = i ∨ j ∈ claims old)
      (hzombie : .exit .zombie ∈ new → .exit .zombie ∈ old) (hexp : expects new = none)
  | start (i : Slot) (hclaims : claims old = i :: claims new) (hnew : claims new = [])
      (hsets : SetsState s t i .runnable) (hmy : t.myproc c = s.myproc c)
      (hcur : (s.cur c).isSome) (hleave : leaving new = leaving old)
      (hzombie : .exit .zombie ∈ new → .exit .zombie ∈ old) (hexp : expects new = none)
  | free (i : Slot) (hi : (s.proc i).state = .zombie ∨ (s.proc i).state = .unused)
      (hheld : .proc i ∈ heldBy s c) (hcur : (s.cur c).isSome) (hleave : leaving old = false)
      (hsets : SetsState s t i .unused) (hmy : t.myproc c = s.myproc c)
      (hshape : SameShape old new) (hexp : expects new = none)

/-! ## Segments of code -/

section Segments

variable {s : State n} {c : Fin n} {p : Slot} {ws : List Write} {fs rest : Stack}

/-- The assignments that `ProcInv` does not see. -/
def plain : Write → Bool
  | .state _ _ | .context _ | .cpuProc _ => false
  | _ => true

/-- The state after a segment that leaves the stack `new`. -/
abbrev after (s : State n) (c : Fin n) (ws : List Write) (new : Stack) : State n :=
  (s.setStack (s.thread c) new).writes c ws

attribute [local simp] plain

theorem plain_state {new : Stack} (hws : ∀ w ∈ ws, plain w = true) (i : Slot) :
    ((after s c ws new).proc i).state = (s.proc i).state := by
  have hframe : ∀ w ∈ ws, ∀ s : State n, ((s.write c w).proc i).state = (s.proc i).state := by
    intro w hw s
    have hplain := hws w hw
    cases w with
    | state j v => simp at hplain
    | _ =>
      simp only [State.write, State.modifyProc_apply, State.setStack_proc, State.setCpu_proc]
      try (split <;> rfl)
  exact State.writes_frame (fun s : State n => (s.proc i).state) hframe _

theorem plain_myproc {new : Stack} (hws : ∀ w ∈ ws, plain w = true) :
    (after s c ws new).myproc c = s.myproc c := by
  have hframe : ∀ w ∈ ws, ∀ s : State n, (s.write c w).myproc c = s.myproc c := by
    intro w hw s
    have hplain := hws w hw
    cases w with
    | cpuProc v => simp at hplain
    | _ => simp [State.write, State.myproc]
  exact State.writes_frame (fun s : State n => s.myproc c) hframe _

theorem Effect.of_plain {old new : Stack} (hws : ∀ w ∈ ws, plain w = true)
    (hshape : SameShape old new) (hexp : ∀ e ∈ expects new, (s.proc e.1).state = e.2) :
    Effect s (after s c ws new) c old new :=
  .quiet (plain_state hws) (plain_myproc hws) hshape hexp

theorem Effect.silent {old new : Stack} (hws : ∀ w ∈ ws, plain w = true)
    (hshape : SameShape old new) (hexp : expects new = none) :
    Effect s (after s c ws new) c old new :=
  .of_plain hws hshape (by simp [hexp])

theorem loteriaSeg_effect {pc : LoteriaPc} (h : LoteriaSeg s pc ws fs)
    (hst : s.stack (s.thread c) = .loteria pc :: rest) (hwf : Wf (s.cur c) (.loteria pc :: rest)) :
    Effect s (after s c ws (fs ++ rest)) c (.loteria pc :: rest) (fs ++ rest) := by
  rcases hwf with ⟨⟨hcur, rfl⟩, -, -⟩
  cases h with
  | @dispatch cl start i hstate hclasse =>
    refine .dispatch (slotAt (start + i)) hstate (by simp [heldBy, hst]) hcur rfl ?_ ?_ ?_
    · exact ⟨by simp, fun j hj => by simp [hj]⟩
    · simp
    · exact ⟨_, rfl, .inl ⟨cl, rfl⟩⟩
  | @back cl idx =>
    refine .back idx hcur (.inl ⟨cl, rfl⟩) ?_ ?_ rfl rfl rfl
    · simp
    · simp
  | _ =>
    refine .silent (by simp) ?_ rfl
    constructor <;> first | rfl | simp

theorem strideSeg_effect {pc : StridePc} (h : StrideSeg s pc ws fs)
    (hst : s.stack (s.thread c) = .stride pc :: rest) (hwf : Wf (s.cur c) (.stride pc :: rest))
    (hexp : ∀ e ∈ expects (.stride pc :: rest), (s.proc e.1).state = e.2) :
    Effect s (after s c ws (fs ++ rest)) c (.stride pc :: rest) (fs ++ rest) := by
  have hnone : s.cur c = none ∧ rest = [] := by
    rcases hwf with ⟨hok, -, -⟩
    cases pc <;> simp_all [Frame.Ok]
  rcases hnone with ⟨hcur, rfl⟩
  cases h with
  | @dispatch i b hi =>
    refine .dispatch b (hexp (b, .runnable) rfl) (by simp [heldBy, hst]) hcur rfl ?_ ?_ ?_
    · exact ⟨by simp, fun j hj => by simp [hj]⟩
    · simp
    · exact ⟨_, rfl, .inr rfl⟩
  | @back b =>
    refine .back b hcur (.inr rfl) ?_ ?_ rfl rfl rfl
    · intro j
      by_cases hj : j = b <;> simp [hj]
    · simp
  | _ =>
    refine .of_plain (by simp) ?_ (by simp_all)
    constructor <;> first | rfl | simp

theorem schedSeg_effect {pc : SchedPc} (h : SchedSeg s c pc ws fs) (hcur : s.cur c = some p)
    (hp : s.myproc c = some p) (hwf : Wf (some p) (.sched pc :: rest)) :
    Effect s (after s c ws (fs ++ rest)) c (.sched pc :: rest) (fs ++ rest) := by
  rcases hwf with ⟨hok, hcov, hrest⟩
  have hcov' : leaving rest = false ∧ expects rest = none ∧ target rest = none := by
    simpa using ⟨hcov.2.2.1, hcov.2.2.2, hcov.2.1⟩
  rcases hcov' with ⟨hleave, hexp, htarget⟩
  have hent := entering_of_target_none htarget
  cases h with
  | @yield q hq =>
    have hqp : q = p := by simpa [hp] using hq.symm
    subst hqp
    refine .leave q .runnable hcur rfl (.inl rfl) ?_ ?_ rfl (by simp) (by simp) rfl
    · exact ⟨by simp, fun j hj => by simp [hj]⟩
    · simp
  | @sleepReleased q ch lk hq =>
    have hqp : q = p := by simpa [hp] using hq.symm
    subst hqp
    refine .leave q .sleeping hcur rfl (.inr (.inl rfl)) ?_ ?_ rfl (by simp) (by simp) rfl
    · exact ⟨by simp, fun j hj => by simp [hj]⟩
    · simp
  | _ =>
    refine .silent (by simp) ?_ (by first | rfl | exact hexp)
    constructor <;> first | rfl | assumption | simp

theorem wakeSeg_effect {pc : WakePc} (h : WakeSeg s c pc ws fs)
    (hwf : Wf (s.cur c) (.wake pc :: rest)) :
    Effect s (after s c ws (fs ++ rest)) c (.wake pc :: rest) (fs ++ rest) := by
  rcases hwf with ⟨hok, hcov, hrest⟩
  have hcov' : leaving rest = false ∧ expects rest = none ∧ target rest = none := by
    simpa using ⟨hcov.2.2.1, hcov.2.2.2, hcov.2.1⟩
  rcases hcov' with ⟨hleave, hexp, htarget⟩
  have hent := entering_of_target_none htarget
  cases h with
  | @wakeup ch i hstate hchan =>
    refine .wake i hstate ?_ ?_ ?_ rfl
    · exact ⟨by simp, fun j hj => by simp [hj]⟩
    · simp
    · constructor <;> first | rfl | simp
  | @killSleeper pid i hpid hstate =>
    refine .wake i hstate ?_ ?_ ?_ rfl
    · exact ⟨by simp, fun j hj => by simp [hj]⟩
    · simp
    · constructor <;> first | rfl | simp
  | _ =>
    refine .silent (by simp) ?_ (by first | rfl | exact hexp)
    constructor <;> first | rfl | assumption | simp

theorem forkSeg_effect {pc : ForkPc} (h : ForkSeg s c pc ws fs)
    (hst : s.stack (s.thread c) = .fork pc :: rest) (hcur : s.cur c = some p)
    (hwf : Wf (some p) (.fork pc :: rest)) (hnd : (held (some p) (.fork pc :: rest)).Nodup)
    (hexp : ∀ e ∈ expects (.fork pc :: rest), (s.proc e.1).state = e.2) :
    Effect s (after s c ws (fs ++ rest)) c (.fork pc :: rest) (fs ++ rest) := by
  rcases hwf with ⟨⟨-, hheld, hclaims⟩, hcov, hrest⟩
  have hsome : (s.cur c).isSome := by simp [hcur]
  cases h with
  | @noMemory call i pid =>
    refine .free i (.inr (hexp (i, .unused) rfl)) (by simp [heldBy, hst, hcur]) hsome rfl
      ?_ ?_ ?_ rfl
    · exact ⟨by simp, fun j hj => by simp [hj]⟩
    · simp
    · constructor <;> first | rfl | simp
  | @noCopy cls i pid =>
    refine .free i (.inr (hexp (i, .unused) rfl)) (by simp [heldBy, hst, hcur]) hsome rfl
      ?_ ?_ ?_ rfl
    · exact ⟨by simp, fun j hj => by simp [hj]⟩
    · simp
    · constructor <;> first | rfl | simp
  | @noCopyPrio prio i pid =>
    refine .alloc i (hexp (i, .unused) rfl) (by simp [heldBy, hst, hcur]) ?_ ?_ ?_ rfl hsome
      (by simp [hclaims]) (by simp) rfl
    · exact ⟨by simp, fun j hj => by simp [hj]⟩
    · simp
    · simp [Write.onContext]
  | @allocated call i pid =>
    refine .alloc i (hexp (i, .unused) rfl) (by simp [heldBy, hst, hcur]) ?_ ?_ ?_ rfl hsome
      (by simp) (by simp) rfl
    · cases call <;> exact ⟨by simp, fun j hj => by simp [hj]⟩
    · cases call <;> simp
    · cases call <;> simp [Write.onContext]
  | @setRunnable i pid =>
    refine .start i (by simp) (by simpa using hclaims) ?_ ?_ hsome (by simp) (by simp) rfl
    · exact ⟨by simp, fun j hj => by simp [hj]⟩
    · simp
  | copyFailed => simp at hnd
  | _ =>
    refine .of_plain (by simp) ?_ (by simp_all)
    constructor <;> first | rfl | simp

theorem exitSeg_effect {pc : ExitPc} (h : ExitSeg s c pc ws fs) (hcur : s.cur c = some p)
    (hp : s.myproc c = some p) :
    Effect s (after s c ws (fs ++ rest)) c (.exit pc :: rest) (fs ++ rest) := by
  cases h with
  | @locked q status hq =>
    have hqp : q = p := by simpa [hp] using hq.symm
    subst hqp
    refine .leave q .zombie hcur rfl (.inr (.inr rfl)) ?_ ?_ rfl (by simp) (by simp) rfl
    · exact ⟨by simp, fun j hj => by simp [hj]⟩
    · simp
  | _ =>
    refine .silent (by simp) ?_ rfl
    constructor <;> first | rfl | simp

theorem waitSeg_effect {pc : WaitPc} (h : WaitSeg s c pc ws fs)
    (hst : s.stack (s.thread c) = .wait pc :: rest) (hcur : s.cur c = some p) :
    Effect s (after s c ws (fs ++ rest)) c (.wait pc :: rest) (fs ++ rest) := by
  have hsome : (s.cur c).isSome := by simp [hcur]
  cases h with
  | @reap q i addr hq hstate =>
    refine .free i (.inl hstate) (by simp [heldBy, hst, hcur]) hsome rfl
      ?_ ?_ ?_ rfl
    · exact ⟨by simp, fun j hj => by simp [hj]⟩
    · simp
    · constructor <;> first | rfl | simp
  | _ =>
    refine .silent (by simp) ?_ rfl
    constructor <;> first | rfl | simp

theorem trapSeg_effect {pc : TrapPc} (h : TrapSeg s c pc ws fs)
    (hwf : Wf (s.cur c) (.trap pc :: rest)) :
    Effect s (after s c ws (fs ++ rest)) c (.trap pc :: rest) (fs ++ rest) := by
  rcases hwf with ⟨hok, hcov, hrest⟩
  have hcov' : leaving rest = false ∧ expects rest = none ∧ target rest = none := by
    simpa using ⟨hcov.2.2.1, hcov.2.2.2, hcov.2.1⟩
  rcases hcov' with ⟨hleave, hexp, htarget⟩
  have hent := entering_of_target_none htarget
  cases h with
  | @call q call hq hkilled =>
    refine .silent (by simp) ?_ (by cases call <;> rfl)
    constructor <;> cases call <;> first | rfl | simp
  | _ =>
    refine .silent (by simp) ?_ (by first | rfl | exact hexp)
    constructor <;> first | rfl | assumption | simp

/-- Every segment falls into one of the classes. -/
theorem seg_effect {f : Frame} (hl : LockInv s) (hp : ProcInv s)
    (hst : s.stack (s.thread c) = f :: rest) (h : Seg s c f ws fs) :
    Effect s (after s c ws (fs ++ rest)) c (f :: rest) (fs ++ rest) := by
  have hwf : Wf (s.cur c) (f :: rest) := by
    rw [← hst]
    exact hl.wf_thread c
  have hexp : ∀ e ∈ expects (f :: rest), (s.proc e.1).state = e.2 := by
    rw [← hst]
    exact hp.expect c
  have hself : (s.cur c).isSome → ∃ p, s.cur c = some p ∧ s.myproc c = some p := by
    intro hsome
    rcases Option.isSome_iff_exists.1 hsome with ⟨p, hcur⟩
    exact ⟨p, hcur, hp.myproc_of_cur hcur⟩
  cases h with
  | ret =>
    rcases hwf with ⟨-, hcov, -⟩
    have hent := entering_of_target_none hcov.2.1
    refine .silent (by simp) ?_ hcov.2.2.2
    constructor <;> first | rfl | simp_all
  | loteria h => exact loteriaSeg_effect h hst hwf
  | stride h => exact strideSeg_effect h hst hwf hexp
  | @sched pc _ _ h =>
    have hsome : (s.cur c).isSome := by
      rcases hwf with ⟨hok, -, -⟩
      cases pc <;> exact hok.1
    rcases hself hsome with ⟨p, hcur, hmy⟩
    rw [hcur] at hwf
    exact schedSeg_effect h hcur hmy hwf
  | wake h => exact wakeSeg_effect h hwf
  | fork h =>
    rcases hself hwf.1.1 with ⟨p, hcur, -⟩
    have hnd := hl.nodup c
    rw [heldBy, hst, hcur] at hnd
    rw [hcur] at hwf
    exact forkSeg_effect h hst hcur hwf hnd hexp
  | exit h =>
    rcases hself hwf.1.1 with ⟨p, hcur, hmy⟩
    exact exitSeg_effect h hcur hmy
  | wait h =>
    rcases hself hwf.1.1 with ⟨p, hcur, -⟩
    exact waitSeg_effect h hst hcur
  | trap h => exact trapSeg_effect h hwf

/-- Only `allocproc` prepares a context, for the slot it has found. -/
theorem seg_context {f : Frame} {i : Slot} (h : Seg s c f ws fs) (hi : .context i ∈ ws) :
    ∃ call pid, f = .fork (.allocFound call i pid) := by
  cases h with
  | fork h =>
    cases h with
    | @allocated call =>
      cases call <;> simp at hi <;> simp [hi]
    | _ => simp_all
  | loteria h => cases h <;> simp at hi
  | stride h => cases h <;> simp at hi
  | sched h => cases h <;> simp at hi
  | wake h => cases h <;> simp at hi
  | exit h => cases h <;> simp at hi
  | wait h => cases h <;> simp at hi
  | trap h => cases h <;> simp at hi
  | ret => simp at hi

theorem onContext_of_notMem {i : Slot} {st : Stack} (hi : .context i ∉ ws) :
    ws.foldl (fun st w => w.onContext i st) st = st := by
  induction ws generalizing st with
  | nil => rfl
  | cons w ws ih =>
    have hw : w.onContext i st = st := by
      cases w <;> simp_all [Write.onContext]
    simpa [hw] using ih (fun h => hi (List.mem_cons_of_mem w h))

theorem onContext_mem (ws : List Write) (i : Slot) (st : Stack) :
    ws.foldl (fun st w => w.onContext i st) st = st ∨
      ws.foldl (fun st w => w.onContext i st) st = newStack := by
  induction ws generalizing st with
  | nil => exact .inl rfl
  | cons w ws ih =>
    have hw : w.onContext i st = st ∨ w.onContext i st = newStack := by
      cases w <;> simp only [Write.onContext, true_or]
      split <;> simp
    rcases hw with hw | hw <;> simp only [List.foldl_cons, hw]
    · exact ih st
    · rcases ih newStack with h | h <;> exact .inr h

theorem seg_acts {f : Frame} (hp : ProcInv s) (hst : s.stack (s.thread c) = f :: rest)
    (h : Seg s c f ws fs) : Acts s (after s c ws (fs ++ rest)) c (fs ++ rest) := by
  -- the slot that `allocproc` prepares is still `UNUSED`
  have hfree : ∀ i, .context i ∈ ws → ∀ d, s.cur d ≠ some i := by
    intro i hi d
    rcases seg_context h hi with ⟨call, pid, rfl⟩
    exact hp.cur_ne (.inl (hp.expect c (i, .unused) (by rw [hst]; rfl)))
  refine ⟨State.writes_cur _ c ws, fun d hd => State.writes_cpu_of_ne _ hd ws, ?_, ?_⟩
  · cases hcur : s.cur c with
    | none => simp [State.thread_of_cur_none hcur]
    | some p =>
      have hmem : .context p ∉ ws := fun hi => hfree p hi c hcur
      simp [State.thread_of_cur_some hcur, onContext_of_notMem hmem]
  · intro u hu
    cases u with
    | hart d => exact .inl (by simp [hu])
    | proc i =>
      by_cases hi : .context i ∈ ws
      · rcases onContext_mem ws i (s.stack (.proc i)) with hst' | hst'
        · exact .inl (by simp [hu, hst'])
        · exact .inr ⟨i, rfl, hfree i hi, by simp [hu, hst']⟩
      · exact .inl (by simp [hu, onContext_of_notMem hi])

end Segments

end Xv6Schedulers.Locking
