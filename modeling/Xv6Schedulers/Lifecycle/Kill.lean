import Xv6Schedulers.Lifecycle.KillCall
import Xv6Schedulers.Sched.Account
import Xv6Schedulers.Kernel.Solo

/-!
# Kill — which process `kill` reaches

`kill` sets `p->killed`, `freeproc` clears it, and `allocproc` leaves it alone.  So a mark that
`kill(0)` leaves on a free slot is inherited by the next process created there.

* `Marking` says what a segment of code does to the mark of a slot;
* `KillInv` holds in runs in which no `kill` marks an `UNUSED` slot: a process is marked only by a
  `kill` with its own `pid` or for a fault of its own;
* `kill_reaches_named` puts this together with the contract of a single call.
-/

namespace Xv6Schedulers.Lifecycle

open Kernel Locking Lib Sched

variable {n : Nat}

/-! ## Who marked a process -/

/-- A `kill` with this `pid` has marked the present occupant of slot `i`. -/
def killedAs (i : Slot) (pid : Int32) : List Event → Bool
  | [] => false
  | .create j _ _ _ _ :: tr => if j = i then false else killedAs i pid tr
  | .kill j q :: tr => (decide (j = i) && decide (q = pid)) || killedAs i pid tr
  | _ :: tr => killedAs i pid tr

/-- The present occupant of slot `i` has had a fault. -/
def faulted (i : Slot) : List Event → Bool
  | [] => false
  | .create j _ _ _ _ :: tr => if j = i then false else faulted i tr
  | .fault j :: tr => decide (j = i) || faulted i tr
  | _ :: tr => faulted i tr

/-- `p->killed` and `p->pid` of a slot, with the history of its occupant. -/
@[ext] structure Mark where
  killed : Int32
  pid : Int32
  killedAs : Int32 → Bool
  faulted : Bool

def mark (s : State n) (i : Slot) : Mark where
  killed := (s.proc i).killed
  pid := (s.proc i).pid
  killedAs := fun q => killedAs i q s.trace
  faulted := faulted i s.trace

/-- The occupant was marked by a `kill` with its own `pid`, or for a fault of its own. -/
def Mark.Blamed (m : Mark) : Prop := m.killedAs m.pid = true ∨ m.faulted = true

/-- What a segment of code does to the mark of slot `i`. -/
inductive Marking (s t : State n) (c : Fin n) (i : Slot) : Frame → Prop
  | kept {f : Frame} (hmark : mark t i = mark s i)
      (hunused : (t.proc i).state = .unused → (s.proc i).state = .unused) : Marking s t c i f
  | cleared {f : Frame} (hkilled : (t.proc i).killed = 0)
      (hunused : (t.proc i).state = .unused)
      (hfaulted : (mark t i).faulted = (mark s i).faulted) : Marking s t c i f
  | filled {call : ForkCall} {pid : Int32} (hkilled : (t.proc i).killed = (s.proc i).killed)
      (hused : (t.proc i).state = .used) (hstack : t.stack (.proc i) = newStack) :
      Marking s t c i (.fork (.allocFound call i pid))
  | killed {pid : Int32} (hpid : (s.proc i).pid = pid)
      (hunused : (t.proc i).state = .unused → (s.proc i).state = .unused)
      (hmark : mark t i = { mark s i with
        killed := 1
        killedAs := fun q => decide (pid = q) || (mark s i).killedAs q }) :
      Marking s t c i (.wake (.killLocked pid i))
  | setkilled (hp : s.myproc c = some i)
      (hunused : (t.proc i).state = .unused → (s.proc i).state = .unused)
      (hmark : mark t i = { mark s i with killed := 1 }) : Marking s t c i (.wake .setkilledLocked)
  | fault (hunused : (t.proc i).state = .unused → (s.proc i).state = .unused)
      (hmark : mark t i = { mark s i with faulted := true }) : Marking s t c i (.trap .user)

/-- The assignments that leave every mark alone and free no slot. -/
def calm : Write → Bool
  | .killed _ _ | .pid _ _ | .state _ .unused => false
  | .event (.create _ _ _ _ _) | .event (.kill _ _) | .event (.fault _) => false
  | _ => true

attribute [local simp] calm faulted killedAs mark

section Segments

variable {s : State n} {c : Fin n} {ws : List Write} {fs : Stack}

theorem calm_mark {new : Stack} (hws : ∀ w ∈ ws, calm w = true) (i : Slot) :
    mark (after s c ws new) i = mark s i := by
  have hframe : ∀ w ∈ ws, ∀ s : State n, mark (s.write c w) i = mark s i := by
    intro w hw s
    have hcalm := hws w hw
    cases w with
    | killed => simp at hcalm
    | pid => simp at hcalm
    | event e =>
      cases e with
      | create => simp at hcalm
      | kill => simp at hcalm
      | fault => simp at hcalm
      | _ => rfl
    | _ =>
      simp only [State.write, mark, State.modifyProc_apply, State.setStack_proc,
        State.setCpu_proc, State.setStack_trace, State.setCpu_trace, State.modifyProc_trace]
      try (split <;> rfl)
  exact State.writes_frame (fun s : State n => mark s i) hframe _

theorem calm_unused {new : Stack} (hws : ∀ w ∈ ws, calm w = true) (i : Slot)
    (h : ((after s c ws new).proc i).state = .unused) : (s.proc i).state = .unused := by
  have hfold : ∀ (ws : List Write) (p : Proc), (∀ w ∈ ws, calm w = true) →
      (ws.foldl (fun p w => w.onProc i p) p).state = .unused → p.state = .unused := by
    intro ws
    induction ws with
    | nil => exact fun _ _ hp => hp
    | cons w ws ih =>
      intro p hws hp
      have hnext := ih _ (fun v hv => hws v (List.mem_cons_of_mem w hv)) hp
      have hcalm := hws w List.mem_cons_self
      cases w with
      | state j v =>
        simp only [Write.onProc] at hnext
        split at hnext
        · have hv : v = .unused := hnext
          simp [hv] at hcalm
        · exact hnext
      | _ =>
        simp only [Write.onProc] at hnext
        first
          | exact hnext
          | (split at hnext <;> exact hnext)
  refine hfold ws _ hws ?_
  simpa using h

theorem Marking.of_calm {f : Frame} {new : Stack} (hws : ∀ w ∈ ws, calm w = true) (i : Slot) :
    Marking s (after s c ws new) c i f :=
  .kept (calm_mark hws i) (calm_unused hws i)

theorem Marking.of_same {t : State n} {f : Frame} {i : Slot} (hproc : t.proc i = s.proc i)
    (hkilled : ∀ q, killedAs i q t.trace = killedAs i q s.trace)
    (hfaulted : faulted i t.trace = faulted i s.trace) : Marking s t c i f := by
  refine .kept ?_ (fun h => by rwa [hproc] at h)
  simp [hproc, hkilled, hfaulted]

theorem wakeSeg_marking {pc : WakePc} {new : Stack} (h : WakeSeg s c pc ws fs) (i : Slot) :
    Marking s (after s c ws new) c i (.wake pc) := by
  cases h with
  | @killSleeper pid j hpid hstate =>
    by_cases hij : i = j
    · subst hij
      refine .killed hpid (by simp) ?_
      ext <;> simp
    · refine .of_same (by simp [hij]) ?_ ?_
      · simp [Ne.symm hij]
      · simp
  | @kill pid j hpid hstate =>
    by_cases hij : i = j
    · subst hij
      refine .killed hpid (by simp) ?_
      ext <;> simp
    · refine .of_same (by simp [hij]) ?_ ?_
      · simp [Ne.symm hij]
      · simp
  | @setkilled p hp =>
    by_cases hip : i = p
    · subst hip
      refine .setkilled hp (by simp) ?_
      ext <;> simp
    · exact .of_same (by simp [hip]) (by simp) (by simp)
  | _ => exact .of_calm (by simp) i

theorem created_elsewhere {i j : Slot} (hij : i ≠ j) (p : Proc) (call : ForkCall)
    (tr : List Event) :
    (∀ q, killedAs i q (call.created j p :: tr) = killedAs i q tr) ∧
      faulted i (call.created j p :: tr) = faulted i tr := by
  cases call <;> simp [ForkCall.created, Ne.symm hij]

theorem forkSeg_marking {pc : ForkPc} {new : Stack} (h : ForkSeg s c pc ws fs) (i : Slot) :
    Marking s (after s c ws new) c i (.fork pc) := by
  cases h with
  | @noMemory call j pid =>
    by_cases hij : i = j
    · subst hij
      refine .cleared ?_ ?_ ?_ <;> simp
    · exact .of_same (by simp [hij]) (by simp) (by simp)
  | @noCopy cls j pid =>
    by_cases hij : i = j
    · subst hij
      refine .cleared ?_ ?_ ?_ <;> simp
    · exact .of_same (by simp [hij]) (by simp) (by simp)
  | @noCopyPrio prio j pid =>
    by_cases hij : i = j
    · subst hij
      refine .filled ?_ ?_ ?_ <;> simp [Write.onContext]
    · exact .of_same (by simp [hij]) (by simp) (by simp)
  | @allocated call j pid =>
    by_cases hij : i = j
    · subst hij
      cases call <;> refine .filled ?_ ?_ ?_ <;> simp [Write.onContext]
    · have helse := created_elsewhere hij (s.proc j) call s.trace
      cases call <;> exact .of_same (by simp [hij]) (by simpa using helse.1)
          (by simpa using helse.2)
  | @copyFailed j =>
    by_cases hij : i = j
    · subst hij
      refine .cleared ?_ ?_ ?_ <;> simp
    · exact .of_same (by simp [hij]) (by simp) (by simp)
  | _ => exact .of_calm (by simp) i

theorem seg_marking {f : Frame} {new : Stack} (h : Seg s c f ws fs) (i : Slot) :
    Marking s (after s c ws new) c i f := by
  cases h with
  | ret => exact .of_calm (by simp) i
  | loteria h => cases h <;> exact .of_calm (by simp) i
  | stride h => cases h <;> exact .of_calm (by simp) i
  | sched h => cases h <;> exact .of_calm (by simp) i
  | wake h => exact wakeSeg_marking h i
  | fork h => exact forkSeg_marking h i
  | exit h => cases h <;> exact .of_calm (by simp) i
  | wait h =>
    cases h with
    | @reap p j addr hp hstate =>
      by_cases hij : i = j
      · subst hij
        refine .cleared ?_ ?_ ?_ <;> simp
      · exact .of_same (by simp [hij]) (by simp) (by simp)
    | _ => exact .of_calm (by simp) i
  | trap h =>
    cases h with
    | @fault p hp =>
      by_cases hip : i = p
      · subst hip
        refine .fault (by simp) ?_
        ext <;> simp
      · exact .of_same (by simp) (by simp) (by simp [Ne.symm hip])
    | _ => exact .of_calm (by simp) i

/-- `setkilled` is called only for a fault of the process itself. -/
theorem seg_setkilled {f : Frame} {new : Stack} (h : Seg s c f ws fs)
    (hmem : .wake .setkilledLocked ∈ fs) :
    ∃ p, s.myproc c = some p ∧ faulted p (after s c ws new).trace = true := by
  cases h with
  | ret => simp at hmem
  | loteria h => cases h <;> simp at hmem
  | stride h => cases h <;> simp at hmem
  | sched h => cases h <;> simp at hmem
  | wake h => cases h <;> simp at hmem
  | fork h => cases h <;> simp at hmem
  | exit h => cases h <;> simp at hmem
  | wait h => cases h <;> simp at hmem
  | trap h =>
    cases h with
    | @fault p hp => exact ⟨p, hp, by simp⟩
    | @call p call => cases call <;> simp at hmem
    | _ => simp at hmem

end Segments

/-! ## Runs without a stray `kill` -/

/-- The step does not mark an `UNUSED` slot. -/
def MarksLive : Machine.Guard (State n) (Fin n × Choice) := fun s a _ =>
  ∀ pid i rest, s.stack (s.thread a.1) = .wake (.killLocked pid i) :: rest →
    (s.proc i).pid = pid → (s.proc i).state ≠ .unused

/-- Free slots are not marked, and whoever is marked is to blame for it. -/
structure KillInv (s : State n) : Prop where
  inv : Inv s
  unused : ∀ i, (s.proc i).state = .unused → (s.proc i).killed = 0
  live : ∀ i, Tracked s i → (s.proc i).killed ≠ 0 → (mark s i).Blamed
  fault : ∀ p, .wake .setkilledLocked ∈ s.stack (.proc p) → faulted p s.trace = true

section Runs

variable {s t : State n} {c : Fin n}

theorem killInv_still (h : KillInv s) (hinv : Inv t) (hstill : Still s t) : KillInv t := by
  have hmark : ∀ i, mark t i = mark s i := by
    intro i
    simp [hstill.proc, hstill.trace]
  refine ⟨hinv, by simpa [hstill.proc] using h.unused, ?_, ?_⟩
  · intro i hi
    have htracked : Tracked s i := by
      rcases hi with hl | ⟨u, hu⟩
      · exact .inl (by rwa [hstill.proc] at hl)
      · refine .inr ⟨u, ?_⟩
        rwa [← claims_core, hstill.core u, claims_core] at hu
    rw [hmark, hstill.proc]
    exact h.live i htracked
  · intro p hp
    rw [hstill.trace]
    refine h.fault p ?_
    rwa [← mem_core (by rfl), hstill.core, mem_core (by rfl)] at hp

/-- `setkilled` runs in the thread of the process it marks. -/
theorem cur_of_setkilled {rest : Stack} {p : Slot} (h : Inv s)
    (hst : s.stack (s.thread c) = .wake .setkilledLocked :: rest) (hp : s.myproc c = some p) :
    s.cur c = some p := by
  have hsome := (h.wf_stack hst).1.1
  rcases Option.isSome_iff_exists.1 hsome with ⟨q, hq⟩
  have hmy := h.proc.myproc_of_cur hq
  rw [hp] at hmy
  rw [hq, hmy]

theorem killInv_seg {f : Frame} {rest : Stack} {ws : List Write} {fs : Stack} (h : KillInv s)
    (hrun : (s.cpu c).panicked = none) (hst : s.stack (s.thread c) = f :: rest)
    (hseg : Seg s c f ws fs)
    (hguard : ∀ pid i, f = .wake (.killLocked pid i) → (s.proc i).pid = pid →
      (s.proc i).state ≠ .unused) :
    KillInv (after s c ws (fs ++ rest)) := by
  have hacts := seg_acts h.inv.proc hst hseg
  have hmarking : ∀ i, Marking s (after s c ws (fs ++ rest)) c i f := fun i => seg_marking hseg i
  -- a slot that is tracked after the segment was tracked before it, or was free
  have htracked : ∀ i, Tracked (after s c ws (fs ++ rest)) i →
      Tracked s i ∨ (s.proc i).killed = 0 := by
    intro i hi
    rcases tracked_of_effect h.inv.proc hacts hst (seg_effect h.inv.lock h.inv.proc hst hseg) hi
      with htr | ⟨-, hfree⟩
    · exact .inl htr
    · exact .inr (h.unused i hfree)
  refine ⟨seg_inv h.inv hrun hst hseg, ?_, ?_, ?_⟩
  · intro i hi
    cases hmarking i with
    | kept hmark hunused =>
      have hkilled := congrArg Mark.killed hmark
      exact hkilled.trans (h.unused i (hunused hi))
    | cleared hkilled _ _ => exact hkilled
    | filled _ hused _ =>
      rw [hused] at hi
      cases hi
    | killed hpid hunused _ => exact absurd (hunused hi) (hguard _ i rfl hpid)
    | setkilled hp hunused _ => exact absurd hp (h.inv.proc.myproc_ne (.inl (hunused hi)))
    | fault hunused hmark =>
      have hkilled := congrArg Mark.killed hmark
      exact hkilled.trans (h.unused i (hunused hi))
  · intro i hi hmarked
    -- the segment did not mark the slot itself
    have hbefore : ((after s c ws (fs ++ rest)).proc i).killed = (s.proc i).killed →
        (mark s i).Blamed := by
      intro hsame
      rw [hsame] at hmarked
      rcases htracked i hi with htr | hzero
      · exact h.live i htr hmarked
      · exact absurd hzero hmarked
    cases hmarking i with
    | kept hmark _ =>
      rw [hmark]
      exact hbefore (congrArg Mark.killed hmark)
    | cleared hkilled _ _ => exact absurd hkilled hmarked
    | filled hkilled _ _ =>
      have hfree := h.inv.proc.expect c (i, .unused) (by rw [hst]; rfl)
      rw [hkilled] at hmarked
      exact absurd (h.unused i hfree) hmarked
    | killed hpid _ hmark =>
      rw [hmark]
      refine .inl ?_
      simp [hpid]
    | setkilled hp _ hmark =>
      rw [hmark]
      refine .inr (h.fault i ?_)
      have hcur := cur_of_setkilled h.inv hst hp
      rw [← State.thread_of_cur_some hcur, hst]
      exact List.mem_cons_self
    | fault _ hmark =>
      rw [hmark]
      exact .inr rfl
  · intro p hp
    -- no segment takes a fault back, unless it starts a new process in the slot
    have hkeep : faulted p s.trace = true → faulted p (after s c ws (fs ++ rest)).trace = true := by
      intro hfault
      cases hmarking p with
      | kept hmark _ => exact (congrArg Mark.faulted hmark).trans hfault
      | cleared _ _ hfaulted => exact hfaulted.trans hfault
      | filled _ _ hstack => simp [hstack, newStack] at hp
      | killed _ _ hmark => exact (congrArg Mark.faulted hmark).trans hfault
      | setkilled _ _ hmark => exact (congrArg Mark.faulted hmark).trans hfault
      | fault _ hmark => exact congrArg Mark.faulted hmark
    by_cases hself : Thread.proc p = s.thread c
    · rw [hself, hacts.self, List.mem_append] at hp
      rcases hp with hnew | hold
      · rcases seg_setkilled hseg hnew with ⟨q, hq, hfault⟩
        have hcur : s.cur c = some p := by
          have hthread := thread_self s c
          rw [← hself] at hthread
          exact hthread.symm
        have hpq : p = q := by
          have hmy := h.inv.proc.myproc_of_cur hcur
          rw [hq] at hmy
          exact (Option.some.inj hmy).symm
        subst hpq
        exact hfault
      · refine hkeep (h.fault p ?_)
        rw [hself, hst]
        exact List.mem_cons_of_mem f hold
    · rcases hacts.other _ hself with heq | ⟨i, -, -, heq⟩
      · rw [heq] at hp
        exact hkeep (h.fault p hp)
      · simp [heq, newStack] at hp

theorem killInv_move (h : KillInv s) (hrun : (s.cpu c).panicked = none) (hm : Move s c t)
    (hguard : ∀ pid i rest, s.stack (s.thread c) = .wake (.killLocked pid i) :: rest →
      (s.proc i).pid = pid → (s.proc i).state ≠ .unused) : KillInv t := by
  have hinv := move_inv h.inv hrun hm
  rcases move_cases hm with ⟨f, rest, ws, fs, hst, hseg, rfl⟩ | hstill
  · refine killInv_seg h hrun hst hseg ?_
    rintro pid i rfl
    exact hguard pid i rest hst
  · exact killInv_still h hinv hstill

theorem boot_killInv (mode : Fin n → SchedMode) : KillInv (boot mode) := by
  have hzero : ∀ i, ((boot mode).proc i).killed = 0 := by
    intro i
    by_cases hi : i = initSlot
    · simp [boot, hi, userinitProc, Proc.zero]
    · simp [boot, hi, Proc.zero]
  refine ⟨boot_inv mode, fun i _ => hzero i, fun i _ hk => absurd (hzero i) hk, ?_⟩
  intro p hp
  have hst : (boot mode).stack (.proc p) = if p = initSlot then newStack else [] := rfl
  rw [hst] at hp
  split at hp <;> simp [newStack] at hp

end Runs

/-! ## The contract -/

/-- A call of `kill` without interference returns, and reaches exactly the process named if and
only if the first slot with that `pid` is not `UNUSED`.  In a run whose calls all do so, a process
is marked only by a `kill` with its own `pid` or for a fault of its own. -/
theorem kill_reaches_named (mode : Fin n → SchedMode) :
    (∀ s, Reachable mode s → ∀ c pid rest, (s.cpu c).panicked = none →
      (∀ i, s.locked (.proc i) = none) →
      s.stack (s.thread c) = .wake (.killNext pid 0) :: rest →
      ∃ t v, (machine n).Path (Alone c) s t ∧ t.stack (t.thread c) = .ret v :: rest ∧
        (KillsNamed s t c pid v ↔ FirstLive s pid)) ∧
    ∀ s, (machine n).Path MarksLive (boot mode) s → ∀ i, Tracked s i →
      (s.proc i).killed ≠ 0 → (mark s i).Blamed := by
  constructor
  · intro s h c pid rest hrun hfree hst
    have hinv := reachable_inv h
    have hnoff : (s.cpu c).noff = 0 := by
      have hcount := hinv.noff_stack hst hrun
      have hheld := (hinv.wf_stack hst).1.2
      simpa [hheld] using hcount
    rcases kill_returns hrun hnoff hfree hst with ⟨i, b, hi, hpath⟩ | ⟨hnone, b, hpath⟩
    · exact ⟨_, 0, hpath, resume_stack _, killsNamed_marked hi⟩
    · have hmissing := killsNamed_missing (c := c) (b := b) (.ret (-1) :: rest) hnone
      exact ⟨_, -1, hpath, resume_stack _, iff_of_true hmissing.1 hmissing.2⟩
  · intro s h
    have hkill : KillInv s := by
      refine h.invariant (boot_killInv mode) ?_
      intro s a t hs hstep hguard
      rcases step_move hstep with ⟨hrun, hm⟩
      exact killInv_move hs hrun hm hguard
    exact hkill.live

instance (s : State n) (pid : Int32) (i : Slot) : Decidable (FirstMatch s pid i) :=
  inferInstanceAs (Decidable (_ ∧ _))

instance (s : State n) (pid : Int32) : Decidable (FirstLive s pid) :=
  inferInstanceAs (Decidable (∀ _, _ → _))

def marksLive (v : Solo) : Bool :=
  match v.top with
  | .wake (.killLocked pid i) :: _ =>
      decide ((v.proc i).pid = pid → (v.proc i).state ≠ .unused)
  | _ => true

theorem marksLive_path {v w : Solo} {chs : List Choice} (h : v.run marksLive chs = some w) :
    (machine 1).Path MarksLive v.state w.state := by
  refine Solo.run_path h ?_
  intro v hv s ch t hs pid i rest hst
  rcases hs with rfl | ⟨-, -, l, rest', hspin⟩
  · rw [Solo.state_top] at hst
    simp only [marksLive, hst, decide_eq_true_eq] at hv
    exact hv
  · rw [hspin] at hst
    cases hst

/-- `init` calls `kill(pid)`, up to the head of the loop. -/
def initKills (pid : Int32) : List Choice :=
  Solo.drawInit ++ [.trap (.syscall (.kill pid))] ++ Solo.go 5

/-- `init` kills itself. -/
theorem kill_reaches_named_init :
    (∃ (s t : State 1) (v : Int32) (rest : Stack), Reachable (fun _ => .loteria) s ∧
      s.stack (s.thread 0) = .wake (.killNext 1 0) :: rest ∧
      (machine 1).Path (Alone 0) s t ∧ t.stack (t.thread 0) = .ret v :: rest ∧
      KillsNamed s t 0 1 v) ∧
    ∃ s : State 1, (machine 1).Path MarksLive (boot fun _ => .loteria) s ∧
      (s.proc initSlot).killed = 1 ∧ (mark s initSlot).Blamed := by
  constructor
  · have hrun : ((Solo.boot .loteria).run (fun _ => true) (initKills 1)).any (fun v =>
        v.top.head? = some (.wake (.killNext 1 0)) ∧ v.cpu.panicked = none ∧ v.held = [] ∧
        FirstLive v.state 1) = true := by
      decide +kernel
    rcases Solo.reaches_of_any hrun with ⟨v, hreach, htop, hpan, hheld, hlive⟩
    rcases List.head?_eq_some_iff.1 htop with ⟨rest, hrest⟩
    have hst : v.state.stack (v.state.thread 0) = .wake (.killNext 1 0) :: rest := by
      rw [Solo.state_top, hrest]
    rcases (kill_reaches_named fun _ => .loteria).1 v.state hreach 0 1 rest hpan
      (fun i => by simp [Solo.state, hheld]) hst with ⟨t, r, hpath, hret, hiff⟩
    exact ⟨v.state, t, r, rest, hreach, hst, hpath, hret, hiff.2 hlive⟩
  · have hrun : ((Solo.boot .loteria).run marksLive (initKills 1 ++ Solo.go 4)).any (fun v =>
        Live (v.proc initSlot).state ∧ (v.proc initSlot).killed = 1) = true := by
      decide +kernel
    rcases (Option.any_eq_true _ _).1 hrun with ⟨v, hv, htest⟩
    simp only [decide_eq_true_eq] at htest
    rcases htest with ⟨hlive, hkilled⟩
    have hpath := marksLive_path hv
    rw [Solo.boot_state] at hpath
    refine ⟨v.state, hpath, hkilled, ?_⟩
    refine (kill_reaches_named fun _ => .loteria).2 v.state hpath initSlot (.inl hlive) ?_
    simp [hkilled]

/-- `init` calls `kill(0)`: the call returns 0 and marks a free slot, and the process that `fork`
then creates there starts its life marked. -/
theorem kill_zero_marks_unused :
    (∃ (s t : State 1) (rest : Stack), Reachable (fun _ => .loteria) s ∧
      s.stack (s.thread 0) = .wake (.killNext 0 0) :: rest ∧
      (machine 1).Path (Alone 0) s t ∧ t.stack (t.thread 0) = .ret 0 :: rest ∧
      (∀ i, ¬ Named s 0 i) ∧ ¬ KillsNamed s t 0 0 0) ∧
    ∃ s : State 1, Reachable (fun _ => .loteria) s ∧ (s.proc (slotAt 1)).state = .runnable ∧
      birth (slotAt 1) s.trace = some ⟨.forked (.fork 0), 0, 0, 0⟩ ∧
      (s.proc (slotAt 1)).killed = 1 ∧ ¬ (mark s (slotAt 1)).Blamed := by
  constructor
  · have hrun : ((Solo.boot .loteria).run (fun _ => true) (initKills 0)).any (fun v =>
        v.top.head? = some (.wake (.killNext 0 0)) ∧ v.cpu.panicked = none ∧ v.cpu.noff = 0 ∧
        v.held = [] ∧ FirstMatch v.state 0 (slotAt 1) ∧
        (∀ i, (v.proc i).pid = 0 → (v.proc i).state = .unused)) = true := by
      decide +kernel
    rcases Solo.reaches_of_any hrun with ⟨v, hreach, htop, hpan, hnoff, hheld, hfirst, hfree⟩
    rcases List.head?_eq_some_iff.1 htop with ⟨rest, hrest⟩
    have hst : v.state.stack (v.state.thread 0) = .wake (.killNext 0 0) :: rest := by
      rw [Solo.state_top, hrest]
    have hnamed : ∀ i, ¬ Named v.state 0 i := fun i hi => hi.1 (hfree i hi.2)
    rcases kill_returns hpan hnoff (fun i => by simp [Solo.state, hheld]) hst with
      ⟨i, b, hi, hpath⟩ | ⟨hnone, -⟩
    · refine ⟨v.state, _, rest, hreach, hst, hpath, resume_stack _, hnamed, ?_⟩
      intro hkills
      rcases hkills.zero.1 rfl with ⟨j, hj⟩
      exact hnamed j hj
    · exact absurd hfirst.1 (hnone _)
  · have hrun : ((Solo.boot .loteria).run (fun _ => true) (initKills 0 ++ Solo.go 16 ++
        Solo.forkTo (.fork 0) 1)).any (fun v =>
        (v.proc (slotAt 1)).state = .runnable ∧
        birth (slotAt 1) v.trace = some ⟨.forked (.fork 0), 0, 0, 0⟩ ∧
        (v.proc (slotAt 1)).killed = 1 ∧
        killedAs (slotAt 1) (v.proc (slotAt 1)).pid v.trace = false ∧
        faulted (slotAt 1) v.trace = false) = true := by
      decide +kernel
    rcases Solo.reaches_of_any hrun with ⟨v, hreach, hstate, hbirth, hkilled, has, hfault⟩
    refine ⟨v.state, hreach, hstate, hbirth, hkilled, ?_⟩
    simp [Mark.Blamed, has, hfault]

end Xv6Schedulers.Lifecycle
