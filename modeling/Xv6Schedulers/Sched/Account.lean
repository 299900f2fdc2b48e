import Xv6Schedulers.Locking.Reachable

/-!
# Account — where the scheduling fields of a process come from

`tickets`, `stride`, `pass` and `classe` live in recycled slots of `proc[]`: `allocproc` and
`freeproc` leave them alone, `fork` sets only `classe`, `forkprio` sets all four, and the stride
scheduler adds `stride` to `pass` when a process has switched back.  This module follows a slot
through its history:

* `birth i tr` is the creation of the present occupant, `served i tr` counts its switches back;
* `Account.Founded` ties the fields of a tracked slot to them, in every reachable state.
-/

namespace Xv6Schedulers.Sched

open Kernel Locking

variable {n : Nat}

/-! ## The history of a slot -/

/-- The creation of a process: the call, and the fields it started with. -/
structure Birth where
  call : Creator
  tickets : Int32
  stride : Int32
  pass : Int32
  deriving DecidableEq, Repr

/-- The creation of the present occupant of slot `i`. -/
def birth (i : Slot) : List Event → Option Birth
  | [] => none
  | .create j call tickets stride pass :: tr =>
      if j = i then some ⟨call, tickets, stride, pass⟩ else birth i tr
  | _ :: tr => birth i tr

/-- How often the present occupant of slot `i` has been dispatched and has switched back. -/
def served (i : Slot) : List Event → Nat
  | [] => 0
  | .create j _ _ _ _ :: tr => if j = i then 0 else served i tr
  | .switchBack j :: tr => if j = i then served i tr + 1 else served i tr
  | _ :: tr => served i tr

/-- The scheduling fields of slot `i` with its history. -/
structure Account where
  tickets : Int32
  stride : Int32
  pass : Int32
  classe : Int32
  birth : Option Birth
  served : Nat

def account (s : State n) (i : Slot) : Account where
  tickets := (s.proc i).tickets
  stride := (s.proc i).stride
  pass := (s.proc i).pass
  classe := (s.proc i).classe
  birth := birth i s.trace
  served := served i s.trace

/-- `RUNNABLE`, `RUNNING`, `SLEEPING` or `ZOMBIE`. -/
def Live (v : ProcState) : Prop := v = .runnable ∨ v = .running ∨ v = .sleeping ∨ v = .zombie

instance (v : ProcState) : Decidable (Live v) := inferInstanceAs (Decidable (_ ∨ _))

/-- The slot holds a process, or one that `fork` has filled in. -/
def Tracked (s : State n) (i : Slot) : Prop := Live (s.proc i).state ∨ ∃ u, i ∈ claims (s.stack u)

/-! ## What a step does to the accounts -/

/-- The assignments that no account depends on. -/
def idle : Write → Bool
  | .classe _ _ | .stride _ _ | .pass _ _ | .tickets _ _ => false
  | .event (.create _ _ _ _ _) | .event (.switchBack _) => false
  | _ => true

/-- The classes of segments, by what they do to the accounts. -/
inductive Charge (s t : State n) : Frame → Stack → Prop
  | same {f : Frame} {fs : Stack} (hsame : ∀ i, account t i = account s i)
      (hclaims : claims fs = claims [f] ∨ claims fs = []) : Charge s t f fs
  | create {call : ForkCall} {i : Slot} {pid : Int32} {b : Birth} {fs : Stack}
      (hclaims : claims fs = [i])
      (hother : ∀ j, j ≠ i → account t j = account s j)
      (hcall : b.call = .forked call)
      (hparams : match call with
        | .fork _ => b.tickets = (s.proc i).tickets ∧ b.stride = (s.proc i).stride ∧
            b.pass = (s.proc i).pass
        | .forkprio prio => b.tickets = prioTickets prio ∧ b.stride = 10000 / prioTickets prio ∧
            b.pass = 0)
      (hnew : account t i = ⟨b.tickets, b.stride, b.pass, call.arg, some b, 0⟩) :
      Charge s t (.fork (.allocFound call i pid)) fs
  | scratch {call : ForkCall} {i : Slot} {pid : Int32} {fs : Stack}
      (hother : ∀ j, j ≠ i → account t j = account s j) (hclaims : claims fs = []) :
      Charge s t (.fork (.allocFound call i pid)) fs
  | stride {b : Slot} {fs : Stack} (hclaims : claims fs = [])
      (hother : ∀ j, j ≠ b → account t j = account s j)
      (hb : account t b = { account s b with
        pass := (s.proc b).pass + (s.proc b).stride
        served := served b s.trace + 1 }) :
      Charge s t (.stride (.back b)) fs
  | loteria {cl : Classe} {b : Slot} {fs : Stack} (hclaims : claims fs = [])
      (hother : ∀ j, j ≠ b → account t j = account s j)
      (hb : account t b = { account s b with served := served b s.trace + 1 }) :
      Charge s t (.loteria (.back cl b)) fs

attribute [local simp] account idle served birth

section Segments

variable {s : State n} {c : Fin n} {ws : List Write} {fs : Stack}

theorem idle_account {new : Stack} (hws : ∀ w ∈ ws, idle w = true) (i : Slot) :
    account (after s c ws new) i = account s i := by
  have hframe : ∀ w ∈ ws, ∀ s : State n, account (s.write c w) i = account s i := by
    intro w hw s
    have hidle := hws w hw
    cases w with
    | classe => simp at hidle
    | stride => simp at hidle
    | pass => simp at hidle
    | tickets => simp at hidle
    | event e =>
      cases e with
      | create => simp at hidle
      | switchBack => simp at hidle
      | _ => rfl
    | _ =>
      simp only [State.write, account, State.modifyProc_apply, State.setStack_proc,
        State.setCpu_proc, State.setStack_trace, State.setCpu_trace, State.modifyProc_trace]
      try (split <;> rfl)
  exact State.writes_frame (fun s : State n => account s i) hframe _

theorem seg_charge {f : Frame} (new : Stack) (h : Seg s c f ws fs) :
    Charge s (after s c ws new) f fs := by
  cases h with
  | ret => exact .same (idle_account (by simp)) (by simp)
  | loteria h =>
    cases h with
    | @back cl b =>
      refine .loteria rfl (fun j hj => ?_) ?_
      · simp [hj.symm]
      · simp
    | _ => exact .same (idle_account (by simp)) (by simp)
  | stride h =>
    cases h with
    | @back b =>
      refine .stride rfl (fun j hj => ?_) ?_
      · simp [hj, hj.symm]
      · simp
    | _ => exact .same (idle_account (by simp)) (by simp)
  | sched h => cases h <;> exact .same (idle_account (by simp)) (by simp)
  | wake h => cases h <;> exact .same (idle_account (by simp)) (by simp)
  | fork h =>
    cases h with
    | @noMemory call i pid =>
      exact .same (idle_account (by simp)) (by simp)
    | @noCopy cls i pid =>
      refine .scratch (fun j hj => ?_) rfl
      simp [hj]
    | @noCopyPrio prio i pid =>
      refine .scratch (fun j hj => ?_) rfl
      simp [hj]
    | @allocated call i pid =>
      cases call with
      | fork cls =>
        refine .create (b := ⟨.forked (.fork cls), (s.proc i).tickets, (s.proc i).stride,
          (s.proc i).pass⟩) rfl (fun j hj => ?_) rfl ⟨rfl, rfl, rfl⟩ ?_
        · simp [ForkCall.created, hj, hj.symm]
        · simp [ForkCall.created, ForkCall.arg]
      | forkprio prio =>
        refine .create (b := ⟨.forked (.forkprio prio), prioTickets prio,
          10000 / prioTickets prio, 0⟩) rfl (fun j hj => ?_) rfl ⟨rfl, rfl, rfl⟩ ?_
        · simp [ForkCall.created, hj, hj.symm]
        · simp [ForkCall.created, ForkCall.arg]
    | _ => exact .same (idle_account (by simp)) (by simp)
  | exit h => cases h <;> exact .same (idle_account (by simp)) (by simp)
  | wait h =>
    cases h <;> exact .same (idle_account (by simp)) (.inr rfl)
  | trap h =>
    cases h with
    | @call p call =>
      refine .same (idle_account (by simp)) (.inr ?_)
      cases call <;> rfl
    | _ => exact .same (idle_account (by simp)) (.inr rfl)

end Segments

/-! ## Which slots are tracked -/

/-- A step starts to track a slot only when it adds the slot to the claims of its thread. -/
theorem tracked_of_effect {s t : State n} {c : Fin n} {old new : Stack} (hp : ProcInv s)
    (ha : Acts s t c new) (hst : s.stack (s.thread c) = old) (he : Effect s t c old new)
    {i : Slot} (hi : Tracked t i) : Tracked s i ∨ (i ∈ claims new ∧ (s.proc i).state = .unused) := by
  -- the claims of the other threads only shrink
  have hclaims : (∃ u, i ∈ claims (t.stack u)) → (∃ u, i ∈ claims (s.stack u)) ∨ i ∈ claims new := by
    rintro ⟨u, hu⟩
    by_cases huc : u = s.thread c
    · rw [huc, ha.self] at hu
      exact .inr hu
    · exact .inl ⟨u, ha.claims_of_ne huc hu⟩
  have hown : i ∈ claims old → Tracked s i := by
    intro hmem
    exact .inr ⟨s.thread c, by rwa [hst]⟩
  have hsame : claims new = claims old → (∃ u, i ∈ claims (t.stack u)) → Tracked s i := by
    intro heq hmem
    rcases hclaims hmem with h | h
    · exact .inr h
    · exact hown (by rwa [← heq])
  have hnil : claims new = [] → (∃ u, i ∈ claims (t.stack u)) → Tracked s i := by
    intro heq hmem
    rcases hclaims hmem with h | h
    · exact .inr h
    · simp [heq] at h
  -- a state that was not assigned, or assigned to a slot that was tracked before
  have hlive : ∀ j v, SetsState s t j v → (¬ Live v ∨ Tracked s j) → Live (t.proc i).state →
      Tracked s i := by
    intro j v hsets hj hl
    by_cases hij : i = j
    · subst hij
      rw [hsets.at_slot] at hl
      rcases hj with hj | hj
      · exact absurd hl hj
      · exact hj
    · rw [hsets.elsewhere i hij] at hl
      exact .inl hl
  cases he with
  | quiet hstate hmy hshape hexp =>
    refine .inl ?_
    rcases hi with hl | hmem
    · rw [hstate] at hl
      exact .inl hl
    · exact hsame hshape.claims hmem
  | dispatch b hb hheld hcur hold hsets hmy hnew =>
    refine .inl ?_
    rcases hi with hl | hmem
    · exact hlive b _ hsets (.inr (.inl (by simp [Live, hb]))) hl
    · refine hnil ?_ hmem
      rcases hnew with ⟨r, rfl, ⟨cl, rfl⟩ | rfl⟩ <;> rfl
  | back b hcur hold hstate hmy hnew hcl hexp =>
    refine .inl ?_
    rcases hi with hl | hmem
    · rw [hstate] at hl
      exact .inl hl
    · exact hnil hcl hmem
  | leave p v hcur hold hv hsets hmy hnew hcl hzombie hexp =>
    refine .inl ?_
    rcases hi with hl | hmem
    · have hrun : (s.proc p).state = .running := by
        refine hp.running_cur hcur ?_
        rw [← State.thread_of_cur_some hcur, hst, hold]
      exact hlive p _ hsets (.inr (.inl (by simp [Live, hrun]))) hl
    · exact hsame hcl hmem
  | wake j hj hsets hmy hshape hexp =>
    refine .inl ?_
    rcases hi with hl | hmem
    · exact hlive j _ hsets (.inr (.inl (by simp [Live, hj]))) hl
    · exact hsame hshape.claims hmem
  | alloc j hj hheld hsets hmy hctx hleave hcur hcl hzombie hexp =>
    rcases hi with hl | hmem
    · exact .inl (hlive j _ hsets (.inl (by simp [Live])) hl)
    · rcases hclaims hmem with h | h
      · exact .inl (.inr h)
      · rcases hcl i h with rfl | hold
        · exact .inr ⟨h, hj⟩
        · exact .inl (hown hold)
  | start j hcl hnew hsets hmy hcur hleave hzombie hexp =>
    refine .inl ?_
    rcases hi with hl | hmem
    · have hj : Tracked s j := .inr ⟨s.thread c, by simp [hst, hcl]⟩
      exact hlive j _ hsets (.inr hj) hl
    · exact hnil hnew hmem
  | free j hj hheld hcur hleave hsets hmy hshape hexp =>
    refine .inl ?_
    rcases hi with hl | hmem
    · exact hlive j _ hsets (.inl (by simp [Live])) hl
    · exact hsame hshape.claims hmem

theorem not_tracked_of_unused {s : State n} (hp : ProcInv s) {i : Slot}
    (hi : (s.proc i).state = .unused) : ¬ Tracked s i := by
  rintro (hl | ⟨u, hu⟩)
  · simp [Live, hi] at hl
  · have hused := hp.claim u i hu
    simp [hi] at hused

/-! ## Facts about accounts along runs -/

/-- The account with one more switch back, under the stride scheduler. -/
def Account.charge (a : Account) : Account :=
  { a with pass := a.pass + a.stride, served := a.served + 1 }

/-- The account with one more switch back, under the lottery scheduler. -/
def Account.serve (a : Account) : Account := { a with served := a.served + 1 }

/-- The accounts that the two fork calls open. -/
def Opened (p : Proc) (call : ForkCall) (a : Account) : Prop :=
  ∃ b : Birth, a = ⟨b.tickets, b.stride, b.pass, call.arg, some b, 0⟩ ∧ b.call = .forked call ∧
    match call with
    | .fork _ => b.tickets = p.tickets ∧ b.stride = p.stride ∧ b.pass = p.pass
    | .forkprio prio =>
        b.tickets = prioTickets prio ∧ b.stride = 10000 / prioTickets prio ∧ b.pass = 0

/-- The induction step for a property of the accounts of all tracked slots: it holds of new
accounts and survives a charge. -/
theorem tracked_move {Q : Account → Prop} {s t : State n} {c : Fin n} (h : Inv s)
    (hm : Move s c t) (hopen : ∀ p call a, Opened p call a → Q a)
    (hcharge : ∀ b rest, s.stack (s.thread c) = .stride (.back b) :: rest →
      Q (account s b) → Q (account s b).charge)
    (hserve : ∀ cl b rest, s.stack (s.thread c) = .loteria (.back cl b) :: rest →
      Q (account s b) → Q (account s b).serve)
    (hQ : ∀ i, Tracked s i → Q (account s i)) : ∀ i, Tracked t i → Q (account t i) := by
  rcases move_cases hm with ⟨f, rest, ws, fs, hst, hseg, rfl⟩ | hstill
  · intro i hi
    have htr := tracked_of_effect h.proc (seg_acts h.proc hst hseg) hst
      (seg_effect h.lock h.proc hst hseg) hi
    have hfree : ∀ call j pid, f = .fork (.allocFound call j pid) → (s.proc j).state = .unused := by
      rintro call j pid rfl
      exact h.proc.expect c (j, .unused) (by rw [hst]; rfl)
    -- only `allocproc` starts to track a slot
    have hkeep : (i ∈ claims fs → i ∈ claims [f]) → Tracked s i := by
      intro hcl
      rcases htr with htr | ⟨hmem, -⟩
      · exact htr
      · refine .inr ⟨s.thread c, ?_⟩
        have hcons : claims (f :: rest) = claims [f] ++ claims rest := claims_append [f] rest
        rw [claims_append, List.mem_append] at hmem
        rw [hst, hcons, List.mem_append]
        exact hmem.imp_left hcl
    cases seg_charge (fs ++ rest) hseg with
    | same hsame hcl =>
      rw [hsame i]
      refine hQ i (hkeep ?_)
      rcases hcl with hcl | hcl <;> simp [hcl]
    | @create call j pid b _ hcl hother hcall hparams hnew =>
      by_cases hij : i = j
      · subst hij
        refine hopen (s.proc i) call _ ⟨b, hnew, hcall, ?_⟩
        cases call <;> exact hparams
      · rw [hother i hij]
        exact hQ i (hkeep (by simp [hcl, hij]))
    | @scratch call j pid _ hother hcl =>
      have htri := hkeep (by simp [hcl])
      have hij : i ≠ j := by
        rintro rfl
        exact not_tracked_of_unused h.proc (hfree call i pid rfl) htri
      rw [hother i hij]
      exact hQ i htri
    | @stride b _ hcl hother hb =>
      have htri := hkeep (by simp [hcl])
      by_cases hib : i = b
      · subst hib
        rw [hb]
        exact hcharge i rest hst (hQ i htri)
      · rw [hother i hib]
        exact hQ i htri
    | @loteria cl b _ hcl hother hb =>
      have htri := hkeep (by simp [hcl])
      by_cases hib : i = b
      · subst hib
        rw [hb]
        exact hserve cl i rest hst (hQ i htri)
      · rw [hother i hib]
        exact hQ i htri
  · intro i hi
    have hacc : account t i = account s i := by
      simp [hstill.proc, hstill.trace]
    have htr : Tracked s i := by
      rcases hi with hl | ⟨u, hu⟩
      · exact .inl (by rwa [hstill.proc] at hl)
      · refine .inr ⟨u, ?_⟩
        rwa [← claims_core, hstill.core u, claims_core] at hu
    rw [hacc]
    exact hQ i htr

/-! ## The origin of the fields -/

/-- The fields of a process are those of its birth, and the birth is one the code can give. -/
def Account.Founded (a : Account) : Prop :=
  ∃ b : Birth, a.birth = some b ∧ a.tickets = b.tickets ∧ a.stride = b.stride ∧ match b.call with
    | .userinit => b.tickets = 0 ∧ b.stride = 0 ∧ b.pass = 0 ∧ a.classe = 0
    | .forked (.fork cls) => a.classe = cls
    | .forked (.forkprio prio) =>
        b.tickets = prioTickets prio ∧ b.stride = 10000 / prioTickets prio ∧ b.pass = 0 ∧
          a.classe = prio

theorem founded_of_opened {p : Proc} {call : ForkCall} {a : Account} (h : Opened p call a) :
    a.Founded := by
  rcases h with ⟨b, rfl, hcall, hparams⟩
  refine ⟨b, rfl, rfl, rfl, ?_⟩
  cases call with
  | fork cls => simp [hcall, ForkCall.arg]
  | forkprio prio =>
    rcases hparams with ⟨htickets, hstride, hpass⟩
    simp [hcall, ForkCall.arg, htickets, hstride, hpass]

theorem boot_tracked {mode : Fin n → SchedMode} {i : Slot} (hi : Tracked (boot mode) i) :
    i = initSlot := by
  rcases hi with hl | ⟨u, hu⟩
  · by_contra hne
    simp [boot, hne, Proc.zero, Live] at hl
  · cases u with
    | hart c =>
      have hst : (boot mode).stack (.hart c) = (mode c).stack := rfl
      rw [hst] at hu
      cases hm : mode c <;> simp [hm, SchedMode.stack] at hu
    | proc p =>
      have hst : (boot mode).stack (.proc p) = if p = initSlot then newStack else [] := rfl
      rw [hst] at hu
      split at hu <;> simp at hu

theorem boot_account (mode : Fin n → SchedMode) :
    account (boot mode) initSlot = ⟨0, 0, 0, 0, some ⟨.userinit, 0, 0, 0⟩, 0⟩ := by
  simp [boot, userinitProc, Proc.zero]

/-- In every reachable state the fields of a tracked slot have a known origin. -/
theorem reachable_founded {mode : Fin n → SchedMode} {s : State n} (h : Reachable mode s)
    (i : Slot) (hi : Tracked s i) : (account s i).Founded := by
  have hboth : Inv s ∧ ∀ i, Tracked s i → (account s i).Founded := by
    refine h.invariant (I := fun s => Inv s ∧ ∀ i, Tracked s i → (account s i).Founded)
      ⟨boot_inv mode, ?_⟩ ?_
    · intro j hj
      rw [boot_tracked hj, boot_account]
      exact ⟨_, rfl, rfl, rfl, rfl, rfl, rfl, rfl⟩
    · intro s a t hs hstep
      rcases step_move hstep with ⟨hrun, hm⟩
      refine ⟨move_inv hs.1 hrun hm, ?_⟩
      refine tracked_move hs.1 hm (fun p call a ha => founded_of_opened ha) ?_ ?_ hs.2
      · intro b rest _ ha
        exact ha
      · intro cl b rest _ ha
        exact ha
  exact hboth.2 i hi

end Xv6Schedulers.Sched
