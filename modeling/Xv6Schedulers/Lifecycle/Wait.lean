import Xv6Schedulers.Lifecycle.Family
import Xv6Schedulers.Sched.Turn

/-!
# Wait — no child is lost

* `fate i tr` reads off the history what has become of the process in slot `i`;
* `Chronicle tr` says that every event follows from the fate before it: a process exits once in its
  life, and is reaped at most once, with the status of its exit;
* `Tells` sorts the segments of code by the events they record.

`no_child_lost` is the result, for any interleaving of the lock operations.
-/

namespace Xv6Schedulers.Lifecycle

open Kernel Locking Lib Sched

variable {n : Nat}

/-! ## The history of a slot -/

/-- What has become of the process of a slot. -/
inductive Fate
  | free
  | alive
  | exited (status : Int32)
  deriving DecidableEq, Repr

/-- The fate of slot `i` after the events of the history. -/
@[simp] def fate (i : Slot) : List Event → Fate
  | [] => .free
  | .create j _ _ _ _ :: tr => if i = j then .alive else fate i tr
  | .exit j status :: tr => if i = j then .exited status else fate i tr
  | .reap j _ _ _ :: tr => if i = j then .free else fate i tr
  | _ :: tr => fate i tr

/-- The event can happen after the history `tr`. -/
@[simp] def Event.Follows (tr : List Event) : Event → Prop
  | .create i _ _ _ _ => fate i tr = .free
  | .exit i _ => fate i tr = .alive
  | .reap i _ _ status => fate i tr = .exited status
  | _ => True

/-- Every event follows from the events before it. -/
@[simp] def Chronicle : List Event → Prop
  | [] => True
  | e :: tr => Event.Follows tr e ∧ Chronicle tr

/-- The events that do not change a fate. -/
@[simp] def Event.mundane : Event → Bool
  | .create _ _ _ _ _ | .exit _ _ | .reap _ _ _ _ => false
  | _ => true

theorem fate_mundane {e : Event} (he : Event.mundane e = true) (i : Slot) (tr : List Event) :
    fate i (e :: tr) = fate i tr := by
  cases e <;> simp_all

theorem chronicle_mundane {e : Event} (he : Event.mundane e = true) {tr : List Event}
    (h : Chronicle tr) : Chronicle (e :: tr) := by
  cases e <;> simp_all

/-! ## What the code records -/

/-- The history is the old one, or has one more event that changes no fate. -/
def Hush (s t : State n) : Prop :=
  t.trace = s.trace ∨ ∃ e, Event.mundane e = true ∧ t.trace = e :: s.trace

/-- The segments of code by the events they record. -/
inductive Tells (s t : State n) (c : Fin n) : Frame → Stack → Prop
  | hush {f : Frame} {fs : Stack} (htrace : Hush s t)
      (hclaims : claims fs = [] ∨ claims fs = claims [f])
      (hdead : ∀ i, Dead (t.proc i).state → (t.proc i).state = (s.proc i).state)
      (hxstate : ∀ i, (t.proc i).state = .zombie → (t.proc i).xstate = (s.proc i).xstate) :
      Tells s t c f fs
  | create {call : ForkCall} {i : Slot} {pid : Int32} {fs : Stack}
      (htrace : t.trace = call.created i (s.proc i) :: s.trace) (hclaims : claims fs = [i])
      (hused : (t.proc i).state = .used) (hother : ∀ j, j ≠ i → t.proc j = s.proc j) :
      Tells s t c (.fork (.allocFound call i pid)) fs
  | exit {p : Slot} {status : Int32} {fs : Stack} (hp : s.myproc c = some p)
      (htrace : t.trace = .exit p status :: s.trace) (hclaims : claims fs = [])
      (hzombie : (t.proc p).state = .zombie ∧ (t.proc p).xstate = status)
      (hother : ∀ j, j ≠ p → t.proc j = s.proc j) :
      Tells s t c (.exit (.locked status)) fs
  | reap {p i : Slot} {addr : UInt64} (hp : s.myproc c = some p)
      (hstate : (s.proc i).state = .zombie)
      (htrace : t.trace = .reap i p (s.proc i).pid (s.proc i).xstate :: s.trace)
      (hfree : (t.proc i).state = .unused) (hother : ∀ j, j ≠ i → t.proc j = s.proc j) :
      Tells s t c (.wait (.locked addr i))
        [.release (.proc i), .release .wait, .ret (s.proc i).pid]

section Segments

variable {s t : State n} {c : Fin n} {f : Frame} {ws : List Write} {fs rest new : Stack}

/-- The assignments that record nothing, kill or free nobody, and set no exit status. -/
def mild : Write → Bool
  | .xstate _ _ => false
  | .state _ v => v ≠ .zombie ∧ v ≠ .unused
  | .event e => Event.mundane e
  | _ => true

theorem mild_proc {i : Slot} (hws : ∀ w ∈ ws, mild w = true) (q : Proc) :
    (ws.foldl (fun q w => w.onProc i q) q).xstate = q.xstate ∧
      (Dead (ws.foldl (fun q w => w.onProc i q) q).state →
        (ws.foldl (fun q w => w.onProc i q) q).state = q.state) := by
  refine Write.foldl_onProc
    (R := fun q q' => q'.xstate = q.xstate ∧ (Dead q'.state → q'.state = q.state))
    (fun q => ⟨rfl, fun _ => rfl⟩) ?_ ?_ q
  · rintro a b c ⟨hab, hdab⟩ ⟨hbc, hdbc⟩
    refine ⟨hbc.trans hab, fun hd => ?_⟩
    have hstate := hdbc hd
    rw [hstate] at hd
    exact hstate.trans (hdab hd)
  · intro w hw q
    have hmild := hws w hw
    cases w with
    | xstate j v => simp [mild] at hmild
    | state j v =>
      by_cases hj : i = j
      · have hv : v ≠ .zombie ∧ v ≠ .unused := by simpa [mild] using hmild
        simp [hj, Dead, hv]
      · simp [hj]
    | _ =>
      first
        | exact ⟨rfl, fun _ => rfl⟩
        | (simp only [Write.onProc]; split <;> exact ⟨rfl, fun _ => rfl⟩)

theorem Tells.of_mild (hws : ∀ w ∈ ws, mild w = true) (htrace : Hush s (after s c ws new))
    (hclaims : claims fs = [] ∨ claims fs = claims [f]) : Tells s (after s c ws new) c f fs := by
  refine .hush htrace hclaims (fun i hd => ?_) (fun i _ => ?_)
  · rw [State.writes_proc] at hd ⊢
    exact (mild_proc hws _).2 hd
  · rw [State.writes_proc]
    exact (mild_proc hws _).1

theorem Tells.of_free {i : Slot} (hi : (s.proc i).state = .unused) (htrace : t.trace = s.trace)
    (hclaims : claims fs = []) (hat : (t.proc i).state = .unused)
    (hother : ∀ j, j ≠ i → t.proc j = s.proc j) : Tells s t c f fs := by
  refine .hush (.inl htrace) (.inl hclaims) (fun j _ => ?_) (fun j hz => ?_)
  · by_cases hj : j = i
    · rw [hj, hat, hi]
    · rw [hother j hj]
  · by_cases hj : j = i
    · rw [hj, hat] at hz
      cases hz
    · rw [hother j hj]

theorem forkSeg_tells {pc : ForkPc} (h : Inv s) (hst : s.stack (s.thread c) = .fork pc :: rest)
    (hseg : ForkSeg s c pc ws fs) : Tells s (after s c ws new) c (.fork pc) fs := by
  have hexpect := h.expects_stack hst
  cases hseg with
  | @noMemory call i pid =>
    refine .of_free (hexpect (i, .unused) rfl) (by simp) rfl (by simp) ?_
    intro j hj
    simp [hj]
  | @noCopy cls i pid =>
    refine .of_free (hexpect (i, .unused) rfl) (by simp) rfl (by simp) ?_
    intro j hj
    simp [hj]
  | @allocated call i pid =>
    refine .create ?_ rfl ?_ ?_
    · cases call <;> simp
    · cases call <;> simp
    · intro j hj
      cases call <;> simp [hj]
  | @copyFailed i =>
    have hnd := h.nodup_stack hst
    simp at hnd
  | setParent hp =>
    exact .of_mild (by simp [mild]) (by simp [Hush]) (.inr rfl)
  | _ =>
    exact .of_mild (by simp [mild]) (by simp [Hush]) (.inl rfl)

theorem trapSeg_tells {pc : TrapPc} (hseg : TrapSeg s c pc ws fs) :
    Tells s (after s c ws new) c (.trap pc) fs := by
  cases hseg with
  | @call p call hp hk =>
    refine .of_mild (by simp [mild]) (by simp [Hush]) (.inl ?_)
    cases call <;> rfl
  | _ => exact .of_mild (by simp [mild]) (by simp [Hush]) (.inl rfl)

theorem seg_tells (h : Inv s) (hst : s.stack (s.thread c) = f :: rest) (hseg : Seg s c f ws fs) :
    Tells s (after s c ws new) c f fs := by
  cases hseg with
  | ret => exact .of_mild (by simp [mild]) (.inl (by simp)) (.inl rfl)
  | loteria hseg =>
    cases hseg <;> exact .of_mild (by simp [mild]) (by simp [Hush]) (.inl rfl)
  | stride hseg =>
    cases hseg <;> exact .of_mild (by simp [mild]) (by simp [Hush]) (.inl rfl)
  | sched hseg =>
    cases hseg <;> exact .of_mild (by simp [mild]) (by simp [Hush]) (.inl rfl)
  | wake hseg =>
    cases hseg <;> exact .of_mild (by simp [mild]) (by simp [Hush]) (.inl rfl)
  | fork hseg => exact forkSeg_tells h hst hseg
  | exit hseg =>
    cases hseg with
    | @locked p status hp =>
      refine .exit hp (by simp) rfl (by simp) ?_
      intro j hj
      simp [hj]
    | _ => exact .of_mild (by simp [mild]) (by simp [Hush]) (.inl rfl)
  | wait hseg =>
    cases hseg with
    | @reap p i addr hp hstate =>
      refine .reap hp hstate (by simp) (by simp) ?_
      intro j hj
      simp [hj]
    | _ => exact .of_mild (by simp [mild]) (by simp [Hush]) (.inl rfl)
  | trap hseg => exact trapSeg_tells hseg

end Segments

/-! ## The history agrees with the process table -/

/-- The history is a chronicle, and the process table shows the fate of every slot. -/
structure Told (s : State n) : Prop where
  chronicle : Chronicle s.trace
  alive : ∀ i, Tracked s i → (s.proc i).state ≠ .zombie → fate i s.trace = .alive
  exited : ∀ i, (s.proc i).state = .zombie → fate i s.trace = .exited (s.proc i).xstate
  free : ∀ i, (s.proc i).state = .unused → fate i s.trace = .free

section Moves

variable {s t : State n} {c : Fin n} {f : Frame} {ws : List Write} {fs rest : Stack} {i : Slot}

theorem zombie_effect {old new : Stack} (h : Inv s) (hst : s.stack (s.thread c) = old)
    (he : Effect s t c old new) (hz : (s.proc i).state = .zombie) :
    (t.proc i).state = .zombie ∨ (t.proc i).state = .unused := by
  have hsets : ∀ {j : Slot} {v : ProcState}, SetsState s t j v →
      (s.proc j).state ≠ .zombie → (t.proc i).state = .zombie := by
    intro j v hset hj
    have hne : i ≠ j := by
      rintro rfl
      exact hj hz
    rw [hset.elsewhere i hne, hz]
  cases he with
  | quiet hstate _ _ _ => exact .inl (by rw [hstate, hz])
  | dispatch b hb _ _ _ hset _ _ => exact .inl (hsets hset (by simp [hb]))
  | back b _ _ hstate _ _ _ _ => exact .inl (by rw [hstate, hz])
  | leave p v hcur hold _ hset _ _ _ _ _ =>
    have hrun : (s.proc p).state = .running := by
      refine h.proc.running_cur hcur ?_
      rw [← State.thread_of_cur_some hcur, hst, hold]
    exact .inl (hsets hset (by simp [hrun]))
  | wake j hj hset _ _ _ => exact .inl (hsets hset (by simp [hj]))
  | alloc j hj _ hset _ _ _ _ _ _ _ => exact .inl (hsets hset (by simp [hj]))
  | start j hclaims _ hset _ _ _ _ _ =>
    have hused := h.proc.claim (s.thread c) j (by simp [hst, hclaims])
    exact .inl (hsets hset (by simp [hused]))
  | free j _ _ _ _ hset _ _ _ =>
    by_cases hij : i = j
    · exact .inr (by rw [hij, hset.at_slot])
    · exact .inl (by rw [hset.elsewhere i hij, hz])

theorem tracked_before (h : Inv s) (hst : s.stack (s.thread c) = f :: rest)
    (hseg : Seg s c f ws fs) (hi : Tracked (after s c ws (fs ++ rest)) i)
    (hclaims : i ∈ claims fs → i ∈ claims [f]) : Tracked s i := by
  have htr := tracked_of_effect h.proc (seg_acts h.proc hst hseg) hst
    (seg_effect h.lock h.proc hst hseg) hi
  rcases htr with htr | ⟨hmem, -⟩
  · exact htr
  · refine .inr ⟨s.thread c, ?_⟩
    have hcons : claims (f :: rest) = claims [f] ++ claims rest := claims_append [f] rest
    rw [claims_append, List.mem_append] at hmem
    rw [hst, hcons, List.mem_append]
    exact hmem.imp_left hclaims

theorem Told.event {e : Event} {j : Slot} (hs : Told s) (htrace : t.trace = e :: s.trace)
    (hfollows : Event.Follows s.trace e) (hfate : ∀ i, i ≠ j → fate i t.trace = fate i s.trace)
    (hother : ∀ i, i ≠ j → t.proc i = s.proc i) (hbefore : ∀ i, i ≠ j → Tracked t i → Tracked s i)
    (halive : Tracked t j → (t.proc j).state ≠ .zombie → fate j t.trace = .alive)
    (hexited : (t.proc j).state = .zombie → fate j t.trace = .exited (t.proc j).xstate)
    (hfree : (t.proc j).state = .unused → fate j t.trace = .free) : Told t := by
  refine ⟨?_, fun i hi hne => ?_, fun i hz => ?_, fun i hu => ?_⟩
  · rw [htrace]
    exact ⟨hfollows, hs.chronicle⟩
  · by_cases hij : i = j
    · subst hij
      exact halive hi hne
    · rw [hother i hij] at hne
      rw [hfate i hij]
      exact hs.alive i (hbefore i hij hi) hne
  · by_cases hij : i = j
    · subst hij
      exact hexited hz
    · rw [hother i hij] at hz ⊢
      rw [hfate i hij]
      exact hs.exited i hz
  · by_cases hij : i = j
    · subst hij
      exact hfree hu
    · rw [hother i hij] at hu
      rw [hfate i hij]
      exact hs.free i hu

theorem told_seg (h : Inv s) (ht : Inv (after s c ws (fs ++ rest))) (hs : Told s)
    (hst : s.stack (s.thread c) = f :: rest) (hseg : Seg s c f ws fs) :
    Told (after s c ws (fs ++ rest)) := by
  have hexpect := h.expects_stack hst
  have hbefore : ∀ {i : Slot}, Tracked (after s c ws (fs ++ rest)) i →
      (i ∈ claims fs → i ∈ claims [f]) → Tracked s i :=
    fun hi hcl => tracked_before h hst hseg hi hcl
  -- a tracked slot that is no zombie was none before
  have hzombie : ∀ {i : Slot}, Tracked (after s c ws (fs ++ rest)) i →
      ((after s c ws (fs ++ rest)).proc i).state ≠ .zombie → (s.proc i).state ≠ .zombie := by
    intro i hi hne hz
    rcases zombie_effect h hst (seg_effect h.lock h.proc hst hseg) hz with hz' | hfree
    · exact hne hz'
    · exact not_tracked_of_unused ht.proc hfree hi
  have htells : Tells s (after s c ws (fs ++ rest)) c f fs := seg_tells h hst hseg
  generalize after s c ws (fs ++ rest) = t at *
  cases htells with
  | hush htrace hclaims hdead hxstate =>
    have hfate : ∀ i, fate i t.trace = fate i s.trace := by
      intro i
      rcases htrace with heq | ⟨e, he, heq⟩
      · rw [heq]
      · rw [heq, fate_mundane he]
    refine ⟨?_, ?_, ?_, ?_⟩
    · rcases htrace with heq | ⟨e, he, heq⟩
      · rw [heq]
        exact hs.chronicle
      · rw [heq]
        exact chronicle_mundane he hs.chronicle
    · intro i hi hne
      rw [hfate]
      refine hs.alive i (hbefore hi ?_) (hzombie hi hne)
      rcases hclaims with hcl | hcl <;> simp [hcl]
    · intro i hz
      rw [hfate, hxstate i hz]
      rw [hdead i (.inl hz)] at hz
      exact hs.exited i hz
    · intro i hu
      rw [hfate]
      rw [hdead i (.inr hu)] at hu
      exact hs.free i hu
  | @create call j pid _ htrace hclaims hused hother =>
    have hfree : fate j s.trace = .free := hs.free j (hexpect (j, .unused) rfl)
    have hfate : ∀ i, fate i t.trace = if i = j then .alive else fate i s.trace := by
      intro i
      rw [htrace]
      cases call <;> rfl
    refine hs.event htrace ?_ (fun i hij => by rw [hfate, if_neg hij]) hother
      (fun i hij hi => hbefore hi (by simp [hclaims, hij])) ?_ ?_ ?_
    · cases call <;> exact hfree
    · intro _ _
      rw [hfate, if_pos rfl]
    · simp [hused]
    · simp [hused]
  | @exit p status _ hp htrace hclaims hstate hother =>
    have hcur := cur_of_myproc h (h.wf_stack hst).1.1 hp
    have hrun := h.proc.running_cur hcur (by rw [← State.thread_of_cur_some hcur, hst]; rfl)
    refine hs.event htrace ?_ (fun i hip => by simp [htrace, hip]) hother
      (fun i _ hi => hbefore hi (by simp [hclaims])) ?_ ?_ ?_
    · exact hs.alive p (.inl (by simp [Live, hrun])) (by simp [hrun])
    · simp [hstate.1]
    · simp [htrace, hstate.2]
    · simp [hstate.1]
  | @reap p j addr hp hz htrace hfree hother =>
    refine hs.event htrace (hs.exited j hz) (fun i hij => by simp [htrace, hij]) hother
      (fun i _ hi => hbefore hi (by simp)) ?_ ?_ ?_
    · intro hj
      exact absurd hj (not_tracked_of_unused ht.proc hfree)
    · simp [hfree]
    · simp [htrace]

theorem told_move (h : Inv s) (hs : Told s) (hrun : (s.cpu c).panicked = none)
    (hm : Move s c t) : Told t := by
  have ht := move_inv h hrun hm
  rcases move_cases hm with ⟨f, rest, ws, fs, hst, hseg, rfl⟩ | hstill
  · exact told_seg h ht hs hst hseg
  · refine ⟨?_, ?_, ?_, ?_⟩
    · rw [hstill.trace]
      exact hs.chronicle
    · intro i hi hne
      rw [hstill.proc] at hne
      rw [hstill.trace]
      refine hs.alive i ?_ hne
      rcases hi with hl | ⟨u, hu⟩
      · exact .inl (by rwa [hstill.proc] at hl)
      · refine .inr ⟨u, ?_⟩
        rwa [← claims_core, hstill.core u, claims_core] at hu
    · intro i
      rw [hstill.proc, hstill.trace]
      exact hs.exited i
    · intro i
      rw [hstill.proc, hstill.trace]
      exact hs.free i

theorem boot_told (mode : Fin n → SchedMode) : Told (boot mode) := by
  have hproc : ∀ i, (boot mode).proc i = if i = initSlot then userinitProc else Proc.zero := by
    intro i
    simp [boot, Function.update_apply]
  have htrace : (boot mode).trace = [.create initSlot .userinit 0 0 0] := rfl
  refine ⟨?_, ?_, ?_, ?_⟩
  · rw [htrace]
    simp
  · intro i hi _
    rw [boot_tracked hi, htrace]
    rfl
  · intro i hz
    rw [hproc] at hz
    split at hz <;> cases hz
  · intro i hu
    rw [hproc] at hu
    split at hu
    · cases hu
    · rename_i hi
      simp [htrace, hi]

theorem reachable_told {mode : Fin n → SchedMode} (h : Reachable mode s) : Told s := by
  have hboth : Inv s ∧ Told s := by
    refine h.invariant (I := fun s => Inv s ∧ Told s) ⟨boot_inv mode, boot_told mode⟩ ?_
    rintro s a t ⟨hinv, hs⟩ hstep
    rcases step_move hstep with ⟨hrun, hm⟩
    exact ⟨move_inv hinv hrun hm, told_move hinv hs hrun hm⟩
  exact hboth.2

/-! ## Sleepers in `wait` -/

theorem slumber_wait {st : Stack} {me : Option Slot} {lk : Lock} {pc : WaitPc} (hsh : Shape me st)
    (hs : slumber st = some lk) (hmem : .wait pc ∈ st) : lk = .wait := by
  have hback : ∀ {r : Stack}, Shape me (.sched (.sleepBack lk) :: r) →
      .wait pc ∈ .sched (.sleepBack lk) :: r → lk = .wait := by
    intro r hr hmem
    have hin : .wait pc ∈ r := by simpa using hmem
    have hsleeper : Sleeper lk r := hr.1
    cases lk with
    | wait => rfl
    | cond k => exact absurd hin (hsleeper.2 pc)
    | _ => exact hsleeper.elim
  fun_induction slumber st with
  | case1 l r ih => exact ih hsh.2 hs (by simpa using hmem)
  | case2 lk' r =>
    cases hs
    exact hback hsh.2 (by simpa using hmem)
  | case3 b lk' r =>
    cases hs
    exact hback hsh.2.2 (by simpa using hmem)
  | case4 b lk' r =>
    cases hs
    exact hback hsh.2 (by simpa using hmem)
  | case5 => cases hs

theorem Family.not_sleeping (h : Family s) (hfree : s.locked .wait = none) {p : Slot} {pc : WaitPc}
    (hsleep : (s.proc p).state = .sleeping) (hwait : .wait pc ∈ s.stack (.proc p))
    (hparent : (s.proc i).parent = some p) : (s.proc i).state ≠ .zombie := by
  intro hzombie
  rcases h.roused.asleep p hsleep with ⟨ch, lk, hchan, hslumber, hchannel⟩
  have hlk := slumber_wait (h.roused.formed.shape (.proc p)) hslumber hwait
  subst hlk
  have hch : ch = .proc p := hchannel rfl p rfl
  subst hch
  rcases h.noticed i p hparent hzombie (.inr ⟨hsleep, hchan, hslumber⟩) with ⟨u, k, -, -, hheld⟩
  rcases current_of_held h.roused.formed.inv hheld rfl with ⟨d, -, hlocked⟩
  rw [hfree] at hlocked
  cases hlocked

/-! ## What a `wait` returns -/

/-- The step is the end of a successful `wait` of process `q`, which frees its child in slot `i`. -/
structure Reaps (s t : State n) (c : Fin n) (i q : Slot) (pid status : Int32) : Prop where
  zombie : (s.proc i).state = .zombie
  parent : (s.proc i).parent = some q
  caller : s.cur c = some q
  pid_eq : pid = (s.proc i).pid
  status_eq : status = (s.proc i).xstate
  freed : (t.proc i).state = .unused
  returns : ∃ addr rest, s.stack (.proc q) = .wait (.locked addr i) :: rest ∧
    t.stack (.proc q) = .release (.proc i) :: .release .wait :: .ret pid :: rest

theorem reaps_move (h : Family s) (hm : Move s c t) {q : Slot} {pid status : Int32}
    (htrace : t.trace = .reap i q pid status :: s.trace) : Reaps s t c i q pid status := by
  have hinv := h.roused.formed.inv
  have hne : ∀ tr : List Event, Event.reap i q pid status :: tr ≠ tr := by
    intro tr heq
    have hlen := congrArg List.length heq
    simp at hlen
  rcases move_cases hm with ⟨f, rest, ws, fs, hst, hseg, ht⟩ | hstill
  · have hself := (seg_acts hinv.proc hst hseg).self
    have htells : Tells s (after s c ws (fs ++ rest)) c f fs := seg_tells hinv hst hseg
    replace ht : t = after s c ws (fs ++ rest) := ht
    rw [← ht] at hself htells
    cases htells with
    | hush hhush _ _ _ =>
      rcases hhush with heq | ⟨e, he, heq⟩
      · exact absurd (htrace.symm.trans heq) (hne _)
      · rw [htrace] at heq
        cases heq
        simp at he
    | @create call _ _ _ heq _ _ _ =>
      rw [htrace] at heq
      cases call <;> cases heq
    | exit _ heq _ _ _ =>
      rw [htrace] at heq
      cases heq
    | @reap p j addr hp hz heq hfree _ =>
      rw [htrace] at heq
      cases heq
      have hcur := cur_of_myproc hinv (hinv.wf_stack hst).1.1 hp
      rw [State.thread_of_cur_some hcur] at hst hself
      exact ⟨hz, h.child q addr i (by simp [hst]), hcur, rfl, rfl, hfree, addr, rest, hst, hself⟩
  · exact absurd (htrace.symm.trans hstill.trace) (hne _)

/-- The assignments that leave `p->pid` alone. -/
def keepsPid : Write → Bool
  | .pid _ _ => false
  | _ => true

theorem keepsPid_after {new : Stack} (hws : ∀ w ∈ ws, keepsPid w = true) :
    ((after s c ws new).proc i).pid = (s.proc i).pid := by
  have hframe : ∀ w ∈ ws, ∀ s : State n, ((s.write c w).proc i).pid = (s.proc i).pid := by
    intro w hw s
    have hkeeps := hws w hw
    cases w with
    | pid j v => simp [keepsPid] at hkeeps
    | _ =>
      simp only [State.write, State.modifyProc_apply, State.setStack_proc, State.setCpu_proc]
      try (split <;> rfl)
  exact State.writes_frame (fun s : State n => (s.proc i).pid) hframe _

theorem seg_pid {new : Stack} (h : Inv s) (hst : s.stack (s.thread c) = f :: rest)
    (hseg : Seg s c f ws fs) (hbefore : (s.proc i).state ≠ .unused)
    (hafter : ((after s c ws new).proc i).state ≠ .unused) :
    ((after s c ws new).proc i).pid = (s.proc i).pid := by
  have hexpect := h.expects_stack hst
  cases hseg with
  | ret => exact keepsPid_after (by simp [keepsPid])
  | loteria hseg => cases hseg <;> exact keepsPid_after (by simp [keepsPid])
  | stride hseg => cases hseg <;> exact keepsPid_after (by simp [keepsPid])
  | sched hseg => cases hseg <;> exact keepsPid_after (by simp [keepsPid])
  | wake hseg => cases hseg <;> exact keepsPid_after (by simp [keepsPid])
  | @fork pc _ _ hseg =>
    -- `allocproc` assigns the `pid` of a slot it has found free
    have hne : ∀ call j pid, pc = .allocFound call j pid → i ≠ j := by
      rintro call j pid rfl rfl
      exact hbefore (hexpect (i, .unused) rfl)
    cases hseg with
    | noMemory => simp [hne _ _ _ rfl]
    | noCopy => simp [hne _ _ _ rfl]
    | noCopyPrio => simp [hne _ _ _ rfl]
    | @allocated call =>
      cases call <;> simp [hne _ _ _ rfl]
    | @copyFailed j =>
      have hnd := h.nodup_stack hst
      simp at hnd
    | _ => exact keepsPid_after (by simp [keepsPid])
  | exit hseg => cases hseg <;> exact keepsPid_after (by simp [keepsPid])
  | wait hseg =>
    cases hseg with
    | @reap p j addr hp hstate =>
      have hij : i ≠ j := by
        rintro rfl
        simp at hafter
      simp [hij]
    | _ => exact keepsPid_after (by simp [keepsPid])
  | trap hseg => cases hseg <;> exact keepsPid_after (by simp [keepsPid])

/-- A process keeps its `pid`. -/
theorem move_pid (h : Inv s) (hm : Move s c t) (hbefore : (s.proc i).state ≠ .unused)
    (hafter : (t.proc i).state ≠ .unused) : (t.proc i).pid = (s.proc i).pid := by
  rcases move_cases hm with ⟨f, rest, ws, fs, hst, hseg, rfl⟩ | hstill
  · exact seg_pid h hst hseg hbefore hafter
  · rw [hstill.proc]

/-- A `wait` whose `copyout` fails returns -1 and leaves the process table and the history alone. -/
theorem copyout_fails {addr : UInt64} {q : Slot} {rest : Stack} (h : Inv s)
    (hstep : step s c (.copyout false) = some t) (hcur : s.cur c = some q)
    (hst : s.stack (.proc q) = .wait (.locked addr i) :: rest)
    (hzombie : (s.proc i).state = .zombie) (haddr : addr ≠ 0) :
    t.proc = s.proc ∧ t.trace = s.trace ∧
      t.stack (.proc q) = .release (.proc i) :: .release .wait :: .ret (-1) :: rest := by
  have hthread := State.thread_of_cur_some hcur
  have hmy := h.proc.myproc_of_cur hcur
  have hrun := (step_move hstep).1
  have ht : t = (s.setStack (.proc q)
      (.release (.proc i) :: .release .wait :: .ret (-1) :: rest)).writes c [] := by
    have hcode : codeStep s c (.wait (.locked addr i)) rest (.copyout false) = some t := by
      simpa [step, hrun, hthread, hst, frameStep] using hstep
    simpa [codeStep, code, waitCode, hmy, hzombie, haddr, hthread] using hcode.symm
  rw [ht, State.writes_nil]
  exact ⟨rfl, rfl, by simp⟩

end Moves

/-! ## The law -/

/-- `fork`, `exit`, `wait` and `kill` lose no child.  While `wait_lock` is free, a parent is neither
`UNUSED` nor `ZOMBIE` and no process sleeps in `wait` over a zombie; over the run an exited process
is reaped at most once and with its exit status; the `wait` that does so is made by its parent and
returns its `pid`, which it has had all its life; a `wait` whose `copyout` fails reaps nothing. -/
theorem no_child_lost (mode : Fin n → SchedMode) :
    (∀ s : State n, Reachable mode s → s.locked .wait = none → (∀ i q, (s.proc i).parent = some q →
        (s.proc q).state ≠ .unused ∧ (s.proc q).state ≠ .zombie) ∧
      ∀ p i pc, (s.proc p).state = .sleeping → .wait pc ∈ s.stack (.proc p) →
        (s.proc i).parent = some p → (s.proc i).state ≠ .zombie) ∧
    (∀ s : State n, Reachable mode s → Chronicle s.trace) ∧
    ∀ (s t : State n) (c : Fin n) (ch : Choice), Reachable mode s →
      (machine n).step s (c, ch) = some t →
      (∀ i q pid status, t.trace = .reap i q pid status :: s.trace → Reaps s t c i q pid status) ∧
      (∀ i, (s.proc i).state ≠ .unused → (t.proc i).state ≠ .unused →
        (t.proc i).pid = (s.proc i).pid) ∧
      ∀ (q i : Slot) (addr : UInt64) (rest : Stack), ch = .copyout false → s.cur c = some q →
        s.stack (.proc q) = .wait (.locked addr i) :: rest → (s.proc i).state = .zombie →
        addr ≠ 0 → t.proc = s.proc ∧ t.trace = s.trace ∧
          t.stack (.proc q) = .release (.proc i) :: .release .wait :: .ret (-1) :: rest := by
  refine ⟨?_, fun s h => (reachable_told h).chronicle, ?_⟩
  · intro s h hfree
    have hfamily := reachable_family h
    refine ⟨fun i q hparent => ?_, fun p i pc hsleep hwait hparent => ?_⟩
    · have halive := hfamily.parents i q hparent
      exact ⟨fun hu => halive (.inr hu), fun hz => halive (.inl hz)⟩
    · exact hfamily.not_sleeping hfree hsleep hwait hparent
  · intro s t c ch h hstep
    replace hstep : step s c ch = some t := hstep
    have hm := (step_move hstep).2
    refine ⟨fun i q pid status htrace => reaps_move (reachable_family h) hm htrace,
      fun i hbefore hafter => move_pid (reachable_inv h) hm hbefore hafter, ?_⟩
    rintro q i addr rest rfl hcur hst hzombie haddr
    exact copyout_fails (reachable_inv h) hstep hcur hst hzombie haddr

/-- `init` calls `forkprio(0)` and `wait`, its child calls `exit(7)`, up to the switch to the
scheduler. -/
def childExits : List Choice :=
  Solo.scanOne ++ Solo.startUser ++ Solo.forkTo (.forkprio 0) 1 ++ .trap (.syscall (.wait 4)) ::
    Solo.go 9 ++ [.copyout true] ++ Solo.go 337 ++ [.done, .go, .trap (.syscall (.exit 7))] ++
    Solo.go 6 ++ [.done] ++ Solo.go 327

/-- The child is a zombie while `init` is still inside `wait`, which then returns its `pid` and
status, or -1 if it cannot store the status. -/
theorem no_child_lost_init :
    ∃ r s t u : State 1, Reachable (fun _ => .stride) r ∧ r.locked .wait = none ∧
      (r.proc (slotAt 1)).state = .zombie ∧ (r.proc (slotAt 1)).parent = some initSlot ∧
      (r.proc initSlot).state ≠ .zombie ∧ Reachable (fun _ => .stride) s ∧
      (machine 1).step s (0, .copyout true) = some t ∧ Reaps s t 0 (slotAt 1) initSlot 2 7 ∧
      (machine 1).step s (0, .copyout false) = some u ∧ u.trace = s.trace := by
  have hrun : ((Solo.boot .stride).run (fun _ => true) childExits).any (fun v =>
      .wait ∉ v.held ∧ (v.proc (slotAt 1)).state = .zombie ∧
      (v.proc (slotAt 1)).parent = some initSlot ∧
      (v.run (fun _ => true) (Solo.go 267)).any (fun w =>
        w.cur = some initSlot ∧
        w.top = [.wait (.locked 4 (slotAt 1)), .trap (.done false), .trap .user] ∧
        (w.proc (slotAt 1)).state = .zombie ∧
        (w.next (.copyout true)).any (fun x =>
          x.trace = .reap (slotAt 1) initSlot 2 7 :: w.trace) = true ∧
        (w.next (.copyout false)).isSome = true) = true) = true := by
    decide +kernel
  rcases (Option.any_eq_true _ _).1 hrun with ⟨v, hv, htest⟩
  simp only [decide_eq_true_eq] at htest
  rcases htest with ⟨hfree, hzombie, hparent, hrest⟩
  rcases (Option.any_eq_true _ _).1 hrest with ⟨w, hw, htest⟩
  simp only [decide_eq_true_eq] at htest
  rcases htest with ⟨hcur, htop, hzombie', hreap, hfail⟩
  rcases (Option.any_eq_true _ _).1 hreap with ⟨x, hx, htrace⟩
  simp only [decide_eq_true_eq] at htrace
  rcases Option.isSome_iff_exists.1 hfail with ⟨y, hy⟩
  have hreach := Solo.run_reaches hv
  have hreach' := hreach.trans (Solo.run_reaches hw)
  rw [Solo.boot_state] at hreach hreach'
  have hlock : v.state.locked .wait = none := by simp [Solo.state, hfree]
  have hthread : w.state.thread 0 = .proc initSlot := State.thread_of_cur_some (s := w.state) hcur
  have hstack : w.state.stack (.proc initSlot) =
      [.wait (.locked 4 (slotAt 1)), .trap (.done false), .trap .user] := by
    rw [← hthread, Solo.state_top, htop]
  have hstep : (machine 1).step w.state (0, .copyout true) = some x.state :=
    Solo.next_step (by simp) hx
  have hstep' : (machine 1).step w.state (0, .copyout false) = some y.state :=
    Solo.next_step (by simp) hy
  have hlaw := no_child_lost (n := 1) fun _ => .stride
  refine ⟨v.state, w.state, x.state, y.state, hreach, hlock, hzombie, hparent,
    ((hlaw.1 v.state hreach hlock).1 (slotAt 1) initSlot hparent).2, hreach', hstep,
    (hlaw.2.2 _ _ 0 _ hreach' hstep).1 _ _ _ _ htrace, hstep', ?_⟩
  exact ((hlaw.2.2 _ _ 0 _ hreach' hstep').2.2 initSlot (slotAt 1) 4 _ rfl hcur hstack hzombie'
    (by decide)).2.1

/-- At every moment, also while a process is inside `exit` or `reparent`: `init` is alive, a free slot
has no parent, and a parent is alive. -/
theorem parents_alive {mode : Fin n → SchedMode} {s : State n} (h : Reachable mode s) :
    ¬ Dead (s.proc s.initproc).state ∧
      ∀ i q, (s.proc i).parent = some q → (s.proc i).state ≠ .unused ∧ ¬ Dead (s.proc q).state := by
  have hfamily := reachable_family h
  refine ⟨hfamily.initAlive, fun i q hi => ⟨?_, hfamily.parents i q hi⟩⟩
  intro hfree
  rw [hfamily.unused i hfree] at hi
  cases hi

theorem parents_alive_child : ∃ s : State 1, Reachable (fun _ => .loteria) s ∧
    (s.proc (slotAt 1)).parent = some initSlot ∧ ¬ Dead (s.proc initSlot).state := by
  have hrun : ((Solo.boot .loteria).run (fun _ => true) (Solo.drawInit ++ Solo.forkTo (.fork 0) 1)).any
      (fun v => (v.proc (slotAt 1)).parent = some initSlot) = true := by
    decide +kernel
  rcases Solo.reaches_of_any hrun with ⟨v, hreach, hparent⟩
  exact ⟨v.state, hreach, hparent, ((parents_alive hreach).2 _ _ hparent).2⟩

end Xv6Schedulers.Lifecycle
