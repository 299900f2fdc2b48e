import Xv6Schedulers.Lifecycle.Sleep

/-!
# Kin — who changes parents and makes zombies

`exit`, `wait` and the end of `fork` change `p->parent`, and make zombies, only under `wait_lock`.
What such a call has already done is a function of its stack:

* `Frame.adopted`: how far `reparent` has come, `Frame.checked`: how far the scan of `wait` has
  come, `Frame.notified`: whether the parent has been woken up;
* `guarded_held`: a thread at one of these points holds `wait_lock`;
* `Kin` sorts the segments of code by what they do to `parent` and to zombies, and `seg_adopted`,
  `seg_checked`, `seg_notified` and `seg_aim` say which code moves these views.
-/

namespace Xv6Schedulers.Lifecycle

open Kernel Locking Lib List

variable {n : Nat}

/-! ## Views of a stack -/

/-- The slots that `reparent` has passed. -/
@[simp] def Frame.adopted : Frame → Option Nat
  | .exit (.reparent _ k) => some k
  | .exit (.woken _) => some NPROC
  | .exit (.locked _) => some NPROC
  | _ => none

/-- The slots that the scan of `wait` has found not to be zombie children. -/
@[simp] def Frame.checked : Frame → Option Nat
  | .wait (.scan _ k _) => some k
  | .wait (.locked _ i) => some i.val
  | .wait (.killed _) => some NPROC
  | .sched (.sleepLocked _ .wait) => some NPROC
  | _ => none

/-- `exit` has woken up the parent. -/
@[simp] def Frame.notified : Frame → Option Bool
  | .exit (.woken _) => some true
  | .exit (.locked _) => some true
  | .wake (.wakeupNext _ _) => some false
  | .wake (.wakeupLocked _ _) => some false
  | _ => none

/-- The caller of `wakeup` is `exit`, which notifies the parent. -/
@[simp] def notifying : Stack → Bool
  | .exit (.woken _) :: _ => true
  | _ => false

/-- The channel of the `wakeup` by which `exit` notifies the parent. -/
@[simp] def aim : Stack → Option (Option Chan)
  | .acquire _ :: r => aim r
  | .spin _ :: r => aim r
  | .release _ :: r => aim r
  | .wake (.wakeupNext ch _) :: r => if notifying r then some ch else none
  | .wake (.wakeupLocked ch _) :: r => if notifying r then some ch else none
  | _ => none

/-- The frames under which a thread holds `wait_lock`. -/
@[simp] def Frame.guarded : Frame → Bool
  | .exit (.reparent _ k) => k ≠ 0
  | .exit (.woken _) => true
  | .exit (.locked _) => true
  | .wait (.scan _ k _) => k ≠ 0
  | .wait (.locked _ _) => true
  | .wait (.killed _) => true
  | .sched (.sleepLocked _ .wait) => true
  | _ => false

/-- What the topmost frame that `g` speaks about says. -/
def topmost {β : Type} (g : Frame → Option β) (st : Stack) : Option β := st.findSome? g

@[simp] theorem topmost_nil {β : Type} (g : Frame → Option β) : topmost g [] = none := rfl

@[simp] theorem topmost_cons {β : Type} (g : Frame → Option β) (f : Frame) (r : Stack) :
    topmost g (f :: r) = (g f).or (topmost g r) := by
  cases h : g f <;> simp [topmost, h]

section Views

variable {me : Option Slot} {r st : Stack} {f : Frame} {lk : Lock}

theorem Base.topmost_eq {β : Type} {g : Frame → Option β} (h : Base r)
    (hg : ∀ pc, g (.trap pc) = none) : topmost g r = none := by
  refine findSome?_eq_none_iff.2 ?_
  intro f hf
  rcases h f hf with ⟨pc, rfl⟩
  exact hg pc

theorem Base.not_guarded (h : Base r) (hf : f ∈ r) : Frame.guarded f = false := by
  rcases h f hf with ⟨pc, rfl⟩
  rfl

theorem Entry.not_guarded (h : Entry .wait r) (hsh : Shape me r) (hf : f ∈ r) :
    Frame.guarded f = false := by
  have htop : ∃ g r', r = g :: r' ∧ Frame.guarded g = false ∧ Base r' := by
    unfold Entry at h
    split at h
    · exact ⟨_, _, rfl, rfl, hsh.1⟩
    · exact ⟨_, _, rfl, rfl, hsh.1⟩
    · exact ⟨_, _, rfl, rfl, hsh.1⟩
    · simp_all
    · exact h.elim
  rcases htop with ⟨g, r', rfl, hg, hbase⟩
  rcases mem_cons.1 hf with rfl | hf'
  · exact hg
  · exact hbase.not_guarded hf'

theorem Sleeper.not_guarded (h : Sleeper .wait r) (hsh : Shape me r) (hf : f ∈ r) :
    Frame.guarded f = false :=
  h.entry.not_guarded hsh hf

theorem guarded_held (hsh : Shape me st) (hf : f ∈ st) (hg : Frame.guarded f = true) :
    .wait ∈ held me st := by
  induction st with
  | nil => cases hf
  | cons g r ih =>
    rcases hsh with ⟨hfits, hr⟩
    rcases mem_cons.1 hf with rfl | hf'
    · -- the guarded frame is on top
      cases f with
      | exit pc => cases pc <;> simp at hg ⊢
      | wait pc => cases pc <;> simp
      | sched pc =>
        cases pc with
        | sleepLocked ch lk =>
          cases lk with
          | wait =>
            rcases hfits.1 with ⟨addr, r', rfl⟩
            simp
          | _ => simp at hg
        | _ => simp at hg
      | _ => simp at hg
    · have hmem := ih hr hf'
      -- no frame above it releases the lock
      have herase : ∀ {l : Lock}, (l = .wait → False) → .wait ∈ (held me r).erase l :=
        fun hl => (mem_erase_of_ne (fun h => hl h.symm)).2 hmem
      cases g with
      | acquire l =>
        refine herase ?_
        rintro rfl
        rw [Entry.not_guarded (hfits.1 rfl) hr hf'] at hg
        cases hg
      | spin l =>
        refine herase ?_
        rintro rfl
        rw [Entry.not_guarded (hfits.1 rfl) hr hf'] at hg
        cases hg
      | sched pc =>
        cases pc with
        | sleepReleased ch l =>
          refine mem_append_right _ (herase ?_)
          rintro rfl
          rw [Sleeper.not_guarded hfits.1 hr hf'] at hg
          cases hg
        | sleepBack l =>
          refine mem_append_right _ (herase ?_)
          rintro rfl
          rw [Sleeper.not_guarded hfits hr hf'] at hg
          cases hg
        | _ => simp [hmem]
      | stride pc => cases pc <;> simp [hmem]
      | loteria pc => cases pc <;> simp [hmem]
      | wake pc => cases pc <;> simp [hmem]
      | fork pc => cases pc <;> simp [hmem]
      | exit pc => cases pc <;> simp [hmem]
      | wait pc => cases pc <;> simp [hmem]
      | trap pc => cases pc <;> simp [hmem]
      | _ => simp [hmem]

theorem checked_held {k : Nat} (hsh : Shape me st) (h : topmost Frame.checked st = some k)
    (hk : 0 < k) : .wait ∈ held me st := by
  rcases exists_of_findSome?_eq_some h with ⟨f, hf, hval⟩
  refine guarded_held hsh hf ?_
  cases f with
  | wait pc => cases pc <;> simp at hval ⊢; omega
  | sched pc =>
    cases pc with
    | sleepLocked ch lk => cases lk <;> simp at hval ⊢
    | _ => simp at hval
  | _ => simp at hval

theorem notified_held (hsh : Shape me st) (h : topmost Frame.notified st = some true) :
    .wait ∈ held me st := by
  rcases exists_of_findSome?_eq_some h with ⟨f, hf, hval⟩
  refine guarded_held hsh hf ?_
  cases f with
  | exit pc => cases pc <;> simp at hval ⊢
  | wake pc => cases pc <;> simp at hval
  | _ => simp at hval

theorem notifying_mem (h : notifying st = true) : ∃ status, .exit (.woken status) ∈ st := by
  unfold notifying at h
  split at h
  · exact ⟨_, mem_cons_self⟩
  · cases h

theorem aim_mem {ch : Option Chan} (h : aim st = some ch) :
    (∃ status, .exit (.woken status) ∈ st) ∧ ∃ k, sweep st = some (ch, k) := by
  induction st with
  | nil => cases h
  | cons f r ih =>
    -- the loop itself, and the lock operations above it
    have hloop : ∀ {ch' : Option Chan} {k : Nat}, (if notifying r then some ch' else none) = some ch →
        (∃ status, .exit (.woken status) ∈ f :: r) ∧ ∃ k', some (ch', k) = some (ch, k') := by
      intro ch' k heq
      split at heq
      · rename_i hnot
        cases heq
        rcases notifying_mem hnot with ⟨status, hmem⟩
        exact ⟨⟨status, mem_cons_of_mem _ hmem⟩, k, rfl⟩
      · cases heq
    have hlock : aim r = some ch → (∃ status, .exit (.woken status) ∈ f :: r) ∧
        ∃ k, sweep r = some (ch, k) := by
      intro hr
      rcases ih hr with ⟨⟨status, hmem⟩, hk⟩
      exact ⟨⟨status, mem_cons_of_mem _ hmem⟩, hk⟩
    cases f with
    | acquire l => exact hlock h
    | spin l => exact hlock h
    | release l => exact hlock h
    | wake pc =>
      cases pc with
      | wakeupNext ch' k => exact hloop h
      | wakeupLocked ch' i => exact hloop h
      | _ => cases h
    | _ => cases h

theorem aim_held {ch : Option Chan} (hsh : Shape me st) (h : aim st = some ch) :
    .wait ∈ held me st := by
  rcases aim_mem h with ⟨⟨status, hmem⟩, -⟩
  exact guarded_held hsh hmem rfl

end Views

/-! ## What the code does to parents and zombies -/

/-- The step assigns `v` to the `parent` of slot `i` and no other. -/
structure SetsParent (s t : State n) (i : Slot) (v : Option Slot) : Prop where
  at_slot : (t.proc i).parent = v
  elsewhere : ∀ j, j ≠ i → (t.proc j).parent = (s.proc j).parent

/-- The classes of segments of code. -/
inductive Kin (s t : State n) (c : Fin n) : Frame → Stack → Prop
  | calm {f : Frame} {fs : Stack} (hparent : ∀ i, (t.proc i).parent = (s.proc i).parent)
      (hdead : ∀ i, Dead (t.proc i).state → (t.proc i).state = (s.proc i).state) : Kin s t c f fs
  | fork {p i : Slot} {pid : Int32} (hp : s.myproc c = some p)
      (hparent : SetsParent s t i (some p)) (hstate : ∀ j, (t.proc j).state = (s.proc j).state) :
      Kin s t c (.fork (.setParent i pid))
        [.release .wait, .acquire (.proc i), .fork (.setRunnable i pid)]
  | adopt {p i : Slot} {status : Int32} (hp : s.myproc c = some p)
      (hold : (s.proc i).parent = some p) (hparent : SetsParent s t i (some s.initproc))
      (hstate : ∀ j, (t.proc j).state = (s.proc j).state) :
      Kin s t c (.exit (.reparent status i.val))
        [.wake (.wakeupNext (some (.proc s.initproc)) 0), .exit (.reparent status (i.val + 1))]
  | exit {p : Slot} {status : Int32} (hp : s.myproc c = some p)
      (hparent : ∀ i, (t.proc i).parent = (s.proc i).parent) (hstate : SetsState s t p .zombie) :
      Kin s t c (.exit (.locked status)) [.release .wait, .sched .sched, .exit .zombie]
  | reap {p i : Slot} {addr : UInt64} (hp : s.myproc c = some p)
      (hold : (s.proc i).state = .zombie) (hparent : SetsParent s t i none)
      (hstate : SetsState s t i .unused) :
      Kin s t c (.wait (.locked addr i))
        [.release (.proc i), .release .wait, .ret (s.proc i).pid]

section Kin

variable {s t : State n} {c : Fin n} {f : Frame} {ws : List Write} {fs rest new : Stack}

/-- The assignments that leave `parent` alone and kill or free nobody. -/
def gentle : Write → Bool
  | .parent _ _ => false
  | .state _ v => v ≠ .zombie ∧ v ≠ .unused
  | _ => true

attribute [local simp] gentle

theorem gentle_proc {i : Slot} (hws : ∀ w ∈ ws, gentle w = true) (q : Proc) :
    (ws.foldl (fun q w => w.onProc i q) q).parent = q.parent ∧
      (Dead (ws.foldl (fun q w => w.onProc i q) q).state →
        (ws.foldl (fun q w => w.onProc i q) q).state = q.state) := by
  refine Write.foldl_onProc
    (R := fun q q' => q'.parent = q.parent ∧ (Dead q'.state → q'.state = q.state))
    (fun q => ⟨rfl, fun _ => rfl⟩) ?_ ?_ q
  · rintro a b c ⟨hab, hdab⟩ ⟨hbc, hdbc⟩
    refine ⟨hbc.trans hab, fun hd => ?_⟩
    have hstate := hdbc hd
    rw [hstate] at hd
    exact hstate.trans (hdab hd)
  · intro w hw q
    have hgentle := hws w hw
    cases w with
    | parent j v => simp at hgentle
    | state j v =>
      by_cases hj : i = j
      · have hv : v ≠ .zombie ∧ v ≠ .unused := by simpa using hgentle
        simp [hj, Dead, hv]
      · simp [hj]
    | _ =>
      first
        | exact ⟨rfl, fun _ => rfl⟩
        | (simp only [Write.onProc]; split <;> exact ⟨rfl, fun _ => rfl⟩)

theorem Kin.of_gentle (hws : ∀ w ∈ ws, gentle w = true) : Kin s (after s c ws new) c f fs := by
  refine .calm (fun i => ?_) (fun i hd => ?_)
  · rw [State.writes_proc]
    exact (gentle_proc hws _).1
  · rw [State.writes_proc] at hd ⊢
    exact (gentle_proc hws _).2 hd

theorem Kin.of_free {i : Slot} (hfree : ∀ i, (s.proc i).state = .unused → (s.proc i).parent = none)
    (hi : (s.proc i).state = .unused) (hat : (t.proc i).parent = none ∧ (t.proc i).state = .unused)
    (helse : ∀ j, j ≠ i → t.proc j = s.proc j) : Kin s t c f fs := by
  refine .calm (fun j => ?_) (fun j _ => ?_)
  · by_cases hj : j = i
    · rw [hj, hat.1, hfree i hi]
    · rw [helse j hj]
  · by_cases hj : j = i
    · rw [hj, hat.2, hi]
    · rw [helse j hj]

theorem seg_kin (h : Inv s) (hfree : ∀ i, (s.proc i).state = .unused → (s.proc i).parent = none)
    (hst : s.stack (s.thread c) = f :: rest) (hseg : Seg s c f ws fs) :
    Kin s (after s c ws new) c f fs := by
  have hexpect := h.expects_stack hst
  cases hseg with
  | ret => exact .of_gentle (by simp)
  | loteria hseg => cases hseg <;> exact .of_gentle (by simp)
  | stride hseg => cases hseg <;> exact .of_gentle (by simp)
  | sched hseg => cases hseg <;> exact .of_gentle (by simp)
  | wake hseg => cases hseg <;> exact .of_gentle (by simp)
  | fork hseg =>
    cases hseg with
    | @noMemory call i pid =>
      refine .of_free hfree (hexpect (i, .unused) rfl) (by simp) ?_
      intro j hj
      simp [hj]
    | @noCopy cls i pid =>
      refine .of_free hfree (hexpect (i, .unused) rfl) (by simp) ?_
      intro j hj
      simp [hj]
    | @allocated call i pid =>
      cases call <;> exact .of_gentle (by simp)
    | @setParent p i pid hp =>
      refine .fork hp ⟨by simp, fun j hj => by simp [hj]⟩ ?_
      intro j
      by_cases hj : j = i <;> simp [hj]
    | @copyFailed i =>
      have hnd := h.nodup_stack hst
      simp at hnd
    | _ => exact .of_gentle (by simp)
  | exit hseg =>
    cases hseg with
    | @adopt p i status hp hparent =>
      refine .adopt hp hparent
        ⟨by simp, fun j hj => by simp [hj]⟩ ?_
      intro j
      by_cases hj : j = i <;> simp [hj]
    | @locked p status hp =>
      refine .exit hp ?_ ⟨by simp, fun j hj => by simp [hj]⟩
      intro j
      by_cases hj : j = p <;> simp [hj]
    | _ => exact .of_gentle (by simp)
  | wait hseg =>
    cases hseg with
    | @reap p i addr hp hstate =>
      exact .reap hp hstate
        ⟨by simp, fun j hj => by simp [hj]⟩
        ⟨by simp, fun j hj => by simp [hj]⟩
    | _ => exact .of_gentle (by simp)
  | trap hseg => cases hseg <;> exact .of_gentle (by simp)

theorem Kin.cases_held (hst : s.stack (s.thread c) = f :: rest) (hkin : Kin s t c f fs) :
    ((∀ i, (t.proc i).parent = (s.proc i).parent) ∧
      ∀ i, Dead (t.proc i).state → (t.proc i).state = (s.proc i).state) ∨
    .wait ∈ held (s.thread c).self (s.stack (s.thread c)) := by
  rw [hst]
  cases hkin with
  | calm hparent hdead => exact .inl ⟨hparent, hdead⟩
  | fork _ _ _ => exact .inr (by simp)
  | adopt _ _ _ _ => exact .inr (by simp)
  | exit _ _ _ => exact .inr (by simp)
  | reap _ _ _ _ => exact .inr (by simp)

end Kin

/-! ## How the views move -/

section Shifts

variable {me : Option Slot} {old new : Stack}

theorem shift_topmost {β : Type} {g : Frame → Option β} (h : Shift me old new)
    (hlock : ∀ l, g (.acquire l) = none ∧ g (.spin l) = none ∧ g (.release l) = none)
    (hswtch : ∀ p, g (.swtch p) = none) (hback : g (.sched .swtch) = none)
    (htrap : ∀ pc, g (.trap pc) = none) : topmost g new = topmost g old := by
  cases h with
  | same => rfl
  | acquire l r => simp [(hlock l).1, (hlock l).2.1]
  | spin l r => simp [(hlock l).2.1]
  | release l r => simp [(hlock l).2.2]
  | swtch p r => simp [hswtch p]
  | swtchBack r => simp [hback]
  | interrupt timer st hheld => simp [htrap]

theorem shift_mem {f : Frame} (h : Shift me old new) (hf : f ∈ new) (hspin : ∀ l, f ≠ .spin l)
    (htrap : ∀ pc, f ≠ .trap pc) : f ∈ old := by
  cases h with
  | same => exact hf
  | acquire l r =>
    rcases mem_cons.1 hf with rfl | hf
    · exact absurd rfl (hspin l)
    · exact mem_cons_of_mem _ hf
  | interrupt timer st hheld =>
    rcases mem_cons.1 hf with rfl | hf
    · exact absurd rfl (htrap _)
    · rcases mem_cons.1 hf with rfl | hf
      · exact absurd rfl (htrap _)
      · exact hf
  | _ => exact mem_cons_of_mem _ hf

theorem shift_aim {ch : Option Chan} (h : Shift me old new) (hwf : Wf me old)
    (ha : aim new = some ch) : aim old = some ch := by
  cases h with
  | same => exact ha
  | acquire l r => exact ha
  | spin l r => exact ha
  | release l r => exact ha
  | swtch p r =>
    rcases hwf.1.2 with ⟨cl, rfl⟩ | rfl <;> simp at ha
  | swtchBack r =>
    rcases hwf.1.2 with ⟨b, r', rfl⟩
    simp at ha
  | interrupt timer st hheld => simp at ha

end Shifts

section Segments

variable {s : State n} {c : Fin n} {me : Option Slot} {f : Frame} {ws : List Write}
  {fs rest : Stack} {k : Nat}

/-- Only `exit` moves the position of `reparent`. -/
theorem seg_adopted (h : Seg s c f ws fs) (hf : ∀ pc, f ≠ .exit pc)
    (hv : topmost Frame.adopted (fs ++ rest) = some k) :
    topmost Frame.adopted (f :: rest) = some k := by
  cases h with
  | ret => simpa using hv
  | loteria h => cases h <;> simpa using hv
  | stride h => cases h <;> simpa using hv
  | sched h => cases h <;> simpa using hv
  | wake h => cases h <;> simpa using hv
  | fork h => cases h <;> simpa using hv
  | exit h => exact absurd rfl (hf _)
  | wait h => cases h <;> simpa using hv
  | trap h =>
    cases h with
    | @call p call hp hk => cases call <;> simpa using hv
    | _ => simpa using hv

/-- Only `wait` moves the position of its scan. -/
theorem seg_checked (h : Seg s c f ws fs) (hf : ∀ pc, f ≠ .wait pc) (hsh : Shape me (f :: rest))
    (hv : topmost Frame.checked (fs ++ rest) = some k) (hk : 0 < k) :
    topmost Frame.checked (f :: rest) = some k := by
  cases h with
  | ret => simpa using hv
  | loteria h => cases h <;> simpa using hv
  | stride h => cases h <;> simpa using hv
  | sched h =>
    cases h with
    | @sleepLocked ch lk =>
      cases lk with
      | wait =>
        rcases hsh.1.1 with ⟨addr, r', rfl⟩
        have hzero : 0 = k := by simpa using hv
        omega
      | _ => simpa using hv
    | _ => simpa using hv
  | wake h => cases h <;> simpa using hv
  | fork h => cases h <;> simpa using hv
  | exit h => cases h <;> simpa using hv
  | wait h => exact absurd rfl (hf _)
  | trap h =>
    cases h with
    | @call p call hp hk =>
      cases call with
      | wait addr =>
        have hzero : 0 = k := by simpa using hv
        omega
      | _ => simpa using hv
    | _ => simpa using hv

/-- `exit` has notified the parent only when its `wakeup` has come to the end of the table. -/
theorem seg_notified (h : Seg s c f ws fs) (hwf : Wf me (f :: rest)) (hsh : Shape me (f :: rest))
    (hv : topmost Frame.notified (fs ++ rest) = some true) :
    topmost Frame.notified (f :: rest) = some true ∨
      ∃ ch i status r, f = .wake (.wakeupNext ch i) ∧ NPROC ≤ i ∧
        rest = .exit (.woken status) :: r := by
  cases h with
  | ret => exact .inl (by simpa using hv)
  | loteria h => cases h <;> exact .inl (by simpa using hv)
  | stride h => cases h <;> exact .inl (by simpa using hv)
  | sched h => cases h <;> exact .inl (by simpa using hv)
  | wake h =>
    cases h with
    | @wakeupEnd ch i hi =>
      refine .inr ?_
      have hwaker : Waker rest := hsh.1
      unfold Waker at hwaker
      split at hwaker
      · -- code outside proc.c holds no other lock
        rename_i k canSleep r
        have hheld : .wait ∈ held me r := notified_held hsh.2.2 (by simpa using hv)
        have hnil : held me r = [] := hwf.2.2.1.1
        rw [hnil] at hheld
        cases hheld
      · have hbase := Base.topmost_eq (g := Frame.notified) hsh.2.1 (fun _ => rfl)
        simp [hbase] at hv
      · exact ⟨ch, i, _, _, rfl, by omega, rfl⟩
      · exact hwaker.elim
    | _ => simp_all
  | fork h => cases h <;> exact .inl (by simpa using hv)
  | exit h =>
    have hbase := Base.topmost_eq (g := Frame.notified) hsh.1 (fun _ => rfl)
    cases h <;> simp_all
  | wait h => cases h <;> exact .inl (by simpa using hv)
  | trap h =>
    cases h with
    | @call p call hp hk => cases call <;> exact .inl (by simpa using hv)
    | critWakeup ch => simp at hv
    | _ => exact .inl (by simpa using hv)

/-- The `wakeup` of the parent keeps its channel. -/
theorem seg_aim {ch : Option Chan} (h : Seg s c f ws fs) (hwf : Wf me (f :: rest))
    (hsh : Shape me (f :: rest)) (ha : aim (fs ++ rest) = some ch) :
    aim (f :: rest) = some ch ∨ ∃ p status i, f = .exit (.reparent status i) ∧ s.myproc c = some p ∧
        ch = (s.proc p).parent.map .proc := by
  -- no frame stands on such a `wakeup`, but for interrupts, which need all locks released
  have hsweep : sweep rest = none → aim rest ≠ some ch := by
    intro hnone ha
    rcases (aim_mem ha).2 with ⟨k, hk⟩
    rw [hnone] at hk
    cases hk
  have hheld : held me rest = [] → aim rest ≠ some ch := by
    intro hnil ha
    have hmem := aim_held hsh.2 ha
    rw [hnil] at hmem
    cases hmem
  rcases hwf with ⟨hok, -⟩
  rcases hsh with ⟨hfits, -⟩
  cases h with
  | ret => exact absurd ha (hsweep hfits.1)
  | loteria h => cases h <;> simp at ha
  | stride h => cases h <;> simp at ha
  | sched h =>
    cases h with
    | schedRet => exact absurd ha (hsweep hfits.1)
    | yield hp => simp at ha
    | sleepBack hp => exact absurd ha (hsweep (Sleeper.sweep_eq hfits))
    | _ => simp at ha
  | wake h =>
    cases h with
    | wakeupSelf hp => exact .inl ha
    | wakeupVisit hp => exact .inl ha
    | wakeup _ _ => exact .inl ha
    | wakeupSkip _ => exact .inl ha
    | wakeupEnd hi => exact absurd ha (hsweep (Waker.sweep_eq hfits))
    | setkilled hp => exact absurd ha (hsweep hfits.1)
    | _ => simp at ha
  | fork h => cases h <;> simp at ha
  | exit h =>
    cases h with
    | @reparentEnd p status i hp hi =>
      exact .inr ⟨p, status, i, rfl, hp, by simpa using ha.symm⟩
    | _ => simp at ha
  | wait h => cases h <;> simp at ha
  | trap h =>
    cases h with
    | @call p call hp hk => cases call <;> simp at ha
    | ret => exact absurd ha (hsweep hfits.1)
    | served => exact absurd ha (hheld hok.1)
    | exitCrit => exact absurd ha (hheld hok.1)
    | handled hp => exact absurd ha (hheld hok)
    | kerneltrapRet => exact absurd ha (hheld hok.2)
    | _ => simp at ha

end Segments

end Xv6Schedulers.Lifecycle
