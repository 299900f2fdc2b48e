import Xv6Schedulers.Lifecycle.Shape
import Xv6Schedulers.Kernel.Solo

/-!
# Sleep — no lost wake-up

`sleep(ch, lk)` takes `p->lock` before it releases `lk`, and `p->lock` is released only by the
scheduler, after `swtch`.  So a thread that holds `lk` and calls `wakeup(ch)` finds every process
that entered `sleep(ch, lk)` before it either `SLEEPING` on `ch` or already woken.

* `Dozing s p ch lk`: process `p` is inside `sleep(ch, lk)` past its release of `lk`, and has not
  been woken up;
* `dozing_move`: a process starts to doze only by its own step, while it holds `lk`;
* `Swept`: a `wakeup(ch)` under `lk` leaves nobody behind it dozing.
-/

namespace Xv6Schedulers.Lifecycle

open Kernel Locking Lib

variable {n : Nat}

/-- Process `p` sleeps, or is about to, in a call of `sleep(ch, lk)`. -/
def Dozing (s : State n) (p : Slot) (ch : Chan) (lk : Lock) : Prop :=
  settling (s.stack (.proc p)) = some (ch, lk) ∨
    ((s.proc p).state = .sleeping ∧ (s.proc p).chan = some ch ∧
      slumber (s.stack (.proc p)) = some lk)

/-! ## Who can fall asleep -/

/-- The assignments that put nobody to sleep and leave every `p->chan` alone. -/
def wakeful : Write → Bool
  | .state _ .sleeping | .chan _ _ => false
  | _ => true

attribute [local simp] Frame.Fits newStack wakeful

section Segments

variable {s : State n} {c : Fin n} {p : Slot} {ws : List Write} {fs rest : Stack} {f : Frame}

theorem wakeful_proc (hws : ∀ w ∈ ws, wakeful w = true) (q : Proc)
    (h : (ws.foldl (fun q w => w.onProc p q) q).state = .sleeping) :
    q.state = .sleeping ∧ (ws.foldl (fun q w => w.onProc p q) q).chan = q.chan := by
  revert h
  refine Write.foldl_onProc
    (R := fun q q' => q'.state = .sleeping → q.state = .sleeping ∧ q'.chan = q.chan)
    (fun q h => ⟨h, rfl⟩) ?_ ?_ q
  · intro a b c hab hbc hc
    rcases hbc hc with ⟨hb, hchan⟩
    rcases hab hb with ⟨ha, hchan'⟩
    exact ⟨ha, hchan.trans hchan'⟩
  · intro w hw q
    have hwakeful := hws w hw
    cases w with
    | chan j v => simp at hwakeful
    | state j v =>
      by_cases hj : p = j
      · have hv : v ≠ .sleeping := by
          rintro rfl
          simp at hwakeful
        simp [hj, hv]
      · simp [hj]
    | _ =>
      first
        | exact fun h => ⟨h, rfl⟩
        | (simp only [Write.onProc]; split <;> exact fun h => ⟨h, rfl⟩)

/-- What a segment of code does to a process that is `SLEEPING` after it. -/
inductive Lulls (s t : State n) (c : Fin n) (p : Slot) : Frame → Prop
  | kept {f : Frame} (hstate : (s.proc p).state = .sleeping)
      (hchan : (t.proc p).chan = (s.proc p).chan) : Lulls s t c p f
  | sleep {ch : Chan} {lk : Lock} (hp : s.myproc c = some p) (hchan : (t.proc p).chan = some ch) :
      Lulls s t c p (.sched (.sleepReleased ch lk))
  | back {lk : Lock} (hp : s.myproc c = some p) (hstate : (s.proc p).state = .sleeping) :
      Lulls s t c p (.sched (.sleepBack lk))

theorem Lulls.of_wakeful {new : Stack} (hws : ∀ w ∈ ws, wakeful w = true)
    (h : ((after s c ws new).proc p).state = .sleeping) : Lulls s (after s c ws new) c p f := by
  rw [State.writes_proc] at h
  rcases wakeful_proc hws _ h with ⟨hstate, hchan⟩
  refine .kept hstate ?_
  rw [State.writes_proc, hchan]
  rfl

theorem Lulls.of_same {t : State n} (hproc : t.proc p = s.proc p)
    (h : (t.proc p).state = .sleeping) : Lulls s t c p f := by
  rw [hproc] at h
  exact .kept h (by rw [hproc])

theorem seg_lulls {new : Stack} (h : Seg s c f ws fs)
    (hsleep : ((after s c ws new).proc p).state = .sleeping) :
    Lulls s (after s c ws new) c p f := by
  cases h with
  | ret => exact .of_wakeful (by simp) hsleep
  | loteria h => cases h <;> exact .of_wakeful (by simp) hsleep
  | stride h => cases h <;> exact .of_wakeful (by simp) hsleep
  | sched h =>
    cases h with
    | @sleepReleased q ch lk hq =>
      by_cases hpq : p = q
      · subst hpq
        exact .sleep hq (by simp)
      · exact .of_same (by simp [hpq]) hsleep
    | @sleepBack q lk hq =>
      by_cases hpq : p = q
      · subst hpq
        exact .back hq (by simpa using hsleep)
      · exact .of_same (by simp [hpq]) hsleep
    | _ => exact .of_wakeful (by simp) hsleep
  | wake h => cases h <;> exact .of_wakeful (by simp) hsleep
  | fork h =>
    cases h with
    | @noMemory call i pid =>
      by_cases hpi : p = i
      · simp [hpi] at hsleep
      · exact .of_same (by simp [hpi]) hsleep
    | @noCopy cls i pid =>
      by_cases hpi : p = i
      · simp [hpi] at hsleep
      · exact .of_same (by simp [hpi]) hsleep
    | @copyFailed i =>
      by_cases hpi : p = i
      · simp [hpi] at hsleep
      · exact .of_same (by simp [hpi]) hsleep
    | @allocated call i pid =>
      cases call <;> exact .of_wakeful (by simp) hsleep
    | _ => exact .of_wakeful (by simp) hsleep
  | exit h => cases h <;> exact .of_wakeful (by simp) hsleep
  | wait h =>
    cases h with
    | @reap q i addr hq hstate =>
      by_cases hpi : p = i
      · simp [hpi] at hsleep
      · exact .of_same (by simp [hpi]) hsleep
    | _ => exact .of_wakeful (by simp) hsleep
  | trap h => cases h <;> exact .of_wakeful (by simp) hsleep

/-- Only the release of `lk` leads to the point where the process settles. -/
theorem seg_settling {me : Option Slot} {x : Chan × Lock} (h : Seg s c f ws fs)
    (hsh : Shape me (f :: rest)) (hset : settling (fs ++ rest) = some x) :
    f = .sched (.sleepLocked x.1 x.2) := by
  rcases hsh with ⟨hfits, -⟩
  cases h with
  | ret => simp_all
  | loteria h => cases h <;> simp_all
  | stride h => cases h <;> simp_all
  | sched h =>
    cases h with
    | @sleepLocked ch lk =>
      have hx : (ch, lk) = x := by simpa using hset
      subst hx
      rfl
    | _ => simp_all
  | wake h =>
    have hnone : Waker rest → settling rest = none := Waker.settling_eq
    cases h <;> simp_all
  | fork h => cases h <;> simp_all
  | exit h => cases h <;> simp_all
  | wait h =>
    have hnone := Base.settling_eq hfits
    cases h <;> simp_all
  | @trap pc _ _ h =>
    cases h with
    | @call q call hq hk => cases call <;> simp at hset
    | @exitCrit k canSleep => cases canSleep <;> simp_all
    | @served canSleep => cases canSleep <;> simp_all
    | _ => simp_all

end Segments

section Moves

variable {s t : State n} {c : Fin n} {p : Slot} {ch : Chan} {lk : Lock} {f : Frame}
  {ws : List Write} {fs rest : Stack}

theorem cur_of_sched {pc : SchedPc} (h : Inv s)
    (hst : s.stack (s.thread c) = .sched pc :: rest) (hp : s.myproc c = some p) :
    s.cur c = some p := by
  have hsome : (s.cur c).isSome := by
    have hok := (h.wf_stack hst).1
    cases pc <;> exact hok.1
  rcases Option.isSome_iff_exists.1 hsome with ⟨q, hq⟩
  have hmy := h.proc.myproc_of_cur hq
  rw [hp] at hmy
  rw [hq, hmy]

theorem leaving_of_sleeping (h : Inv s) (hcur : s.cur c = some p)
    (hstate : (s.proc p).state = .sleeping) : leaving (s.stack (.proc p)) = true := by
  by_contra hne
  have hrun := h.proc.running_cur hcur (Bool.eq_false_iff.2 hne)
  rw [hstate] at hrun
  cases hrun

theorem dozing_seg (h : Formed s) (hst : s.stack (s.thread c) = f :: rest) (hseg : Seg s c f ws fs)
    (hd : Dozing (after s c ws (fs ++ rest)) p ch lk) :
    Dozing s p ch lk ∨ (s.cur c = some p ∧ f = .sched (.sleepLocked ch lk)) := by
  have hacts := seg_acts h.inv.proc hst hseg
  have hshape := h.shape_thread c
  rw [hst] at hshape
  by_cases hcur : s.cur c = some p
  · have hthread := State.thread_of_cur_some hcur
    have hstp : s.stack (.proc p) = f :: rest := by rw [← hthread, hst]
    have hstt : (after s c ws (fs ++ rest)).stack (.proc p) = fs ++ rest := by
      rw [← hthread, hacts.self]
    rcases hd with hset | ⟨hstate, hchan, hslumber⟩
    · rw [hstt] at hset
      exact .inr ⟨hcur, seg_settling hseg hshape hset⟩
    · rw [hstt] at hslumber
      cases seg_lulls hseg hstate with
      | @sleep ch' lk' hp hchan' =>
        -- the assignment of `p->state` itself
        rw [hchan'] at hchan
        cases hchan
        cases hseg with
        | sched hseg =>
          cases hseg with
          | sleepReleased hp =>
            have hlk : lk' = lk := by simpa using hslumber
            subst hlk
            exact .inl (.inl (by simp [hstp]))
      | back hp hsleep =>
        have hleave := leaving_of_sleeping h.inv hcur hsleep
        simp [hstp] at hleave
      | kept hsleep hchan' =>
        have hleave := leaving_of_sleeping h.inv hcur hsleep
        rw [hstp] at hleave
        -- of the code that runs on the way to `swtch`, only `sched` is a segment
        refine .inl (.inr ⟨hsleep, by rw [← hchan', hchan], ?_⟩)
        rw [hstp]
        cases hseg with
        | sched hseg =>
          cases hseg with
          | sched hp hold hnoff hne hintr =>
            cases rest with
            | nil => simp at hslumber
            | cons g rest =>
              cases g with
              | sched pc => cases pc <;> simp_all
              | _ => simp at hslumber
          | _ => simp at hleave
        | _ => simp at hleave
  · have hne : Thread.proc p ≠ s.thread c := by
      intro heq
      have hself := thread_self s c
      rw [← heq] at hself
      exact hcur hself.symm
    refine .inl ?_
    rcases hacts.other _ hne with heq | ⟨i, -, -, heq⟩
    · rcases hd with hset | ⟨hstate, hchan, hslumber⟩
      · exact .inl (by rw [← heq, hset])
      · rw [heq] at hslumber
        cases seg_lulls hseg hstate with
        | sleep hp _ => exact absurd (cur_of_sched h.inv hst hp) hcur
        | back hp _ => exact absurd (cur_of_sched h.inv hst hp) hcur
        | kept hsleep hchan' => exact .inr ⟨hsleep, by rw [← hchan', hchan], hslumber⟩
    · rcases hd with hset | ⟨-, -, hslumber⟩
      · simp [heq] at hset
      · simp [heq] at hslumber

theorem dozing_shifts (h : Formed s) (hshift : Shifts s t c) (hd : Dozing t p ch lk) :
    Dozing s p ch lk := by
  have hproc := hshift.still.proc
  by_cases hcur : s.cur c = some p
  · have hthread := State.thread_of_cur_some hcur
    have hself := hshift.self
    have hwf := h.inv.lock.wf_thread c
    have hshape := h.shape_thread c
    rw [hthread] at hself hwf hshape
    -- a process that sleeps and is still executed is on its way to `swtch`
    have hleave : (t.proc p).state = .sleeping → leaving (s.stack (.proc p)) = true := by
      intro hsleep
      rw [hproc] at hsleep
      exact leaving_of_sleeping h.inv hcur hsleep
    unfold Dozing at hd ⊢
    rw [hproc] at hd hleave
    generalize hold : s.stack (.proc p) = old at *
    generalize hnew : t.stack (.proc p) = new at *
    cases hself with
    | same => exact hd
    | acquire l r => simp at hd
    | spin l r =>
      rcases hd with hset | ⟨hsleep, -, -⟩
      · rw [hshape.1.2] at hset
        cases hset
      · exact absurd (hleave hsleep) (by simp)
    | release l r => exact hd
    | swtch q r => simp [hcur, Frame.Ok] at hwf
    | swtchBack r =>
      rcases hwf.1 with ⟨-, b, r', rfl⟩
      rcases hd with hset | ⟨hsleep, hchan, hslumber⟩
      · simp at hset
      · refine .inr ⟨hsleep, hchan, ?_⟩
        cases r' with
        | nil => simp at hslumber
        | cons g r' =>
          cases g with
          | sched pc => cases pc <;> simp_all
          | _ => simp at hslumber
    | interrupt timer st hheld => simp at hd
  · have hne : Thread.proc p ≠ s.thread c := by
      intro heq
      have hself := thread_self s c
      rw [← heq] at hself
      exact hcur hself.symm
    unfold Dozing at hd ⊢
    rwa [hproc, hshift.other _ hne] at hd

/-- A process starts to doze only by its own step inside `sleep(ch, lk)`, while it holds `lk`. -/
theorem dozing_move (h : Formed s) (hrun : (s.cpu c).panicked = none) (hm : Move s c t)
    (hd : Dozing t p ch lk) :
    Dozing s p ch lk ∨
      (s.cur c = some p ∧ ∃ rest, s.stack (.proc p) = .sched (.sleepLocked ch lk) :: rest) := by
  rcases move_shifts h.inv hrun hm with ⟨f, rest, ws, fs, hst, hseg, rfl⟩ | hshift
  · rcases dozing_seg h hst hseg hd with hd | ⟨hcur, rfl⟩
    · exact .inl hd
    · refine .inr ⟨hcur, rest, ?_⟩
      rw [← State.thread_of_cur_some hcur, hst]
  · exact .inl (dozing_shifts h hshift hd)

/-! ## What a `wakeup` leaves behind -/

/-- No process in front of the position of a `wakeup` that runs under `lk` dozes in a call of
`sleep` with the same channel and lock. -/
def Swept (s : State n) : Prop :=
  ∀ (u : Thread n) (ch : Chan) (k : Nat) (lk : Lock), sweep (s.stack u) = some (some ch, k) →
    lk ∈ held u.self (s.stack u) → rank lk = 0 →
    ∀ p : Slot, p.val < k → ¬ Dozing s p ch lk

theorem settling_locked (h : Inv s) (hset : settling (s.stack (.proc p)) = some (ch, lk)) :
    ∃ d, s.cur d = some p ∧ s.locked (.proc p) = some d := by
  have hex : ∃ d, s.cur d = some p := by
    by_contra hnone
    rcases h.proc.parked p (fun d hd => hnone ⟨d, hd⟩) with (⟨b, r, hst⟩ | hst) | ⟨hst, -⟩
    · simp [hst] at hset
    · simp [hst] at hset
    · simp [hst] at hset
  rcases hex with ⟨d, hcur⟩
  refine ⟨d, hcur, (h.lock.holder _ d).2 ?_⟩
  simpa [heldBy, hcur, State.thread_of_cur_some hcur] using settling_held hset

theorem slumber_of_settling {st : Stack} {x : Chan × Lock} (h : settling st = some x) :
    slumber st = none := by
  induction st with
  | nil => rfl
  | cons f r ih =>
    cases f with
    | release l => exact ih h
    | sched pc => cases pc <;> simp at h ⊢
    | _ => rfl

theorem not_dozing_of_visit {i : Slot}
    (h : Formed s) (hst : s.stack (s.thread c) = .wake (.wakeupLocked (some ch) i) :: rest)
    (hseg : Seg s c (.wake (.wakeupLocked (some ch) i)) ws fs) :
    ¬ Dozing (after s c ws (fs ++ rest)) i ch lk := by
  intro hd
  rcases dozing_seg h hst hseg hd with hold | ⟨-, hf⟩
  · rcases hold with hset | ⟨hstate, hchan, hslumber⟩
    · -- the loop holds the lock of the slot, so nobody settles there
      rcases settling_locked h.inv hset with ⟨d, hcur, hlock⟩
      have hmine : s.locked (.proc i) = some c := (h.inv.holder_stack hst _).2 (by simp)
      rw [hmine] at hlock
      cases hlock
      rw [State.thread_of_cur_some hcur] at hst
      simp [hst] at hset
    · -- whoever sleeps there does so with the stack it has kept
      have hcur : s.cur c ≠ some i := by
        intro hcur
        have hleave := leaving_of_sleeping h.inv hcur hstate
        rw [← State.thread_of_cur_some hcur, hst] at hleave
        simp at hleave
      have hne : Thread.proc i ≠ s.thread c := by
        intro heq
        have hself := thread_self s c
        rw [← heq] at hself
        exact hcur hself.symm
      cases hseg with
      | wake hseg =>
        cases hseg with
        | wakeup _ _ =>
          have hrunnable : ((after s c [.state i .runnable]
              ([.release (.proc i), .wake (.wakeupNext (some ch) (i.val + 1))] ++
                rest)).proc i).state = .runnable := by
            simp
          rcases hd with hset | ⟨hstate', -, -⟩
          · have hacts := seg_acts h.inv.proc hst (.wake (.wakeup hstate hchan))
            rcases hacts.other _ hne with heq | ⟨j, -, -, heq⟩
            · rw [heq] at hset
              exact absurd hslumber (by rw [slumber_of_settling hset]; simp)
            · rw [heq] at hset
              simp at hset
          · rw [hrunnable] at hstate'
            cases hstate'
        | wakeupSkip hskip => exact hskip ⟨hstate, hchan⟩
  · cases hf

/-- How a segment of code comes to a position of a `wakeup`. -/
inductive Sweeps (s : State n) (c : Fin n) (new : List Lock) (ch : Option Chan) : Frame → Nat → Prop
  | call (f : Frame) : Sweeps s c new ch f 0
  | self {i : Slot} (hp : s.myproc c = some i) :
      Sweeps s c new ch (.wake (.wakeupNext ch i.val)) (i.val + 1)
  | visit (k : Nat) : Sweeps s c new ch (.wake (.wakeupNext ch k)) k
  | visited (i : Slot) : Sweeps s c new ch (.wake (.wakeupLocked ch i)) (i.val + 1)
  | resumed (f : Frame) (k : Nat) (hnew : new = []) : Sweeps s c new ch f k

theorem seg_sweeps {me : Option Slot}
    {ch : Option Chan} {k : Nat} (h : Seg s c f ws fs) (hwf : Wf me (f :: rest))
    (hsh : Shape me (f :: rest)) (hsw : sweep (fs ++ rest) = some (ch, k)) :
    Sweeps s c (held me (fs ++ rest)) ch f k := by
  rcases hsh with ⟨hfits, -⟩
  cases h with
  | ret => simp_all
  | loteria h => cases h <;> simp_all
  | stride h => cases h <;> simp_all
  | @sched pc _ _ h =>
    have hnone : ∀ {lk}, Sleeper lk rest → sweep rest = none := Sleeper.sweep_eq
    cases h <;> simp_all
  | wake h =>
    have hnone : Waker rest → sweep rest = none := Waker.sweep_eq
    cases h with
    | @wakeupSelf ch' i hp =>
      have heq : ch' = ch ∧ i.val + 1 = k := by simpa using hsw
      rcases heq with ⟨rfl, rfl⟩
      exact .self hp
    | @wakeupVisit ch' i hp =>
      have heq : ch' = ch ∧ i.val = k := by simpa using hsw
      rcases heq with ⟨rfl, rfl⟩
      exact .visit _
    | @wakeup ch' i hstate hchan =>
      have heq : ch' = ch ∧ i.val + 1 = k := by simpa using hsw
      rcases heq with ⟨rfl, rfl⟩
      exact .visited i
    | @wakeupSkip ch' i hskip =>
      have heq : ch' = ch ∧ i.val + 1 = k := by simpa using hsw
      rcases heq with ⟨rfl, rfl⟩
      exact .visited i
    | _ => simp_all
  | fork h => cases h <;> simp_all
  | exit h =>
    cases h with
    | adopt hp hparent =>
      have hk : 0 = k := by simp_all
      subst hk
      exact .call _
    | reparentEnd hp hi =>
      have hk : 0 = k := by simp_all
      subst hk
      exact .call _
    | _ => simp_all
  | wait h =>
    have hnone := Base.sweep_eq hfits
    cases h <;> simp_all
  | @trap pc _ _ h =>
    cases h with
    | @call q call hq hk => cases call <;> simp at hsw
    | @critWakeup k' canSleep ch' =>
      have hk : 0 = k := by simp_all
      subst hk
      exact .call _
    | @exitCrit k' canSleep => cases canSleep <;> simp_all
    | @served canSleep => cases canSleep <;> simp_all
    | handled hp => exact .resumed _ _ hwf.1
    | kerneltrapRet => exact .resumed _ _ hwf.1.2
    | _ => simp_all

theorem not_dozing_self {k : Nat} {i : Slot} (h : Inv s)
    (hst : s.stack (s.thread c) = .wake (.wakeupNext (some ch) k) :: rest)
    (hp : s.myproc c = some i) : ¬ Dozing s i ch lk := by
  have hcur : s.cur c = some i := by
    cases hcur : s.cur c with
    | none =>
      rw [State.thread_of_cur_none hcur] at hst
      rw [h.proc.myproc c, hst] at hp
      simp at hp
    | some q =>
      have hmy := h.proc.myproc_of_cur hcur
      rw [hp] at hmy
      exact hmy.symm
  rw [State.thread_of_cur_some hcur] at hst
  rintro (hset | ⟨hstate, -, -⟩)
  · simp [hst] at hset
  · have hleave := leaving_of_sleeping h hcur hstate
    simp [hst] at hleave

theorem sleepLocked_held (h : Inv s)
    (hst : s.stack (.proc p) = .sched (.sleepLocked ch lk) :: rest) :
    lk ∈ held (Thread.proc p : Thread n).self (s.stack (.proc p)) ∧ rank lk = 0 := by
  have hok := (h.lock.wf (.proc p))
  rw [hst] at hok
  rcases hok.1 with ⟨-, hheld, hrank⟩
  refine ⟨?_, hrank⟩
  simp only [Thread.self] at hheld ⊢
  simp [hst, hheld]

theorem not_dozing_other {u : Thread n} (h : Formed s) (hrun : (s.cpu c).panicked = none)
    (hm : Move s c t) (hu : u ≠ s.thread c) (hheld : lk ∈ held u.self (s.stack u))
    (hrank : rank lk = 0) (hnot : ¬ Dozing s p ch lk) : ¬ Dozing t p ch lk := by
  intro hd
  rcases dozing_move h hrun hm hd with hold | ⟨hcur, rest, hst⟩
  · exact hnot hold
  · have hp := (sleepLocked_held h.inv hst).1
    have heq := held_unique h.inv hheld hp hrank
    rw [heq, State.thread_of_cur_some hcur] at hu
    exact hu rfl

theorem swept_seg (h : Formed s)
    (hswept : Swept s) (hst : s.stack (s.thread c) = f :: rest) (hseg : Seg s c f ws fs)
    {k : Nat} (hsw : sweep (fs ++ rest) = some (some ch, k))
    (hheld : lk ∈ held (s.cur c) (fs ++ rest)) (hrank : rank lk = 0) (hp : p.val < k) :
    ¬ Dozing (after s c ws (fs ++ rest)) p ch lk := by
  have hwf := h.inv.wf_stack hst
  have hshape := h.shape_thread c
  rw [hst] at hshape
  have hmy : s.myproc c = procOf (s.cur c) (f :: rest) := by
    rw [← hst]
    exact h.inv.proc.myproc_procOf c
  have hkeeps := seg_keeps hmy hseg hwf (h.inv.nodup_stack hst)
  have hheld' : lk ∈ held (s.cur c) (f :: rest) := hkeeps.2.1.mem_iff.1 hheld
  -- the slots in front of the old position
  have hbefore : ∀ j, sweep (f :: rest) = some (some ch, j) → p.val < j → ¬ Dozing s p ch lk := by
    intro j hj hlt
    have hself := thread_self s c
    refine hswept (s.thread c) ch j lk (by rw [hst, hj]) ?_ hrank p hlt
    rw [hself, hst]
    exact hheld'
  intro hd
  cases seg_sweeps hseg hwf hshape hsw with
  | call => exact absurd hp (Nat.not_lt_zero _)
  | @self i hi =>
    rcases dozing_seg h hst hseg hd with hold | ⟨-, hf⟩
    · rcases Nat.lt_succ_iff_lt_or_eq.1 hp with hlt | heq
      · exact hbefore i.val rfl hlt hold
      · have hpi : p = i := Fin.ext heq
        subst hpi
        exact not_dozing_self h.inv hst hi hold
    · cases hf
  | visit k =>
    rcases dozing_seg h hst hseg hd with hold | ⟨-, hf⟩
    · exact hbefore k rfl hp hold
    · cases hf
  | visited i =>
    rcases Nat.lt_succ_iff_lt_or_eq.1 hp with hlt | heq
    · rcases dozing_seg h hst hseg hd with hold | ⟨-, hf⟩
      · exact hbefore i.val rfl hlt hold
      · cases hf
    · have hpi : p = i := Fin.ext heq
      subst hpi
      exact not_dozing_of_visit h hst hseg hd
  | resumed _ _ hnew =>
    rw [hnew] at hheld
    cases hheld

theorem swept_shift {old new : Stack} {me : Option Slot} {k : Nat} (h : Shift me old new)
    (hsh : Shape me old) (hsw : sweep new = some (some ch, k)) (hheld : lk ∈ held me new)
    (hrank : rank lk = 0) : sweep old = some (some ch, k) ∧ lk ∈ held me old := by
  cases h with
  | same => exact ⟨hsw, hheld⟩
  | acquire l r => exact ⟨hsw, hheld⟩
  | spin l r =>
    have hl : rank l ≠ 0 := by
      intro hl
      rw [(hsh.1.1 hl).sweep_eq] at hsw
      cases hsw
    have hne : lk ≠ l := by
      rintro rfl
      exact hl hrank
    exact ⟨hsw, (List.mem_erase_of_ne hne).2 hheld⟩
  | release l r => exact ⟨hsw, List.mem_cons_of_mem l hheld⟩
  | swtch q r =>
    rw [hsh.1.1] at hsw
    cases hsw
  | swtchBack r =>
    rw [hsh.1.1] at hsw
    cases hsw
  | interrupt timer st hnil => simp at hsw

theorem swept_move (h : Formed s) (hswept : Swept s) (hrun : (s.cpu c).panicked = none)
    (hm : Move s c t) : Swept t := by
  intro u ch k lk hsw hheld hrank p hp
  by_cases hu : u = s.thread c
  · subst hu
    rw [thread_self] at hheld
    rcases move_shifts h.inv hrun hm with ⟨f, rest, ws, fs, hst, hseg, rfl⟩ | hshift
    · have hself := (seg_acts h.inv.proc hst hseg).self
      rw [hself] at hsw hheld
      exact swept_seg h hswept hst hseg hsw hheld hrank hp
    · rcases swept_shift hshift.self (h.shape_thread c) hsw hheld hrank with ⟨hsw', hheld'⟩
      intro hd
      refine hswept _ ch k lk hsw' (by rwa [thread_self]) hrank p hp ?_
      exact dozing_shifts h hshift hd
  · have hstack : t.stack u = s.stack u ∨ t.stack u = newStack := by
      rcases move_shifts h.inv hrun hm with ⟨f, rest, ws, fs, hst, hseg, rfl⟩ | hshift
      · rcases (seg_acts h.inv.proc hst hseg).other u hu with heq | ⟨i, -, -, heq⟩
        · exact .inl heq
        · exact .inr heq
      · exact .inl (hshift.other u hu)
    rcases hstack with heq | heq
    · rw [heq] at hsw hheld
      exact not_dozing_other h hrun hm hu hheld hrank (hswept u ch k lk hsw hheld hrank p hp)
    · simp [heq] at hsw

/-! ## Where a sleeper stands -/

/-- A `SLEEPING` process is in the `sched` of a call of `sleep` on its channel. -/
def Asleep (s : State n) : Prop :=
  ∀ p : Slot, (s.proc p).state = .sleeping → ∃ ch lk, (s.proc p).chan = some ch ∧
    slumber (s.stack (.proc p)) = some lk ∧ Channel (some p) ch lk

theorem stack_other (h : Inv s) (hst : s.stack (s.thread c) = f :: rest) (hseg : Seg s c f ws fs)
    (hne : Thread.proc p ≠ s.thread c) (hp : (s.proc p).state ≠ .unused) :
    (after s c ws (fs ++ rest)).stack (.proc p) = s.stack (.proc p) := by
  have hctx : .context p ∉ ws := by
    intro hctx
    rcases seg_context hseg hctx with ⟨call, pid, rfl⟩
    exact hp (h.expects_stack hst (p, .unused) rfl)
  simp [hne, onContext_of_notMem hctx]

theorem asleep_seg (h : Formed s)
    (hasleep : Asleep s) (hst : s.stack (s.thread c) = f :: rest) (hseg : Seg s c f ws fs) :
    Asleep (after s c ws (fs ++ rest)) := by
  intro p hsleep
  have hacts := seg_acts h.inv.proc hst hseg
  have hshape := h.shape_thread c
  rw [hst] at hshape
  by_cases hcur : s.cur c = some p
  · have hthread := State.thread_of_cur_some hcur
    have hstp : s.stack (.proc p) = f :: rest := by rw [← hthread, hst]
    rw [← hthread, hacts.self]
    cases seg_lulls hseg hsleep with
    | @sleep ch lk hp hchan =>
      cases hseg with
      | sched hseg =>
        cases hseg with
        | sleepReleased hp' =>
          rw [hcur] at hshape
          exact ⟨ch, lk, hchan, rfl, hshape.1.2⟩
    | back hp hold =>
      have hleave := leaving_of_sleeping h.inv hcur hold
      simp [hstp] at hleave
    | kept hold hchan =>
      have hleave := leaving_of_sleeping h.inv hcur hold
      rcases hasleep p hold with ⟨ch, lk, hch, hslumber, hchannel⟩
      rw [hstp] at hleave hslumber
      refine ⟨ch, lk, by rw [hchan, hch], ?_, hchannel⟩
      cases hseg with
      | sched hseg =>
        cases hseg with
        | sched _ _ _ _ _ =>
          cases rest with
          | nil => simp at hslumber
          | cons g rest =>
            cases g with
            | sched pc => cases pc <;> simp_all
            | _ => simp at hslumber
        | _ => simp at hleave
      | _ => simp at hleave
  · cases seg_lulls hseg hsleep with
    | sleep hp _ => exact absurd (cur_of_sched h.inv hst hp) hcur
    | back hp _ => exact absurd (cur_of_sched h.inv hst hp) hcur
    | kept hold hchan =>
      have hne : Thread.proc p ≠ s.thread c := by
        intro heq
        have hself := thread_self s c
        rw [← heq] at hself
        exact hcur hself.symm
      rw [hchan, stack_other h.inv hst hseg hne (by simp [hold])]
      exact hasleep p hold

theorem asleep_shifts (h : Formed s) (hasleep : Asleep s) (hshift : Shifts s t c) : Asleep t := by
  intro p hsleep
  rw [hshift.still.proc] at hsleep ⊢
  rcases hasleep p hsleep with ⟨ch, lk, hch, hslumber, hchannel⟩
  refine ⟨ch, lk, hch, ?_, hchannel⟩
  by_cases hcur : s.cur c = some p
  · have hleave := leaving_of_sleeping h.inv hcur hsleep
    have hself := hshift.self
    have hwf := h.inv.lock.wf_thread c
    rw [State.thread_of_cur_some hcur] at hself hwf
    generalize s.stack (.proc p) = old at *
    generalize t.stack (.proc p) = new at *
    cases hself with
    | same => exact hslumber
    | release l r => exact hslumber
    | swtchBack r =>
      rcases hwf.1 with ⟨-, b, r', rfl⟩
      cases r' with
      | nil => simp at hslumber
      | cons g r' =>
        cases g with
        | sched pc => cases pc <;> simp_all
        | _ => simp at hslumber
    | interrupt timer st hheld =>
      rw [hcur] at hwf hheld
      have hmem := leaving_held hwf hleave
      rw [hheld] at hmem
      cases hmem
    | _ => simp at hleave
  · have hne : Thread.proc p ≠ s.thread c := by
      intro heq
      have hself := thread_self s c
      rw [← heq] at hself
      exact hcur hself.symm
    rw [hshift.other _ hne, hslumber]

theorem asleep_move (h : Formed s) (hasleep : Asleep s) (hrun : (s.cpu c).panicked = none)
    (hm : Move s c t) : Asleep t := by
  rcases move_shifts h.inv hrun hm with ⟨f, rest, ws, fs, hst, hseg, rfl⟩ | hshift
  · exact asleep_seg h hasleep hst hseg
  · exact asleep_shifts h hasleep hshift

/-- The invariants with what the calls of `sleep` and `wakeup` in progress have done. -/
structure Roused (s : State n) : Prop where
  formed : Formed s
  swept : Swept s
  asleep : Asleep s

theorem boot_roused (mode : Fin n → SchedMode) : Roused (boot mode) := by
  refine ⟨boot_formed mode, ?_, ?_⟩
  · intro u ch k lk hsw
    cases u with
    | hart d =>
      have hst : (boot mode).stack (.hart d) = (mode d).stack := rfl
      rw [hst] at hsw
      cases hmode : mode d <;> simp [hmode, SchedMode.stack] at hsw
    | proc p =>
      have hst : (boot mode).stack (.proc p) = if p = initSlot then newStack else [] := rfl
      rw [hst] at hsw
      split at hsw <;> simp at hsw
  · intro p hsleep
    have hproc : (boot mode).proc p = if p = initSlot then userinitProc else Proc.zero := by
      simp [boot, Function.update_apply]
    rw [hproc] at hsleep
    split at hsleep <;> cases hsleep

theorem roused_move (h : Roused s) (hrun : (s.cpu c).panicked = none) (hm : Move s c t) :
    Roused t :=
  ⟨formed_move h.formed hrun hm, swept_move h.formed h.swept hrun hm,
    asleep_move h.formed h.asleep hrun hm⟩

theorem reachable_roused {mode : Fin n → SchedMode} (h : Reachable mode s) : Roused s := by
  refine h.invariant (boot_roused mode) ?_
  intro s a t hs hstep
  rcases step_move hstep with ⟨hrun, hm⟩
  exact roused_move hs hrun hm

end Moves

/-! ## Who wakes a sleeper up -/

section Wakers

variable {s t : State n} {c : Fin n} {p : Slot}

theorem state_write_mem {ws : List Write} (q : Proc)
    (h : (ws.foldl (fun q w => w.onProc p q) q).state ≠ q.state) : ∃ v, .state p v ∈ ws := by
  induction ws generalizing q with
  | nil => exact absurd rfl h
  | cons w ws ih =>
    by_cases hw : (w.onProc p q).state = q.state
    · rw [List.foldl_cons, ← hw] at h
      rcases ih _ h with ⟨v, hv⟩
      exact ⟨v, List.mem_cons_of_mem w hv⟩
    · cases w with
      | state j v =>
        by_cases hj : p = j
        · subst hj
          exact ⟨v, List.mem_cons_self⟩
        · simp [hj] at hw
      | _ =>
        exfalso
        apply hw
        simp only [Write.onProc]
        try (split <;> rfl)

/-- The step visits the sleeper in a `wakeup` of its channel or in a `kill` with its `pid`. -/
def WokenBy (s : State n) (c : Fin n) (p : Slot) : Prop :=
  ∃ rest, s.stack (s.thread c) = .wake (.wakeupLocked (s.proc p).chan p) :: rest ∨
    s.stack (s.thread c) = .wake (.killLocked (s.proc p).pid p) :: rest

theorem seg_wokenBy {f : Frame} {rest : Stack} {ws : List Write} {fs : Stack} (h : Inv s)
    (hst : s.stack (s.thread c) = f :: rest) (hseg : Seg s c f ws fs)
    (hsleep : (s.proc p).state = .sleeping)
    (hawake : ((after s c ws (fs ++ rest)).proc p).state ≠ .sleeping) :
    ((after s c ws (fs ++ rest)).proc p).state = .runnable ∧ WokenBy s c p := by
  have hchange : ∃ v, .state p v ∈ ws := by
    refine state_write_mem (s.proc p) ?_
    rw [State.writes_proc] at hawake
    rw [hsleep]
    exact hawake
  rcases hchange with ⟨v, hv⟩
  -- a process that sleeps does not run code that assigns its own state
  have hself : (s.cur c).isSome → s.myproc c = some p → leaving (f :: rest) = false → False := by
    intro hsome hp hleave
    rcases Option.isSome_iff_exists.1 hsome with ⟨q, hq⟩
    have hmy := h.proc.myproc_of_cur hq
    rw [hp] at hmy
    cases hmy
    have hl := leaving_of_sleeping h hq hsleep
    rw [← State.thread_of_cur_some hq, hst, hleave] at hl
    cases hl
  have hexpect := h.expects_stack hst
  have hok := (h.wf_stack hst).1
  have hother : ∀ {i : Slot} {w : ProcState}, (s.proc i).state = w → w ≠ .sleeping → p ≠ i := by
    rintro i w hi hw rfl
    exact hw (hi.symm.trans hsleep)
  cases hseg with
  | ret => simp at hv
  | loteria hseg => cases hseg <;> simp_all
  | stride hseg => cases hseg <;> simp_all
  | sched hseg =>
    exfalso
    cases hseg with
    | @yield q hp =>
      have hpq : p = q ∧ v = .runnable := by simpa using hv
      exact hself hok.1 (by rw [hpq.1, hp]) rfl
    | @sleepReleased q ch lk hp =>
      have hpq : p = q ∧ v = .sleeping := by simpa using hv
      exact hself hok.1 (by rw [hpq.1, hp]) rfl
    | _ => simp at hv
  | wake hseg =>
    cases hseg with
    | @wakeup ch i hstate hchan =>
      have hpi : p = i ∧ v = .runnable := by simpa using hv
      rcases hpi with ⟨rfl, -⟩
      exact ⟨by simp, rest, .inl (by rw [hst, hchan])⟩
    | @killSleeper pid i hpid hstate =>
      have hpi : p = i ∧ v = .runnable := by simpa using hv
      rcases hpi with ⟨rfl, -⟩
      exact ⟨by simp, rest, .inr (by rw [hst, hpid])⟩
    | _ => simp at hv
  | fork hseg =>
    exfalso
    cases hseg with
    | @noMemory call i pid =>
      have hne := hother (hexpect (i, .unused) rfl) (by simp)
      simp [hne] at hv
    | @noCopy cls i pid =>
      have hne := hother (hexpect (i, .unused) rfl) (by simp)
      simp [hne] at hv
    | @noCopyPrio prio i pid =>
      have hne := hother (hexpect (i, .unused) rfl) (by simp)
      simp [hne] at hv
    | @allocated call i pid =>
      have hne := hother (hexpect (i, .unused) rfl) (by simp)
      cases call <;> simp [hne] at hv
    | @setRunnable i pid =>
      have hne := hother (h.proc.claim (s.thread c) i (by simp [hst])) (by simp)
      simp [hne] at hv
    | @copyFailed i =>
      have hnd := h.nodup_stack hst
      simp at hnd
    | _ => simp at hv
  | exit hseg =>
    exfalso
    cases hseg with
    | @locked q status hp =>
      have hpq : p = q ∧ v = .zombie := by simpa using hv
      exact hself hok.1 (by rw [hpq.1, hp]) rfl
    | _ => simp at hv
  | wait hseg =>
    exfalso
    cases hseg with
    | @reap q i addr hp hstate =>
      have hne := hother hstate (by simp)
      simp [hne] at hv
    | _ => simp at hv
  | trap hseg => cases hseg <;> simp at hv

theorem move_wokenBy (h : Inv s) (hm : Move s c t) (hsleep : (s.proc p).state = .sleeping)
    (hawake : (t.proc p).state ≠ .sleeping) : (t.proc p).state = .runnable ∧ WokenBy s c p := by
  rcases move_cases hm with ⟨f, rest, ws, fs, hst, hseg, rfl⟩ | hstill
  · exact seg_wokenBy h hst hseg hsleep hawake
  · rw [hstill.proc] at hawake
    exact absurd hsleep hawake

end Wakers

/-! ## The law -/

/-- The thread has not yet returned to the frames `rest`. -/
def Within (u : Thread n) (rest : Stack) : Machine.Guard (State n) (Fin n × Choice) :=
  fun s _ _ => ∃ f fs, s.stack u = f :: (fs ++ rest)

/-- The stacks of a call of `wakeup(ch)` made by the frames `rest`. -/
inductive InWakeup (ch : Option Chan) (rest : Stack) : Stack → Prop
  | next (k : Nat) : InWakeup ch rest (.wake (.wakeupNext ch k) :: rest)
  | acquire (i : Slot) : InWakeup ch rest (.acquire (.proc i) :: .wake (.wakeupLocked ch i) :: rest)
  | spin (i : Slot) : InWakeup ch rest (.spin (.proc i) :: .wake (.wakeupLocked ch i) :: rest)
  | locked (i : Slot) : InWakeup ch rest (.wake (.wakeupLocked ch i) :: rest)
  | release (i : Slot) (k : Nat) :
      InWakeup ch rest (.release (.proc i) :: .wake (.wakeupNext ch k) :: rest)

section Law

variable {s t : State n} {c : Fin n} {ch : Chan} {lk : Lock} {rest : Stack} {u : Thread n}

theorem InWakeup.held_of {st : Stack} {me : Option Slot} {ch : Option Chan}
    (h : InWakeup ch rest st) (hlk : lk ∈ held me rest) (hrank : rank lk = 0) :
    lk ∈ held me st := by
  have hne : ∀ i : Slot, lk ≠ .proc i := by
    rintro i rfl
    simp at hrank
  cases h <;> simp_all

/-- One step of the call: it goes on, or it returns and nobody is left dozing. -/
theorem inWakeup_move (h : Roused s) (hrun : (s.cpu c).panicked = none) (hm : Move s c t)
    (hin : InWakeup (some ch) rest (s.stack u)) (hlk : lk ∈ held u.self rest)
    (hrank : rank lk = 0) :
    InWakeup (some ch) rest (t.stack u) ∨ (t.stack u = rest ∧ ∀ p, ¬ Dozing t p ch lk) := by
  have hheld := hin.held_of hlk hrank
  by_cases hu : u = s.thread c
  · subst hu
    have hself := thread_self s c
    rcases move_shifts h.formed.inv hrun hm with ⟨f, r, ws, fs, hst, hseg, rfl⟩ | hshift
    · rw [(seg_acts h.formed.inv.proc hst hseg).self]
      rw [hst] at hin
      cases hin with
      | next k =>
        cases hseg with
        | wake hseg =>
          cases hseg with
          | wakeupSelf hp => exact .inl (.next _)
          | @wakeupVisit _ i hp => exact .inl (.acquire i)
          | wakeupEnd hk =>
            refine .inr ⟨rfl, fun p hd => ?_⟩
            rcases dozing_seg h.formed hst (.wake (.wakeupEnd hk)) hd with hold | ⟨-, hf⟩
            · refine h.swept (s.thread c) ch k lk (by simp [hst]) hheld hrank p ?_ hold
              omega
            · cases hf
      | locked i =>
        cases hseg with
        | wake hseg =>
          cases hseg with
          | wakeup _ _ => exact .inl (.release i _)
          | wakeupSkip _ => exact .inl (.release i _)
      | acquire i => cases hseg
      | spin i => cases hseg
      | release i k => cases hseg
    · refine .inl ?_
      have hsh := hshift.self
      generalize t.stack (s.thread c) = new at *
      generalize hold : s.stack (s.thread c) = old at *
      cases hsh with
      | same => exact hin
      | acquire l r =>
        cases hin with
        | acquire i => exact .spin i
      | spin l r =>
        cases hin with
        | spin i => exact .locked i
      | release l r =>
        cases hin with
        | release i k => exact .next k
      | swtch q r => cases hin
      | swtchBack r => cases hin
      | interrupt timer st hnil =>
        rw [hself, hnil] at hheld
        cases hheld
  · have hstack : t.stack u = s.stack u := by
      rcases move_shifts h.formed.inv hrun hm with ⟨f, r, ws, fs, hst, hseg, rfl⟩ | hshift
      · rcases (seg_acts h.formed.inv.proc hst hseg).other u hu with heq | ⟨i, rfl, hidle, -⟩
        · exact heq
        · -- the thread holds a lock, so a hart executes it
          rcases current_of_held h.formed.inv hheld hrank with ⟨d, hd, -⟩
          have hcur := thread_self s d
          rw [hd] at hcur
          exact absurd hcur.symm (hidle d)
      · exact hshift.other u hu
    rw [hstack]
    exact .inl hin

/-- No wake-up is lost: when a `wakeup(ch)` called under `lk` returns, no process sleeps, or is
about to, in a call of `sleep(ch, lk)`, whenever it made that call, and whoever is `SLEEPING` is so
in a call with another channel or lock; and a process leaves `SLEEPING` only for `RUNNABLE`, in a
`wakeup` of its channel or a `kill` with its `pid`. -/
theorem no_lost_wakeup (mode : Fin n → SchedMode) (p : Slot) :
    (∀ (s t : State n) (c : Fin n) (ch : Chan) (lk : Lock) (rest : Stack), Reachable mode s →
      s.stack (s.thread c) = .wake (.wakeupNext (some ch) 0) :: rest → s.locked lk = some c →
      (machine n).Path (Within (s.thread c) rest) s t → t.stack (s.thread c) = rest →
      ¬ Dozing t p ch lk ∧ ((t.proc p).state = .sleeping → ∃ ch' lk', (ch', lk') ≠ (ch, lk) ∧
        (t.proc p).chan = some ch' ∧ slumber (t.stack (.proc p)) = some lk')) ∧
    ∀ (s t : State n) (a : Fin n × Choice), Reachable mode s → (machine n).step s a = some t →
      (s.proc p).state = .sleeping → (t.proc p).state ≠ .sleeping →
      (t.proc p).state = .runnable ∧ WokenBy s a.1 p := by
  constructor
  · intro s t c ch lk rest h hcall hlock hpath hret
    have hinv := reachable_inv h
    have hlk : lk ∈ held (s.thread c).self rest := by
      have hmem := (hinv.holder_stack hcall lk).1 hlock
      rw [thread_self]
      exact hmem
    have hrank : rank lk = 0 := by
      have hok := (hinv.wf_stack hcall).1
      rw [thread_self] at hlk
      exact hok lk hlk
    have hend : Roused t ∧ (InWakeup (some ch) rest (t.stack (s.thread c)) ∨
        (t.stack (s.thread c) = rest ∧ ∀ p, ¬ Dozing t p ch lk)) := by
      refine hpath.invariant (I := fun t => Roused t ∧
        (InWakeup (some ch) rest (t.stack (s.thread c)) ∨
          (t.stack (s.thread c) = rest ∧ ∀ p, ¬ Dozing t p ch lk)))
        ⟨reachable_roused h, .inl (by rw [hcall]; exact .next 0)⟩ ?_
      rintro v a w ⟨hv, hwhere⟩ hstep ⟨f, fs, hwithin⟩
      rcases step_move hstep with ⟨hrun, hm⟩
      refine ⟨roused_move hv hrun hm, ?_⟩
      rcases hwhere with hin | ⟨hdone, -⟩
      · exact inWakeup_move hv hrun hm hin hlk hrank
      · have hlen := congrArg List.length (hdone.symm.trans hwithin)
        simp at hlen
        omega
    rcases hend.2 with hin | ⟨-, hnone⟩
    · rw [hret] at hin
      have hlen : ∀ st, InWakeup (some ch) rest st → rest.length < st.length := by
        intro st hst
        cases hst <;> simp only [List.length_cons] <;> omega
      exact absurd (hlen _ hin) (Nat.lt_irrefl _)
    · refine ⟨hnone p, fun hsleep => ?_⟩
      rcases hend.1.asleep p hsleep with ⟨ch', lk', hchan, hslumber, -⟩
      refine ⟨ch', lk', ?_, hchan, hslumber⟩
      intro heq
      cases heq
      exact hnone p (.inr ⟨hsleep, hchan, hslumber⟩)
  · intro s t a h hstep
    exact move_wokenBy (reachable_inv h) (step_move hstep).2

/-- The test of `Within` on a configuration whose hart executes process `q`. -/
def within (q : Slot) (rest : Stack) (v : Solo) : Bool :=
  decide (v.cur = some q ∧ rest.length < v.top.length ∧
    v.top = v.top.take (v.top.length - rest.length) ++ rest)

theorem within_path {v w : Solo} {q : Slot} {chs : List Choice}
    (h : v.run (within q rest) chs = some w) :
    (machine 1).Path (Within (.proc q) rest) v.state w.state := by
  refine Solo.run_passes h ?_
  intro v hv s ch t hs
  simp only [within, decide_eq_true_eq] at hv
  rcases hv with ⟨hcur, hlen, htop⟩
  have hthread : v.state.thread 0 = .proc q := State.thread_of_cur_some (s := v.state) hcur
  generalize hfs : v.top.take (v.top.length - rest.length) = fs at htop
  cases fs with
  | nil =>
    rw [htop] at hlen
    simp at hlen
  | cons f fs =>
    have hstack : v.state.stack (.proc q) = f :: (fs ++ rest) := by
      rw [← hthread, Solo.state_top, htop, List.cons_append]
    cases hs with
    | start => exact ⟨f, fs, hstack⟩
    | @spin l r htop' =>
      have hr : r = fs ++ rest := by
        rw [htop', List.cons_append] at htop
        exact (List.cons.inj htop).2
      exact ⟨.spin l, fs, by simp [hthread, hr]⟩

/-- `init` sleeps on an object, and its child is about to wake it up. -/
def aboutToWake : List Choice :=
  Solo.scanOne ++ Solo.startUser ++ Solo.forkTo (.forkprio 0) 1 ++ Solo.sleepOn (.obj 0) ++
    Solo.go 2 ++ Solo.scanOne ++ Solo.startUser ++ .trap (.syscall .other) :: Solo.go 5 ++
    [.enter 0, .go, .wakeup (.obj 0)]

/-- The frames below the call of `wakeup`. -/
def wakersFrames : Stack :=
  [.trap (.crit 0 true), .trap (.service true), .trap (.done false), .trap .user]

/-- The call finds `init` asleep and leaves it `RUNNABLE`. -/
theorem no_lost_wakeup_init :
    ∃ s t : State 1, Reachable (fun _ => .stride) s ∧ Dozing s initSlot (.obj 0) (.cond 0) ∧
      s.stack (s.thread 0) = .wake (.wakeupNext (some (.obj 0)) 0) :: wakersFrames ∧
      s.locked (.cond 0) = some 0 ∧
      (machine 1).Path (Within (s.thread 0) wakersFrames) s t ∧
      t.stack (s.thread 0) = wakersFrames ∧ (t.proc initSlot).state = .runnable ∧
      ¬ Dozing t initSlot (.obj 0) (.cond 0) := by
  have hrun : ((Solo.boot .stride).run (fun _ => true) aboutToWake).any (fun v =>
      v.cur = some (slotAt 1) ∧
      v.top = .wake (.wakeupNext (some (.obj 0)) 0) :: wakersFrames ∧ .cond 0 ∈ v.held ∧
      (v.proc initSlot).state = .sleeping ∧ (v.proc initSlot).chan = some (.obj 0) ∧
      slumber (v.kstack initSlot) = some (.cond 0) ∧
      (v.run (within (slotAt 1) wakersFrames) (Solo.go 254)).any (fun w =>
        w.cur = some (slotAt 1) ∧ w.top = wakersFrames ∧
        (w.proc initSlot).state = .runnable) = true) = true := by
    decide +kernel
  rcases (Option.any_eq_true _ _).1 hrun with ⟨v, hv, htest⟩
  simp only [decide_eq_true_eq] at htest
  rcases htest with ⟨hcur, htop, hheld, hstate, hchan, hslumber, hrest⟩
  rcases (Option.any_eq_true _ _).1 hrest with ⟨w, hw, htest⟩
  simp only [decide_eq_true_eq] at htest
  rcases htest with ⟨hcur', htop', hstate'⟩
  have hreach := Solo.run_reaches hv
  rw [Solo.boot_state] at hreach
  have hthread : v.state.thread 0 = .proc (slotAt 1) := State.thread_of_cur_some (s := v.state) hcur
  have hcall : v.state.stack (v.state.thread 0) =
      .wake (.wakeupNext (some (.obj 0)) 0) :: wakersFrames := by rw [Solo.state_top, htop]
  have hlock : v.state.locked (.cond 0) = some 0 := by simp [Solo.state, hheld]
  have hpath := within_path hw
  rw [← hthread] at hpath
  have hret : w.state.stack (v.state.thread 0) = wakersFrames := by
    have hthread' : w.state.thread 0 = .proc (slotAt 1) :=
      State.thread_of_cur_some (s := w.state) hcur'
    rw [hthread, ← hthread', Solo.state_top, htop']
  refine ⟨v.state, w.state, hreach, .inr ⟨hstate, hchan, hslumber⟩, hcall, hlock, hpath, hret,
    hstate', ?_⟩
  exact ((no_lost_wakeup (fun _ => .stride) initSlot).1 _ _ 0 _ _ _ hreach hcall hlock hpath hret).1

end Law

end Xv6Schedulers.Lifecycle
