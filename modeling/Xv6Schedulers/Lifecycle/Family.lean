import Xv6Schedulers.Lifecycle.Kin

/-!
# Family — parents and children

`Family` is the invariant of `fork`, `exit`, `wait` and `kill`: a parent is alive, and a parent that
sleeps in `wait` while one of its children is a zombie is about to be woken up.  Each field has its
own preservation lemma, by cases on `Kin`:

* `parents`: `exit` has given its children away before it makes the process a zombie (`adopted`);
* `noticed`: `wait` sleeps only after a scan without zombies (`checked`), and `exit` wakes the parent
  up before it makes the process a zombie (`aimed`, `notified`).
-/

namespace Xv6Schedulers.Lifecycle

open Kernel Locking Lib

variable {n : Nat}

/-! ## The invariant -/

/-- Parents and children in a reachable state. -/
structure Family (s : State n) : Prop where
  roused : Roused s
  /-- `init` does not get past the test in `exit` -/
  initExit : ∀ pc, .exit pc ∈ s.stack (.proc s.initproc) → ∃ status, pc = .start status
  initAlive : ¬ Dead (s.proc s.initproc).state
  unused : ∀ i, (s.proc i).state = .unused → (s.proc i).parent = none
  parents : ∀ i q, (s.proc i).parent = some q → ¬ Dead (s.proc q).state
  adopted : ∀ (p : Slot) (k : Nat) (i : Slot),
    topmost Frame.adopted (s.stack (.proc p)) = some k → i.val < k → (s.proc i).parent ≠ some p
  checked : ∀ (p : Slot) (k : Nat) (i : Slot),
    topmost Frame.checked (s.stack (.proc p)) = some k → i.val < k →
      (s.proc i).parent = some p → (s.proc i).state ≠ .zombie
  child : ∀ (p : Slot) (addr : UInt64) (i : Slot),
    .wait (.locked addr i) ∈ s.stack (.proc p) → (s.proc i).parent = some p
  aimed : ∀ (p : Slot) (ch : Option Chan),
    aim (s.stack (.proc p)) = some ch → ch = (s.proc p).parent.map .proc
  notified : ∀ p q : Slot, topmost Frame.notified (s.stack (.proc p)) = some true →
    (s.proc p).parent = some q → ¬ Dozing s q (.proc q) .wait
  /-- whoever sleeps in `wait` over a zombie is in front of a `wakeup` -/
  noticed : ∀ i q : Slot, (s.proc i).parent = some q → (s.proc i).state = .zombie →
    Dozing s q (.proc q) .wait → ∃ (u : Thread n) (k : Nat),
      sweep (s.stack u) = some (some (.proc q), k) ∧ k ≤ q.val ∧ .wait ∈ held u.self (s.stack u)

section Preservation

variable {s t : State n} {c : Fin n} {p : Slot} {f : Frame} {ws : List Write} {fs rest : Stack}

theorem cur_of_myproc (h : Inv s) (hsome : (s.cur c).isSome) (hp : s.myproc c = some p) :
    s.cur c = some p := by
  rcases Option.isSome_iff_exists.1 hsome with ⟨q, hq⟩
  have hmy := h.proc.myproc_of_cur hq
  rw [hp] at hmy
  rw [hq, hmy]

theorem proc_ne_thread (hcur : s.cur c ≠ some p) : Thread.proc p ≠ s.thread c := by
  intro heq
  have hself := thread_self s c
  rw [← heq] at hself
  exact hcur hself.symm

theorem stack_cases (h : Inv s) (hst : s.stack (s.thread c) = f :: rest) (hseg : Seg s c f ws fs)
    (p : Slot) :
    (s.cur c = some p ∧ s.stack (.proc p) = f :: rest ∧
      (after s c ws (fs ++ rest)).stack (.proc p) = fs ++ rest) ∨
    (s.cur c ≠ some p ∧ ((after s c ws (fs ++ rest)).stack (.proc p) = s.stack (.proc p) ∨
      (after s c ws (fs ++ rest)).stack (.proc p) = newStack)) := by
  have hacts := seg_acts h.proc hst hseg
  by_cases hcur : s.cur c = some p
  · have hthread := State.thread_of_cur_some hcur
    exact .inl ⟨hcur, by rw [← hthread, hst], by rw [← hthread, hacts.self]⟩
  · refine .inr ⟨hcur, ?_⟩
    rcases hacts.other _ (proc_ne_thread hcur) with heq | ⟨i, -, -, heq⟩
    · exact .inl heq
    · exact .inr heq

theorem Kin.calm_of_held (h : Inv s) (hst : s.stack (s.thread c) = f :: rest)
    (hkin : Kin s t c f fs) (hcur : s.cur c ≠ some p)
    (hheld : .wait ∈ held (some p) (s.stack (.proc p))) :
    (∀ i, (t.proc i).parent = (s.proc i).parent) ∧
      ∀ i, Dead (t.proc i).state → (t.proc i).state = (s.proc i).state := by
  rcases hkin.cases_held hst with hcalm | hwait
  · exact hcalm
  · exact absurd (held_unique (u := .proc p) h hheld hwait rfl) (proc_ne_thread hcur)

attribute [local simp] newStack

theorem initExit_seg (h : Family s) (hst : s.stack (s.thread c) = f :: rest)
    (hseg : Seg s c f ws fs) {pc : ExitPc}
    (hmem : .exit pc ∈ (after s c ws (fs ++ rest)).stack (.proc s.initproc)) :
    ∃ status, pc = .start status := by
  have hinv := h.roused.formed.inv
  rcases stack_cases hinv hst hseg s.initproc with ⟨hcur, hold, hnew⟩ | ⟨-, hnew | hnew⟩
  · rw [hnew] at hmem
    rcases List.mem_append.1 hmem with hmem | hmem
    · have hmy := hinv.proc.myproc_of_cur hcur
      -- the frame of `exit` that the segment leaves
      have hf : ∀ pc', f = .exit pc' → ∃ status, pc' = .start status := by
        rintro pc' rfl
        exact h.initExit pc' (by simp [hold])
      cases hseg with
      | exit hseg =>
        rcases hf _ rfl with ⟨status, rfl⟩
        cases hseg with
        | start hp hinit =>
          rw [hmy] at hp
          cases hp
          exact absurd rfl hinit
      | loteria hseg => cases hseg <;> simp at hmem
      | stride hseg => cases hseg <;> simp at hmem
      | sched hseg => cases hseg <;> simp at hmem
      | wake hseg => cases hseg <;> simp at hmem
      | fork hseg => cases hseg <;> simp at hmem
      | wait hseg => cases hseg <;> simp at hmem
      | ret => simp at hmem
      | trap hseg =>
        cases hseg with
        | @call q call hq hk => cases call <;> simp at hmem; exact ⟨_, hmem⟩
        | syscallKilled _ _ => exact ⟨-1, by simpa using hmem⟩
        | killed _ _ => exact ⟨-1, by simpa using hmem⟩
        | _ => simp at hmem
    · exact h.initExit pc (by simp [hold, hmem])
  · rw [hnew] at hmem
    exact h.initExit pc hmem
  · simp [hnew] at hmem

theorem Family.exit_ne_init (h : Family s) (pc : ExitPc) (hmem : .exit pc ∈ s.stack (.proc p))
    (hpc : ∀ status, pc ≠ .start status) : p ≠ s.initproc := by
  rintro rfl
  rcases h.initExit pc hmem with ⟨status, rfl⟩
  exact hpc status rfl

theorem Family.kin (h : Family s) (hst : s.stack (s.thread c) = f :: rest)
    (hseg : Seg s c f ws fs) : Kin s (after s c ws (fs ++ rest)) c f fs :=
  seg_kin h.roused.formed.inv h.unused hst hseg

theorem initAlive_kin (h : Family s) (hst : s.stack (s.thread c) = f :: rest)
    (hkin : Kin s t c f fs) : ¬ Dead (t.proc s.initproc).state := by
  have hinv := h.roused.formed.inv
  intro hdead
  cases hkin with
  | calm hparent hstate =>
    have hsame := hstate _ hdead
    rw [hsame] at hdead
    exact h.initAlive hdead
  | fork hp hparent hstate =>
    rw [hstate] at hdead
    exact h.initAlive hdead
  | adopt hp hold hparent hstate =>
    rw [hstate] at hdead
    exact h.initAlive hdead
  | @exit p status hp hparent hstate =>
    have hcur := cur_of_myproc hinv (hinv.wf_stack hst).1.1 hp
    have hne : p ≠ s.initproc := by
      refine h.exit_ne_init (.locked status) ?_ (by simp)
      rw [← State.thread_of_cur_some hcur, hst]
      exact List.mem_cons_self
    rw [hstate.elsewhere _ hne.symm] at hdead
    exact h.initAlive hdead
  | @reap p i addr hp hold hparent hstate =>
    have hne : s.initproc ≠ i := by
      intro heq
      exact h.initAlive (.inl (by rw [heq, hold]))
    rw [hstate.elsewhere _ hne] at hdead
    exact h.initAlive hdead

theorem unused_kin (h : Family s) (hst : s.stack (s.thread c) = f :: rest) (hkin : Kin s t c f fs)
    {i : Slot} (hi : (t.proc i).state = .unused) : (t.proc i).parent = none := by
  have hinv := h.roused.formed.inv
  cases hkin with
  | calm hparent hstate =>
    rw [hstate i (.inr hi)] at hi
    rw [hparent, h.unused i hi]
  | @fork p j pid hp hparent hstate =>
    have hused := hinv.proc.claim (s.thread c) j (by simp [hst])
    have hne : i ≠ j := by
      rintro rfl
      rw [hstate, hused] at hi
      cases hi
    rw [hstate] at hi
    rw [hparent.elsewhere i hne, h.unused i hi]
  | @adopt p j status hp hold hparent hstate =>
    rw [hstate] at hi
    have hne : i ≠ j := by
      rintro rfl
      rw [h.unused i hi] at hold
      cases hold
    rw [hparent.elsewhere i hne, h.unused i hi]
  | @exit p status hp hparent hstate =>
    have hne : i ≠ p := by
      rintro rfl
      rw [hstate.at_slot] at hi
      cases hi
    rw [hstate.elsewhere i hne] at hi
    rw [hparent, h.unused i hi]
  | @reap p j addr hp hold hparent hstate =>
    by_cases hij : i = j
    · rw [hij, hparent.at_slot]
    · rw [hstate.elsewhere i hij] at hi
      rw [hparent.elsewhere i hij, h.unused i hi]

theorem parents_kin (h : Family s) (hst : s.stack (s.thread c) = f :: rest) (hkin : Kin s t c f fs)
    {i q : Slot} (hi : (t.proc i).parent = some q) : ¬ Dead (t.proc q).state := by
  have hinv := h.roused.formed.inv
  intro hdead
  cases hkin with
  | calm hparent hstate =>
    rw [hparent] at hi
    rw [hstate q hdead] at hdead
    exact h.parents i q hi hdead
  | @fork p j pid hp hparent hstate =>
    rw [hstate] at hdead
    by_cases hij : i = j
    · -- the parent is the process that calls `fork`
      rw [hij, hparent.at_slot] at hi
      cases hi
      have hcur := cur_of_myproc hinv (hinv.wf_stack hst).1.1 hp
      have hrun := hinv.proc.running_cur hcur (by rw [← State.thread_of_cur_some hcur, hst]; rfl)
      simp [Dead, hrun] at hdead
    · rw [hparent.elsewhere i hij] at hi
      exact h.parents i q hi hdead
  | @adopt p j status hp hold hparent hstate =>
    rw [hstate] at hdead
    by_cases hij : i = j
    · rw [hij, hparent.at_slot] at hi
      cases hi
      exact h.initAlive hdead
    · rw [hparent.elsewhere i hij] at hi
      exact h.parents i q hi hdead
  | @exit p status hp hparent hstate =>
    rw [hparent] at hi
    have hcur := cur_of_myproc hinv (hinv.wf_stack hst).1.1 hp
    have hne : q ≠ p := by
      rintro rfl
      -- `reparent` has left the process without children
      refine h.adopted q NPROC i ?_ i.isLt hi
      rw [← State.thread_of_cur_some hcur, hst]
      rfl
    rw [hstate.elsewhere q hne] at hdead
    exact h.parents i q hi hdead
  | @reap p j addr hp hold hparent hstate =>
    have hij : i ≠ j := by
      rintro rfl
      rw [hparent.at_slot] at hi
      cases hi
    rw [hparent.elsewhere i hij] at hi
    have hne : q ≠ j := by
      rintro rfl
      exact h.parents i q hi (.inl hold)
    rw [hstate.elsewhere q hne] at hdead
    exact h.parents i q hi hdead

theorem adopted_exit (h : Family s) {pc : ExitPc} (hst : s.stack (s.thread c) = .exit pc :: rest)
    (hseg : ExitSeg s c pc ws fs) (hcur : s.cur c = some p) {k : Nat} {i : Slot}
    (hv : topmost Frame.adopted (fs ++ rest) = some k) (hi : i.val < k) :
    ((after s c ws (fs ++ rest)).proc i).parent ≠ some p := by
  have hmy := h.roused.formed.inv.proc.myproc_of_cur hcur
  have hstp : s.stack (.proc p) = .exit pc :: rest := by
    rw [← State.thread_of_cur_some hcur, hst]
  have hshape := h.roused.formed.shape_thread c
  rw [hst] at hshape
  have hbase := Base.topmost_eq (g := Frame.adopted) hshape.1 (fun _ => rfl)
  have hold := h.adopted p
  rw [hstp] at hold
  -- the slot of this round, and the slots before it
  have hround : ∀ j : Slot, j.val + 1 = k → i = j ∨ i.val < j.val := by
    intro j hj
    by_cases hij : i = j
    · exact .inl hij
    · have hval : i.val ≠ j.val := fun heq => hij (Fin.ext heq)
      exact .inr (by omega)
  cases hseg with
  | start hp hinit => simp [hbase] at hv
  | closed =>
    have hk : 0 = k := by simpa using hv
    omega
  | @adopt q j status hp hparent =>
    have hne : p ≠ s.initproc := by
      refine h.exit_ne_init (.reparent status j.val) ?_ (by simp)
      rw [hstp]
      exact List.mem_cons_self
    rcases hround j (by simpa using hv) with rfl | hlt
    · simpa using hne.symm
    · have hij : i ≠ j := fun heq => by simp [heq] at hlt
      simpa [hij] using hold j.val i rfl hlt
  | @reparentSkip q j status hp hparent =>
    rw [hmy] at hp
    cases hp
    rcases hround j (by simpa using hv) with rfl | hlt
    · simpa using hparent
    · simpa using hold j.val i rfl hlt
  | @reparentEnd q status j hp hj =>
    have hlt : i.val < j := by have := i.isLt; omega
    simpa using hold j i rfl hlt
  | woken hp => simpa using hold NPROC i rfl i.isLt
  | locked hp => simp [hbase] at hv

theorem checked_wait (h : Family s) {pc : WaitPc} (hst : s.stack (s.thread c) = .wait pc :: rest)
    (hseg : WaitSeg s c pc ws fs) (hcur : s.cur c = some p) {k : Nat} {i : Slot}
    (hv : topmost Frame.checked (fs ++ rest) = some k) (hi : i.val < k)
    (hparent : (s.proc i).parent = some p) : (s.proc i).state ≠ .zombie := by
  have hmy := h.roused.formed.inv.proc.myproc_of_cur hcur
  have hstp : s.stack (.proc p) = .wait pc :: rest := by
    rw [← State.thread_of_cur_some hcur, hst]
  have hshape := h.roused.formed.shape_thread c
  rw [hst] at hshape
  have hbase := Base.topmost_eq (g := Frame.checked) hshape.1 (fun _ => rfl)
  have hold := h.checked p
  rw [hstp] at hold
  have hround : ∀ j : Slot, j.val + 1 = k → i = j ∨ i.val < j.val := by
    intro j hj
    by_cases hij : i = j
    · exact .inl hij
    · have hval : i.val ≠ j.val := fun heq => hij (Fin.ext heq)
      exact .inr (by omega)
  cases hseg with
  | @child q j addr kids hp hchild =>
    have hk : j.val = k := by simpa using hv
    exact hold j.val i rfl (by omega) hparent
  | @scanSkip q j addr kids hp hchild =>
    rw [hmy] at hp
    cases hp
    rcases hround j (by simpa using hv) with rfl | hlt
    · exact absurd hparent hchild
    · exact hold j.val i rfl hlt hparent
  | @haveKids q addr j hp hj =>
    exact hold j i rfl (by have := i.isLt; omega) hparent
  | noKids hp hj => simp [hbase] at hv
  | copyoutFailed hp hstate => simp [hbase] at hv
  | reap hp hstate => simp [hbase] at hv
  | @alive q j addr hp hstate =>
    rcases hround j (by simpa using hv) with rfl | hlt
    · exact hstate
    · exact hold j.val i rfl hlt hparent
  | giveUp hp hkilled => simp [hbase] at hv
  | sleep hp hkilled => exact hold NPROC i rfl i.isLt hparent

/-- One round of a `wakeup`, or its end. -/
theorem seg_sweep {ch : Option Chan} {k : Nat} (h : Seg s c f ws fs)
    (hsw : sweep (f :: rest) = some (ch, k)) :
    NPROC ≤ k ∨ ∃ k', k' ≤ k + 1 ∧ sweep (fs ++ rest) = some (ch, k') := by
  cases h with
  | wake h =>
    cases h with
    | @wakeupSelf ch' i hp =>
      have heq : ch' = ch ∧ i.val = k := by simpa using hsw
      rcases heq with ⟨rfl, rfl⟩
      exact .inr ⟨i.val + 1, Nat.le_refl _, rfl⟩
    | @wakeupVisit ch' i hp =>
      have heq : ch' = ch ∧ i.val = k := by simpa using hsw
      rcases heq with ⟨rfl, rfl⟩
      exact .inr ⟨i.val, Nat.le_succ _, rfl⟩
    | @wakeup ch' i _ _ =>
      have heq : ch' = ch ∧ i.val = k := by simpa using hsw
      rcases heq with ⟨rfl, rfl⟩
      exact .inr ⟨i.val + 1, Nat.le_refl _, rfl⟩
    | @wakeupSkip ch' i _ =>
      have heq : ch' = ch ∧ i.val = k := by simpa using hsw
      rcases heq with ⟨rfl, rfl⟩
      exact .inr ⟨i.val + 1, Nat.le_refl _, rfl⟩
    | @wakeupEnd ch' i hi =>
      have heq : ch' = ch ∧ i = k := by simpa using hsw
      exact .inl (by omega)
    | _ => simp at hsw
  | _ => simp at hsw

section Segment

variable (h : Family s) (hst : s.stack (s.thread c) = f :: rest) (hseg : Seg s c f ws fs)
include h hst hseg

theorem adopted_self (hcur : s.cur c = some p) {k : Nat} {i : Slot}
    (hv : topmost Frame.adopted (fs ++ rest) = some k) (hi : i.val < k) :
    ((after s c ws (fs ++ rest)).proc i).parent ≠ some p := by
  by_cases hexit : ∃ pc, f = .exit pc
  · rcases hexit with ⟨pc, rfl⟩
    cases hseg with
    | exit hseg => exact adopted_exit h hst hseg hcur hv hi
  · have hsame := seg_adopted hseg (fun pc hf => hexit ⟨pc, hf⟩) hv
    have hstp : s.stack (.proc p) = f :: rest := by rw [← State.thread_of_cur_some hcur, hst]
    have hold := h.adopted p k i (by rw [hstp, hsame]) hi
    have hshape := h.roused.formed.shape_thread c
    rw [hst] at hshape
    have hkin := h.kin hst hseg
    generalize after s c ws (fs ++ rest) = t at *
    cases hkin with
    | calm hparent _ =>
      rw [hparent]
      exact hold
    | fork _ _ _ =>
      have hbase := Base.topmost_eq (g := Frame.adopted) hshape.1 (fun _ => rfl)
      simp [hbase] at hsame
    | adopt _ _ _ _ => exact absurd ⟨_, rfl⟩ hexit
    | exit _ _ _ => exact absurd ⟨_, rfl⟩ hexit
    | reap _ _ _ _ =>
      have hbase := Base.topmost_eq (g := Frame.adopted) hshape.1 (fun _ => rfl)
      simp [hbase] at hsame

theorem adopted_seg {k : Nat} {i : Slot}
    (hv : topmost Frame.adopted ((after s c ws (fs ++ rest)).stack (.proc p)) = some k)
    (hi : i.val < k) : ((after s c ws (fs ++ rest)).proc i).parent ≠ some p := by
  have hinv := h.roused.formed.inv
  rcases stack_cases hinv hst hseg p with ⟨hcur, -, hnew⟩ | ⟨hcur, hnew | hnew⟩
  · rw [hnew] at hv
    exact adopted_self h hst hseg hcur hv hi
  · rw [hnew] at hv
    have hold := h.adopted p k i hv hi
    intro hparent
    have hkin := h.kin hst hseg
    generalize after s c ws (fs ++ rest) = t at *
    cases hkin with
    | calm hsame _ =>
      rw [hsame] at hparent
      exact hold hparent
    | @fork q j pid hp hsets _ =>
      by_cases hij : i = j
      · rw [hij, hsets.at_slot] at hparent
        cases hparent
        exact hcur (cur_of_myproc hinv (hinv.wf_stack hst).1.1 hp)
      · rw [hsets.elsewhere i hij] at hparent
        exact hold hparent
    | @adopt q j status hp _ hsets _ =>
      by_cases hij : i = j
      · -- `init` is not in `exit`
        rw [hij, hsets.at_slot] at hparent
        cases hparent
        rcases List.exists_of_findSome?_eq_some hv with ⟨g, hg, hval⟩
        cases g with
        | exit pc =>
          rcases h.initExit pc hg with ⟨status', rfl⟩
          simp at hval
        | _ => simp at hval
      · rw [hsets.elsewhere i hij] at hparent
        exact hold hparent
    | exit _ hsame _ =>
      rw [hsame] at hparent
      exact hold hparent
    | @reap q j addr _ _ hsets _ =>
      by_cases hij : i = j
      · rw [hij, hsets.at_slot] at hparent
        cases hparent
      · rw [hsets.elsewhere i hij] at hparent
        exact hold hparent
  · simp [hnew] at hv

theorem checked_seg {k : Nat} {i : Slot}
    (hv : topmost Frame.checked ((after s c ws (fs ++ rest)).stack (.proc p)) = some k)
    (hi : i.val < k) (hparent : ((after s c ws (fs ++ rest)).proc i).parent = some p) :
    ((after s c ws (fs ++ rest)).proc i).state ≠ .zombie := by
  have hinv := h.roused.formed.inv
  have hkin := h.kin hst hseg
  rcases stack_cases hinv hst hseg p with ⟨hcur, hstp, hnew⟩ | ⟨hcur, hnew | hnew⟩
  · rw [hnew] at hv
    have hshape := h.roused.formed.shape_thread c
    rw [hst] at hshape
    have hbase : Base rest → topmost Frame.checked rest = none :=
      fun hb => hb.topmost_eq (fun _ => rfl)
    -- the code that is not calm leaves no frame of `wait`
    have hcalm : (∀ i, ((after s c ws (fs ++ rest)).proc i).parent = (s.proc i).parent) ∧
        ∀ i, Dead ((after s c ws (fs ++ rest)).proc i).state →
          ((after s c ws (fs ++ rest)).proc i).state = (s.proc i).state := by
      cases hkin with
      | calm hsame hdead => exact ⟨hsame, hdead⟩
      | _ => simp [hbase hshape.1] at hv
    intro hzombie
    rw [hcalm.1] at hparent
    rw [hcalm.2 i (.inl hzombie)] at hzombie
    revert hzombie
    by_cases hwait : ∃ pc, f = .wait pc
    · rcases hwait with ⟨pc, rfl⟩
      cases hseg with
      | wait hseg => exact checked_wait h hst hseg hcur hv hi hparent
    · have hsame := seg_checked hseg (fun pc hf => hwait ⟨pc, hf⟩) hshape hv (by omega)
      exact h.checked p k i (by rw [hstp, hsame]) hi hparent
  · rw [hnew] at hv
    have hheld := checked_held (h.roused.formed.shape (.proc p)) hv (by omega)
    rcases hkin.calm_of_held hinv hst hcur hheld with ⟨hsame, hdead⟩
    intro hzombie
    rw [hsame] at hparent
    rw [hdead i (.inl hzombie)] at hzombie
    exact h.checked p k i hv hi hparent hzombie
  · simp [hnew] at hv

theorem child_seg {addr : UInt64} {i : Slot}
    (hmem : .wait (.locked addr i) ∈ (after s c ws (fs ++ rest)).stack (.proc p)) :
    ((after s c ws (fs ++ rest)).proc i).parent = some p := by
  have hinv := h.roused.formed.inv
  have hkin := h.kin hst hseg
  rcases stack_cases hinv hst hseg p with ⟨hcur, hstp, hnew⟩ | ⟨hcur, hnew | hnew⟩
  · rw [hnew] at hmem
    have hshape := h.roused.formed.shape_thread c
    rw [hst] at hshape
    have hmy := hinv.proc.myproc_of_cur hcur
    have hwait : Base rest → .wait (.locked addr i) ∉ rest := fun hb => hb.wait_notMem _
    cases hkin with
    | calm hsame _ =>
      rw [hsame]
      rcases List.mem_append.1 hmem with hfs | hrest
      · -- the lock of a child is taken by the scan
        cases hseg with
        | wait hseg =>
          cases hseg with
          | @child q j addr' kids hp hchild =>
            have heq : addr = addr' ∧ i = j := by simpa using hfs
            rw [hmy] at hp
            cases hp
            rw [heq.2, hchild]
          | _ => simp at hfs
        | loteria hseg => cases hseg <;> simp at hfs
        | stride hseg => cases hseg <;> simp at hfs
        | sched hseg => cases hseg <;> simp at hfs
        | wake hseg => cases hseg <;> simp at hfs
        | fork hseg => cases hseg <;> simp at hfs
        | exit hseg => cases hseg <;> simp at hfs
        | ret => simp at hfs
        | trap hseg =>
          cases hseg with
          | @call q call hq hk => cases call <;> simp at hfs
          | _ => simp at hfs
      · exact h.child p addr i (by simp [hstp, hrest])
    | _ =>
      -- the other classes are code of `fork`, `exit` and `wait`, which is called from a trap
      have hnone := hwait hshape.1
      simp [hnone] at hmem
  · rw [hnew] at hmem
    have hheld := guarded_held (h.roused.formed.shape (.proc p)) hmem rfl
    rw [(hkin.calm_of_held hinv hst hcur hheld).1]
    exact h.child p addr i hmem
  · simp [hnew] at hmem

theorem aimed_seg {ch : Option Chan}
    (ha : aim ((after s c ws (fs ++ rest)).stack (.proc p)) = some ch) :
    ch = ((after s c ws (fs ++ rest)).proc p).parent.map .proc := by
  have hinv := h.roused.formed.inv
  have hkin := h.kin hst hseg
  rcases stack_cases hinv hst hseg p with ⟨hcur, hstp, hnew⟩ | ⟨hcur, hnew | hnew⟩
  · rw [hnew] at ha
    have hshape := h.roused.formed.shape_thread c
    rw [hst] at hshape
    have hmy := hinv.proc.myproc_of_cur hcur
    cases hkin with
    | calm hsame _ =>
      rw [hsame]
      rcases seg_aim hseg (hinv.wf_stack hst) hshape ha with hold | ⟨q, status, i, -, hq, heq⟩
      · exact h.aimed p ch (by rw [hstp, hold])
      · rw [hmy] at hq
        cases hq
        exact heq
    | _ => simp at ha
  · rw [hnew] at ha
    have hheld := aim_held (h.roused.formed.shape (.proc p)) ha
    rw [(hkin.calm_of_held hinv hst hcur hheld).1]
    exact h.aimed p ch ha
  · simp [hnew] at ha

theorem not_dozing_seg {q : Slot} (hcur : s.cur c ≠ some p)
    (hheld : .wait ∈ held (some p) (s.stack (.proc p))) (hnot : ¬ Dozing s q (.proc q) .wait) :
    ¬ Dozing (after s c ws (fs ++ rest)) q (.proc q) .wait := by
  intro hd
  rcases dozing_seg h.roused.formed hst hseg hd with hold | ⟨hq, rfl⟩
  · exact hnot hold
  · have hwait : .wait ∈ held (s.thread c).self (s.stack (s.thread c)) := by
      refine guarded_held (h.roused.formed.shape _) (f := .sched (.sleepLocked (.proc q) .wait)) ?_ rfl
      rw [hst]
      exact List.mem_cons_self
    exact proc_ne_thread hcur (held_unique (u := .proc p) h.roused.formed.inv hheld hwait rfl)

theorem notified_seg {q : Slot}
    (hv : topmost Frame.notified ((after s c ws (fs ++ rest)).stack (.proc p)) = some true)
    (hparent : ((after s c ws (fs ++ rest)).proc p).parent = some q) :
    ¬ Dozing (after s c ws (fs ++ rest)) q (.proc q) .wait := by
  have hinv := h.roused.formed.inv
  have hkin := h.kin hst hseg
  rcases stack_cases hinv hst hseg p with ⟨hcur, hstp, hnew⟩ | ⟨hcur, hnew | hnew⟩
  · rw [hnew] at hv
    have hshape := h.roused.formed.shape_thread c
    rw [hst] at hshape
    have hbase : Base rest → topmost Frame.notified rest = none :=
      fun hb => hb.topmost_eq (fun _ => rfl)
    cases hkin with
    | calm hsame _ =>
      rw [hsame] at hparent
      intro hd
      rcases seg_notified hseg (hinv.wf_stack hst) hshape hv with
        hold | ⟨ch, i, status, r, rfl, hi, rfl⟩
      · rcases dozing_seg h.roused.formed hst hseg hd with hdold | ⟨-, rfl⟩
        · exact h.notified p q (by rw [hstp, hold]) hparent hdold
        · -- a `sleep` in `wait` is not called from `exit`
          rcases hshape.1.1 with ⟨addr, r', rfl⟩
          have hnone := Base.topmost_eq (g := Frame.notified) hshape.2.1 (fun _ => rfl)
          simp [hnone] at hold
      · -- the loop has come to the end: it has passed the parent
        have haim := h.aimed p ch (by simp [hstp])
        rw [hparent] at haim
        have hwait : .wait ∈ held (s.thread c).self (s.stack (s.thread c)) := by
          refine guarded_held (h.roused.formed.shape _) (f := .exit (.woken status)) ?_ rfl
          simp [hst]
        refine h.roused.swept (s.thread c) (.proc q) i .wait (by simp [hst, haim]) hwait rfl q
          (by have := q.isLt; omega) ?_
        rcases dozing_seg h.roused.formed hst hseg hd with hdold | ⟨-, hf⟩
        · exact hdold
        · cases hf
    | _ => simp [hbase hshape.1] at hv
  · rw [hnew] at hv
    have hheld := notified_held (h.roused.formed.shape (.proc p)) hv
    rw [(hkin.calm_of_held hinv hst hcur hheld).1] at hparent
    exact not_dozing_seg h hst hseg hcur hheld (h.notified p q hv hparent)
  · simp [hnew] at hv

theorem noticed_persist (hroused : Roused (after s c ws (fs ++ rest))) {q : Slot}
    (hd : Dozing (after s c ws (fs ++ rest)) q (.proc q) .wait) {u : Thread n} {k : Nat}
    (hsw : sweep (s.stack u) = some (some (.proc q), k)) (hk : k ≤ q.val)
    (hheld : .wait ∈ held u.self (s.stack u)) :
    ∃ (u : Thread n) (k : Nat),
      sweep ((after s c ws (fs ++ rest)).stack u) = some (some (.proc q), k) ∧ k ≤ q.val ∧
        .wait ∈ held u.self ((after s c ws (fs ++ rest)).stack u) := by
  have hinv := h.roused.formed.inv
  have hacts := seg_acts hinv.proc hst hseg
  by_cases hu : u = s.thread c
  · subst hu
    rw [hst] at hsw hheld
    have hmy : s.myproc c = procOf (s.cur c) (f :: rest) := by
      rw [← hst]
      exact hinv.proc.myproc_procOf c
    have hkeeps := seg_keeps hmy hseg (hinv.wf_stack hst) (hinv.nodup_stack hst)
    have hnew : .wait ∈ held (s.thread c).self (fs ++ rest) := by
      rw [thread_self] at hheld ⊢
      exact hkeeps.2.1.mem_iff.2 hheld
    rcases seg_sweep hseg hsw with hend | ⟨k', hk', hsw'⟩
    · have := q.isLt
      omega
    · rw [← hacts.self] at hsw' hnew
      refine ⟨s.thread c, k', hsw', ?_, hnew⟩
      by_contra hlt
      exact hroused.swept _ _ _ _ hsw' hnew rfl q (by omega) hd
  · refine ⟨u, k, ?_⟩
    rcases hacts.other u hu with heq | ⟨i, rfl, hidle, -⟩
    · rw [heq]
      exact ⟨hsw, hk, hheld⟩
    · rcases current_of_held hinv hheld rfl with ⟨d, hthread, -⟩
      have hself := thread_self s d
      rw [hthread] at hself
      exact absurd hself.symm (hidle d)

theorem noticed_seg (hroused : Roused (after s c ws (fs ++ rest))) {i q : Slot}
    (hparent : ((after s c ws (fs ++ rest)).proc i).parent = some q)
    (hzombie : ((after s c ws (fs ++ rest)).proc i).state = .zombie)
    (hd : Dozing (after s c ws (fs ++ rest)) q (.proc q) .wait) :
    ∃ (u : Thread n) (k : Nat),
      sweep ((after s c ws (fs ++ rest)).stack u) = some (some (.proc q), k) ∧ k ≤ q.val ∧
        .wait ∈ held u.self ((after s c ws (fs ++ rest)).stack u) := by
  have hinv := h.roused.formed.inv
  have hself := (seg_acts hinv.proc hst hseg).self
  have hdoze := dozing_seg h.roused.formed hst hseg hd
  -- a zombie child that was there before, over a parent that slept before
  have hold : (s.proc i).parent = some q → (s.proc i).state = .zombie →
      Dozing s q (.proc q) .wait → ∃ (u : Thread n) (k : Nat),
      sweep ((after s c ws (fs ++ rest)).stack u) = some (some (.proc q), k) ∧ k ≤ q.val ∧
        .wait ∈ held u.self ((after s c ws (fs ++ rest)).stack u) := by
    intro hp hz hdold
    rcases h.noticed i q hp hz hdold with ⟨u, k, hsw, hk, hheld⟩
    exact noticed_persist h hst hseg hroused hd hsw hk hheld
  have hkin := h.kin hst hseg
  cases hkin with
  | calm hsame hdead =>
    rw [hsame] at hparent
    rw [hdead i (.inl hzombie)] at hzombie
    rcases hdoze with hdold | ⟨hcur, rfl⟩
    · exact hold hparent hzombie hdold
    · -- `wait` goes to sleep only after a scan that found no zombie
      refine absurd hzombie (h.checked q NPROC i ?_ i.isLt hparent)
      rw [← State.thread_of_cur_some hcur, hst]
      rfl
  | @fork p j pid hp hsets hstate =>
    rw [hstate] at hzombie
    have hij : i ≠ j := by
      rintro rfl
      have hused := hinv.proc.claim (s.thread c) i (by simp [hst])
      rw [hused] at hzombie
      cases hzombie
    rw [hsets.elsewhere i hij] at hparent
    rcases hdoze with hdold | ⟨-, hf⟩
    · exact hold hparent hzombie hdold
    · cases hf
  | @adopt p j status hp hchild hsets hstate =>
    rw [hstate] at hzombie
    by_cases hij : i = j
    · -- `reparent` wakes up `init` next
      rw [hij, hsets.at_slot] at hparent
      cases hparent
      refine ⟨s.thread c, 0, ?_, Nat.zero_le _, ?_⟩
      · rw [hself]
        rfl
      · rw [hself]
        simp
    · rw [hsets.elsewhere i hij] at hparent
      rcases hdoze with hdold | ⟨-, hf⟩
      · exact hold hparent hzombie hdold
      · cases hf
  | @exit p status hp hsame hsets =>
    rw [hsame] at hparent
    rcases hdoze with hdold | ⟨-, hf⟩
    · by_cases hip : i = p
      · -- the parent has been woken up before
        subst hip
        have hcur := cur_of_myproc hinv (hinv.wf_stack hst).1.1 hp
        refine absurd hdold (h.notified i q ?_ hparent)
        rw [← State.thread_of_cur_some hcur, hst]
        rfl
      · rw [hsets.elsewhere i hip] at hzombie
        exact hold hparent hzombie hdold
    · cases hf
  | @reap p j addr hp hz hsets hstate =>
    have hij : i ≠ j := by
      rintro rfl
      rw [hsets.at_slot] at hparent
      cases hparent
    rw [hsets.elsewhere i hij] at hparent
    rw [hstate.elsewhere i hij] at hzombie
    rcases hdoze with hdold | ⟨-, hf⟩
    · exact hold hparent hzombie hdold
    · cases hf

theorem family_seg (hroused : Roused (after s c ws (fs ++ rest))) :
    Family (after s c ws (fs ++ rest)) := by
  have hkin := h.kin hst hseg
  have hinit : (after s c ws (fs ++ rest)).initproc = s.initproc := by simp
  refine
    { roused := hroused
      initExit := ?_
      initAlive := ?_
      unused := fun i hi => unused_kin h hst hkin hi
      parents := fun i q hi => parents_kin h hst hkin hi
      adopted := fun p k i hv hi => adopted_seg h hst hseg hv hi
      checked := fun p k i hv hi hp => checked_seg h hst hseg hv hi hp
      child := fun p addr i hmem => child_seg h hst hseg hmem
      aimed := fun p ch ha => aimed_seg h hst hseg ha
      notified := fun p q hv hp => notified_seg h hst hseg hv hp
      noticed := fun i q hp hz hd => noticed_seg h hst hseg hroused hp hz hd }
  · intro pc hmem
    rw [hinit] at hmem
    exact initExit_seg h hst hseg hmem
  · rw [hinit]
    exact initAlive_kin h hst hkin

end Segment

theorem shift_sweep {me : Option Slot} {old new : Stack} {x : Option Chan × Nat}
    (h : Shift me old new) (hsh : Shape me old) (hsw : sweep old = some x)
    (hheld : .wait ∈ held me old) : sweep new = some x ∧ .wait ∈ held me new := by
  cases h with
  | same => exact ⟨hsw, hheld⟩
  | acquire l r => exact ⟨hsw, hheld⟩
  | spin l r => exact ⟨hsw, List.mem_of_mem_erase hheld⟩
  | release l r =>
    refine ⟨hsw, ?_⟩
    rcases List.mem_cons.1 hheld with hl | hmem
    · -- a lock of level 0 is not released inside the loop
      have hnone : sweep new = none := hsh.1 (by rw [← hl]; rfl)
      have hsome : sweep new = some x := hsw
      rw [hnone] at hsome
      cases hsome
    · exact hmem
  | swtch p r => cases hsw
  | swtchBack r => cases hsw
  | interrupt timer st hnil =>
    rw [hnil] at hheld
    cases hheld

theorem shifts_topmost {β : Type} {g : Frame → Option β} (hshift : Shifts s t c)
    (hlock : ∀ l, g (.acquire l) = none ∧ g (.spin l) = none ∧ g (.release l) = none)
    (hswtch : ∀ p, g (.swtch p) = none) (hback : g (.sched .swtch) = none)
    (htrap : ∀ pc, g (.trap pc) = none) (u : Thread n) :
    topmost g (t.stack u) = topmost g (s.stack u) := by
  by_cases hu : u = s.thread c
  · subst hu
    exact shift_topmost hshift.self hlock hswtch hback htrap
  · rw [hshift.other u hu]

theorem shifts_mem (hshift : Shifts s t c) {u : Thread n} (hf : f ∈ t.stack u)
    (hspin : ∀ l, f ≠ .spin l) (htrap : ∀ pc, f ≠ .trap pc) : f ∈ s.stack u := by
  by_cases hu : u = s.thread c
  · subst hu
    exact shift_mem hshift.self hf hspin htrap
  · rwa [hshift.other u hu] at hf

theorem family_shifts (h : Family s) (hshift : Shifts s t c) (hroused : Roused t) : Family t := by
  have hproc := hshift.still.proc
  have hinit := hshift.still.initproc
  have hdoze : ∀ {q : Slot}, Dozing t q (.proc q) .wait → Dozing s q (.proc q) .wait :=
    fun hd => dozing_shifts h.roused.formed hshift hd
  refine
    { roused := hroused
      initExit := ?_
      initAlive := ?_
      unused := ?_
      parents := ?_
      adopted := ?_
      checked := ?_
      child := ?_
      aimed := ?_
      notified := ?_
      noticed := ?_ }
  · intro pc hmem
    rw [hinit] at hmem
    exact h.initExit pc (shifts_mem hshift hmem (by simp) (by simp))
  · rw [hinit, hproc]
    exact h.initAlive
  · intro i
    rw [hproc]
    exact h.unused i
  · intro i q
    rw [hproc]
    exact h.parents i q
  · intro p k i hv
    rw [shifts_topmost hshift (by simp) (by simp) rfl (by simp)] at hv
    rw [hproc]
    exact h.adopted p k i hv
  · intro p k i hv
    rw [shifts_topmost hshift (by simp) (by simp) rfl (by simp)] at hv
    rw [hproc]
    exact h.checked p k i hv
  · intro p addr i hmem
    rw [hproc]
    exact h.child p addr i (shifts_mem hshift hmem (by simp) (by simp))
  · intro p ch ha
    rw [hproc]
    refine h.aimed p ch ?_
    by_cases hu : Thread.proc p = s.thread c
    · rw [hu] at ha ⊢
      exact shift_aim hshift.self (h.roused.formed.inv.lock.wf_thread c) ha
    · rwa [hshift.other _ hu] at ha
  · intro p q hv hparent hd
    rw [shifts_topmost hshift (by simp) (by simp) rfl (by simp)] at hv
    rw [hproc] at hparent
    exact h.notified p q hv hparent (hdoze hd)
  · intro i q hparent hzombie hd
    rw [hproc] at hparent hzombie
    rcases h.noticed i q hparent hzombie (hdoze hd) with ⟨u, k, hsw, hk, hheld⟩
    refine ⟨u, k, ?_⟩
    by_cases hu : u = s.thread c
    · subst hu
      rw [thread_self] at hheld ⊢
      rcases shift_sweep hshift.self (h.roused.formed.shape_thread c) hsw hheld with
        ⟨hsw', hheld'⟩
      exact ⟨hsw', hk, hheld'⟩
    · rw [hshift.other u hu]
      exact ⟨hsw, hk, hheld⟩

theorem family_move (h : Family s) (hrun : (s.cpu c).panicked = none) (hm : Move s c t) :
    Family t := by
  have hroused := roused_move h.roused hrun hm
  rcases move_shifts h.roused.formed.inv hrun hm with ⟨f, rest, ws, fs, hst, hseg, rfl⟩ | hshift
  · exact family_seg h hst hseg hroused
  · exact family_shifts h hshift hroused

theorem boot_family (mode : Fin n → SchedMode) : Family (boot mode) := by
  have hinit : (boot mode).initproc = initSlot := rfl
  have hproc : ∀ i, (boot mode).proc i = if i = initSlot then userinitProc else Proc.zero := by
    intro i
    simp [boot, Function.update_apply]
  have hparent : ∀ i, ((boot mode).proc i).parent = none := by
    intro i
    rw [hproc]
    split <;> rfl
  have hstack : ∀ p : Slot, (boot mode).stack (.proc p) = newStack ∨
      (boot mode).stack (.proc p) = [] := by
    intro p
    have hst : (boot mode).stack (.proc p) = if p = initSlot then newStack else [] := rfl
    rw [hst]
    split
    · exact .inl rfl
    · exact .inr rfl
  refine
    { roused := boot_roused mode
      initExit := ?_
      initAlive := ?_
      unused := fun i _ => hparent i
      parents := ?_
      adopted := ?_
      checked := ?_
      child := ?_
      aimed := ?_
      notified := ?_
      noticed := ?_ }
  · intro pc hmem
    rcases hstack (boot mode).initproc with hst | hst <;> simp [hst] at hmem
  · rw [hinit, hproc]
    simp [Dead, userinitProc]
  · intro i q hi
    rw [hparent] at hi
    cases hi
  · intro p k i hv
    rcases hstack p with hst | hst <;> simp [hst] at hv
  · intro p k i hv
    rcases hstack p with hst | hst <;> simp [hst] at hv
  · intro p addr i hmem
    rcases hstack p with hst | hst <;> simp [hst] at hmem
  · intro p ch ha
    rcases hstack p with hst | hst <;> simp [hst] at ha
  · intro p q hv
    rcases hstack p with hst | hst <;> simp [hst] at hv
  · intro i q hi
    rw [hparent] at hi
    cases hi

theorem reachable_family {mode : Fin n → SchedMode} (h : Reachable mode s) : Family s := by
  refine h.invariant (boot_family mode) ?_
  intro s a t hs hstep
  rcases step_move hstep with ⟨hrun, hm⟩
  exact family_move hs hrun hm

end Preservation

end Xv6Schedulers.Lifecycle
