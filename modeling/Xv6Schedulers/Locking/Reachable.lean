import Xv6Schedulers.Locking.Preservation

/-!
# Reachable — the invariants hold in every run

Preservation of `LockInv` and `ProcInv` by the lock operations, the two `swtch` steps, interrupts,
panics and segments of code, and `reachable_inv`.
-/

namespace Xv6Schedulers.Locking

open Kernel

variable {n : Nat} {s t : State n} {c : Fin n}

structure Inv (s : State n) : Prop where
  lock : LockInv s
  proc : ProcInv s

theorem Inv.of_acts {old : Stack} (h : Inv s) (new : Stack) (ha : Acts s t c new)
    (hst : s.stack (s.thread c) = old) (he : Effect s t c old new) (hwf : Wf (s.cur c) new)
    (hself : ∀ l, t.locked l = some c ↔ l ∈ held (s.cur c) new)
    (hother : ∀ l d, d ≠ c → (t.locked l = some d ↔ s.locked l = some d))
    (hnd : (held (s.cur c) new).Nodup)
    (hnoff : (t.cpu c).panicked = none →
      (t.cpu c).noff = (held (s.cur c) new).length + (spinning new).toList.length)
    (hintr : (t.cpu c).panicked = none → (t.cpu c).noff ≠ 0 → (t.cpu c).intr = false) : Inv t :=
  ⟨h.lock.of_acts h.proc ha hwf hself hother hnd hnoff hintr, h.proc.of_effect ha h.lock hst he⟩

section Moves

variable (h : Inv s) {f : Frame} {l : Lock} {rest : Stack}

include h

theorem Inv.wf_stack {st : Stack} (hst : s.stack (s.thread c) = st) : Wf (s.cur c) st := by
  rw [← hst]
  exact h.lock.wf_thread c

theorem Inv.expects_stack {st : Stack} (hst : s.stack (s.thread c) = st) :
    ∀ e ∈ expects st, (s.proc e.1).state = e.2 := by
  rw [← hst]
  exact h.proc.expect c

theorem Inv.holder_stack {st : Stack} (hst : s.stack (s.thread c) = st) (l : Lock) :
    s.locked l = some c ↔ l ∈ held (s.cur c) st := by
  rw [h.lock.holder l c, heldBy, hst]

theorem Inv.nodup_stack {st : Stack} (hst : s.stack (s.thread c) = st) :
    (held (s.cur c) st).Nodup := by
  have hnd := h.lock.nodup c
  rwa [heldBy, hst] at hnd

theorem Inv.noff_stack {st : Stack} (hst : s.stack (s.thread c) = st)
    (hrun : (s.cpu c).panicked = none) :
    (s.cpu c).noff = (held (s.cur c) st).length + (spinning st).toList.length := by
  have hnoff := h.lock.noff c hrun
  rwa [heldBy, hst] at hnoff

/-! ### Lock operations -/

theorem acquire_inv (hrun : (s.cpu c).panicked = none)
    (hst : s.stack (s.thread c) = .acquire l :: rest) (hfree : ¬ s.Holding c l) :
    Inv ((s.setCpu c (s.cpu c).pushOff).setStack (s.thread c) (.spin l :: rest)) := by
  have hwf := h.wf_stack hst
  have hbelow : Below l ((held (s.cur c) rest).erase l) := by
    rcases hwf.1.2.2 with hmem | hbelow
    · exact absurd ((h.holder_stack hst l).2 hmem) hfree
    · exact hbelow
  refine h.of_acts (.spin l :: rest) ⟨rfl, ?_, by simp, ?_⟩ hst ?_ ?_ ?_ ?_ ?_ ?_ ?_
  · intro d hd
    simp [hd]
  · intro u hu
    exact .inl (by simp [hu])
  · exact .quiet (fun _ => rfl) (by simp [State.myproc, Cpu.pushOff])
      ⟨rfl, rfl, rfl, rfl, by simp⟩ (fun e he => h.expects_stack hst e he)
  · exact ⟨⟨hwf.1.1, hwf.1.2.1, hbelow⟩, hwf.2.1, hwf.2.2⟩
  · exact fun k => h.holder_stack hst k
  · intro k d _
    rfl
  · have hnd := h.nodup_stack hst
    exact hnd
  · intro _
    have hnoff := h.noff_stack hst hrun
    simpa [Cpu.pushOff] using hnoff
  · simp [Cpu.pushOff]

theorem spin_inv (hrun : (s.cpu c).panicked = none)
    (hst : s.stack (s.thread c) = .spin l :: rest) (hfree : s.locked l = none) :
    Inv ((s.setLocked l (some c)).setStack (s.thread c) rest) := by
  rcases h.wf_stack hst with ⟨⟨hmem, hne, hbelow⟩, ⟨hspin, htarget, hleave⟩, hrest⟩
  have hperm := List.perm_cons_erase hmem
  refine h.of_acts rest ⟨rfl, fun _ _ => rfl, by simp, ?_⟩ hst ?_ hrest ?_ ?_ ?_ ?_ ?_
  · intro u hu
    exact .inl (by simp [hu])
  · refine .quiet (fun _ => rfl) rfl ⟨hleave, ?_, htarget, rfl, List.mem_cons_of_mem _⟩
      (fun e he => h.expects_stack hst e he)
    exact entering_of_target_none htarget
  · intro k
    by_cases hk : k = l
    · subst hk
      simp [hmem]
    · have hold := h.holder_stack hst k
      simpa [hk, List.mem_erase_of_ne hk] using hold
  · intro k d hdc
    by_cases hk : k = l
    · subst hk
      simp [hfree, hdc.symm]
    · simp [hk]
  · exact hperm.nodup_iff.2 (List.nodup_cons.2 ⟨hbelow.notMem, h.nodup_stack hst⟩)
  · intro _
    have hnoff := h.noff_stack hst hrun
    rw [hperm.length_eq]
    simpa [hspin] using hnoff
  · exact h.lock.intr c

theorem release_inv {u : Cpu} (hrun : (s.cpu c).panicked = none)
    (hst : s.stack (s.thread c) = .release l :: rest) (hpop : (s.cpu c).popOff = .ok u) :
    Inv (((s.setLocked l none).setCpu c u).setStack (s.thread c) rest) := by
  rcases Cpu.popOff_ok hpop with ⟨hnoff, hproc, hpanic, hintr⟩
  rcases h.wf_stack hst with ⟨-, ⟨hspin, htarget⟩, hrest⟩
  have hnd : (l :: held (s.cur c) rest).Nodup := h.nodup_stack hst
  refine h.of_acts rest ⟨rfl, ?_, by simp, ?_⟩ hst ?_ hrest ?_ ?_ ?_ ?_ ?_
  · intro d hd
    simp [hd]
  · intro v hv
    exact .inl (by simp [hv])
  · refine .quiet (fun _ => rfl) (by simpa [State.myproc] using hproc)
      ⟨rfl, ?_, htarget, rfl, List.mem_cons_of_mem _⟩
      (fun e he => h.expects_stack hst e he)
    exact entering_of_target_none htarget
  · intro k
    by_cases hk : k = l
    · subst hk
      simpa using (List.nodup_cons.1 hnd).1
    · have hold := h.holder_stack hst k
      simpa [hk] using hold
  · intro k d hdc
    by_cases hk : k = l
    · subst hk
      have hold := (h.holder_stack hst k).2 (by simp)
      simp [hold, hdc.symm]
    · simp [hk]
  · exact (List.nodup_cons.1 hnd).2
  · intro _
    have hcount := h.noff_stack hst hrun
    simp only [held_cons, Frame.locks, List.length_cons, spinning_cons, Frame.spins,
      Option.toList_none, List.length_nil] at hcount
    simp [hspin]
    omega
  · simpa using fun _ => hintr

theorem release_ok (hrun : (s.cpu c).panicked = none)
    (hst : s.stack (s.thread c) = .release l :: rest) :
    s.Holding c l ∧ ∀ m, (s.cpu c).popOff ≠ .error m := by
  have hcount := h.noff_stack hst hrun
  simp only [held_cons, Frame.locks, List.length_cons] at hcount
  refine ⟨(h.holder_stack hst l).2 (by simp), ?_⟩
  intro m hm
  have hintr := h.lock.intr c hrun (by omega)
  rcases Cpu.popOff_error hm with hon | hzero
  · simp [hintr] at hon
  · omega

/-! ### Panics, interrupts, code -/

theorem panic_inv {u : Cpu} (hu : u.panicked ≠ none) (hproc : u.proc = (s.cpu c).proc) :
    Inv (s.setCpu c u) := by
  refine h.of_acts (s.stack (s.thread c)) ⟨rfl, ?_, rfl, ?_⟩ rfl ?_ (h.lock.wf_thread c)
    ?_ ?_ (h.lock.nodup c) ?_ ?_
  · intro d hd
    simp [hd]
  · intro v _
    exact .inl rfl
  · exact .quiet (fun _ => rfl) (by simpa [State.myproc] using hproc)
      ⟨rfl, rfl, rfl, rfl, id⟩ (h.proc.expect c)
  · exact fun k => h.lock.holder k c
  · exact fun _ _ _ => Iff.rfl
  · intro hnone
    exact absurd (by simpa using hnone) hu
  · intro hnone
    exact absurd (by simpa using hnone) hu

theorem interrupt_inv {timer : Bool} (hrun : (s.cpu c).panicked = none)
    (hintr : (s.cpu c).intr = true) :
    Inv ((s.setCpu c { s.cpu c with intr := false }).setStack (s.thread c)
      (.trap (.service false) :: .trap (.kerneltrap timer) :: s.stack (s.thread c))) := by
  have hzero : (s.cpu c).noff = 0 := by
    by_contra hne
    simp [h.lock.intr c hrun hne] at hintr
  have hcount := h.lock.noff c hrun
  have hheld : held (s.cur c) (s.stack (s.thread c)) = [] := by
    refine List.eq_nil_of_length_eq_zero ?_
    have : (heldBy s c).length = 0 := by omega
    exact this
  have hspin : spinning (s.stack (s.thread c)) = none := by
    have : (spinning (s.stack (s.thread c))).toList.length = 0 := by omega
    simpa using this
  have hwf := h.lock.wf_thread c
  -- a thread that holds no lock has nothing pending
  have hleave : leaving (s.stack (s.thread c)) = false := by
    cases hc : s.cur c with
    | none =>
      rw [hc] at hwf
      exact leaving_none hwf
    | some p =>
      rw [hc] at hwf hheld
      by_contra hl
      have hmem := leaving_held hwf (by simpa using hl)
      simp [hheld] at hmem
  have hexp : expects (s.stack (s.thread c)) = none := by
    by_contra hne
    rcases Option.ne_none_iff_exists.1 hne with ⟨e, he⟩
    have hmem := expects_held hwf he.symm
    simp [hheld] at hmem
  have htarget : target (s.stack (s.thread c)) = none := by
    cases hc : s.cur c with
    | none =>
      rw [hc] at hwf hheld
      by_contra hne
      rcases Option.ne_none_iff_exists.1 hne with ⟨p, hp⟩
      simp [target_held hwf hp.symm] at hheld
    | some p =>
      rw [hc] at hwf
      exact target_self hwf
  refine h.of_acts (c := c) (.trap (.service false) :: .trap (.kerneltrap timer) ::
    s.stack (s.thread c)) ⟨rfl, ?_, by simp, ?_⟩ rfl ?_ ?_ ?_ ?_ ?_ ?_ ?_
  · intro d hd
    simp [hd]
  · intro v hv
    exact .inl (by simp [hv])
  · refine .quiet (fun _ => rfl) (by simp [State.myproc]) ?_ (by simp)
    exact ⟨hleave.symm, (entering_of_target_none htarget).symm, htarget.symm, rfl, by simp⟩
  · exact ⟨⟨hheld, by simp⟩, ⟨rfl, rfl, rfl, rfl⟩, hheld, ⟨hspin, htarget, hleave, hexp⟩, hwf⟩
  · exact fun k => h.lock.holder k c
  · exact fun _ _ _ => Iff.rfl
  · exact h.lock.nodup c
  · simp [hzero, hheld]
  · simp

omit h in
theorem onIntr_eq_false {ws : List Write} {b : Bool} (hb : b = false) (hws : .intr true ∉ ws) :
    ws.foldl (fun b w => w.onIntr b) b = false := by
  induction ws generalizing b with
  | nil => exact hb
  | cons w ws ih =>
    refine ih ?_ (fun hmem => hws (List.mem_cons_of_mem w hmem))
    cases w with
    | intr v =>
      cases v with
      | false => rfl
      | true => simp at hws
    | _ => exact hb

theorem seg_inv {ws : List Write} {fs : Stack} (hrun : (s.cpu c).panicked = none)
    (hst : s.stack (s.thread c) = f :: rest) (hseg : Seg s c f ws fs) :
    Inv (after s c ws (fs ++ rest)) := by
  have hwf := h.wf_stack hst
  have hmy : s.myproc c = procOf (s.cur c) (f :: rest) := by
    rw [← hst]
    exact h.proc.myproc_procOf c
  rcases seg_keeps hmy hseg hwf (h.nodup_stack hst) with ⟨hwf', hperm, hspin⟩
  have hspin' : spinning (f :: rest) = none := by
    cases hseg <;> rfl
  refine h.of_acts _ (seg_acts h.proc hst hseg) hst (seg_effect h.lock h.proc hst hseg) hwf'
    ?_ ?_ ?_ ?_ ?_
  · intro k
    rw [hperm.mem_iff, ← h.holder_stack hst]
    simp
  · intro k d _
    simp
  · exact hperm.nodup_iff.2 (h.nodup_stack hst)
  · intro _
    have hnoff := h.noff_stack hst hrun
    rw [hspin'] at hnoff
    simpa [hspin, hperm.length_eq] using hnoff
  · intro _ hne
    have hoff : (s.cpu c).intr = false := h.lock.intr c hrun (by simpa using hne)
    rw [State.writes_intr]
    refine onIntr_eq_false (by simpa using hoff) ?_
    intro hon
    have hnoff := h.noff_stack hst hrun
    rcases seg_intr hseg hwf hon with ⟨hnil, -⟩
    simp [hnil, hspin'] at hnoff
    exact hne (by simpa using hnoff)

/-! ### Context switches -/

/-- What both directions of `swtch` have in common: the old thread drops its call of `swtch`, and
the hart goes on with the same locks in the new thread. -/
theorem Inv.of_switch {new : Option Slot} (hst : s.stack (s.thread c) = f :: rest)
    (ht : t = (s.setStack (s.thread c) rest).setCur c new)
    (hclaims : claims (f :: rest) = claims rest) (hspin : spinning (f :: rest) = none)
    (hheld : heldBy t c = heldBy s c) (hspin' : spinning (t.stack (t.thread c)) = none)
    (hexp : expects (t.stack (t.thread c)) = none)
    (hresting : ∀ p, new = some p → Resting p (t.stack (.hart c)))
    (htarget : s.myproc c = target (t.stack (.hart c))) (hon : onCpu t c = onCpu s c)
    (hparked : ∀ p, (∀ d, t.cur d ≠ some p) →
      Parked (t.stack (.proc p)) ∨ (t.stack (.proc p) = [] ∧ (s.proc p).state = .unused)) :
    Inv t := by
  have hstack : ∀ u, u ≠ s.thread c → t.stack u = s.stack u := by
    intro u hu
    simp [ht, hu]
  have hself : t.stack (s.thread c) = rest := by simp [ht]
  have hcur : ∀ d, d ≠ c → t.cur d = s.cur d := by
    intro d hd
    simp [ht, hd]
  have hthread : ∀ d, d ≠ c → t.thread d = s.thread d := by
    intro d hd
    simp [State.thread, hcur d hd]
  have hother : ∀ d, d ≠ c → t.stack (s.thread d) = s.stack (s.thread d) := by
    intro d hd
    exact hstack _ (h.proc.thread_ne hd)
  have hhart : ∀ d, d ≠ c → t.stack (.hart d) = s.stack (.hart d) := by
    intro d hd
    refine hstack _ ?_
    cases hc : s.cur c with
    | none => simpa [State.thread_of_cur_none hc] using hd
    | some p => simp [State.thread_of_cur_some hc]
  have hmyproc : ∀ d, t.myproc d = s.myproc d := by
    intro d
    simp [ht]
  have hproc : t.proc = s.proc := by rw [ht]; rfl
  have hcpu : t.cpu = s.cpu := by rw [ht]; rfl
  have hlocked : t.locked = s.locked := by rw [ht]; rfl
  have hheldd : ∀ d, heldBy t d = heldBy s d := by
    intro d
    by_cases hd : d = c
    · rw [hd, hheld]
    · rw [heldBy, hcur d hd, hthread d hd, hother d hd, heldBy]
  have hond : ∀ d, onCpu t d = onCpu s d := by
    intro d
    by_cases hd : d = c
    · rw [hd, hon]
    · have hthis := hother d hd
      cases hc : s.cur d with
      | none => simp [onCpu, hcur d hd, hc, hhart d hd]
      | some p =>
        rw [State.thread_of_cur_some hc] at hthis
        simp [onCpu, hcur d hd, hc, hthis]
  have hsame : ∀ u, claims (t.stack u) = claims (s.stack u) := by
    intro u
    by_cases hu : u = s.thread c
    · rw [hu, hself, hst, hclaims]
    · rw [hstack u hu]
  have hwfr : Wf (s.cur c) rest := (h.wf_stack hst).2.2
  refine ⟨⟨?_, ?_, ?_, ?_, ?_⟩, ⟨?_, ?_, ?_, ?_, ?_, ?_, ?_, ?_, ?_, ?_, ?_⟩⟩
  · intro u
    by_cases hu : u = s.thread c
    · rw [hu, hself, thread_self]
      exact hwfr
    · rw [hstack u hu]
      exact h.lock.wf u
  · intro l d
    rw [hlocked, hheldd d]
    exact h.lock.holder l d
  · intro d
    rw [hheldd d]
    exact h.lock.nodup d
  · intro d hpan
    rw [hcpu] at hpan ⊢
    rw [hheldd d, h.lock.noff d hpan]
    by_cases hd : d = c
    · rw [hd, hspin', hst, hspin]
    · rw [hthread d hd, hother d hd]
  · rw [hcpu]
    exact h.lock.intr
  · intro d q hd
    by_cases hdc : d = c
    · rw [hdc]
      refine hresting q ?_
      rw [← hd, hdc, ht]
      simp
    · rw [hcur d hdc] at hd
      rw [hhart d hdc]
      exact h.proc.resting d q hd
  · intro d
    rw [hmyproc d]
    by_cases hdc : d = c
    · rw [hdc, htarget]
    · rw [hhart d hdc]
      exact h.proc.myproc d
  · intro d e q
    rw [hmyproc d, hmyproc e]
    exact h.proc.owner d e q
  · rw [hproc]
    exact hparked
  · intro d q
    rw [hmyproc d, hond d, hproc]
    exact h.proc.on d q
  · intro d q
    rw [hmyproc d, hond d, hproc]
    exact h.proc.off d q
  · intro q
    rw [hproc]
    simp only [hmyproc]
    exact h.proc.running q
  · intro d e he
    rw [hproc]
    by_cases hdc : d = c
    · rw [hdc, hexp] at he
      cases he
    · rw [hthread d hdc, hother d hdc] at he
      exact h.proc.expect d e he
  · intro u i
    rw [hsame u, hproc]
    exact h.proc.claim u i
  · intro u v i
    rw [hsame u, hsame v]
    exact h.proc.claim_owner u v i
  · intro q hz
    rw [hproc]
    refine h.proc.zombie q ?_
    by_cases hq : .proc q = s.thread c
    · rw [hq, hself] at hz
      rw [hq, hst]
      exact List.mem_cons_of_mem f hz
    · rwa [hstack _ hq] at hz

/-- `swtch` into a process: the lock it was dispatched with is the one it holds in `sched`. -/
theorem swtch_inv {p : Slot} (hst : s.stack (s.thread c) = .swtch p :: rest) :
    Inv ((s.setStack (s.thread c) rest).setCur c (some p)) := by
  rcases h.wf_stack hst with ⟨⟨hcur, hresting⟩, -, -⟩
  have hthread := State.thread_of_cur_none hcur
  have hstc : s.stack (.hart c) = .swtch p :: rest := by rw [← hthread, hst]
  have hmine : s.myproc c = some p := by
    rw [h.proc.myproc c, hstc]
    rfl
  have hon : onCpu s c = true := by
    simp [onCpu, hcur, hstc]
  have hidle : ∀ d, s.cur d ≠ some p := by
    intro d hd
    have hdc := h.proc.owner d c p (h.proc.myproc_of_cur hd) hmine
    rw [hdc, hcur] at hd
    cases hd
  have hparked : Parked (s.stack (.proc p)) := by
    rcases h.proc.parked p hidle with hp | ⟨-, hu⟩
    · exact hp
    · simp [h.proc.on c p hmine hon] at hu
  rcases hparked.quiet with ⟨hspin, hleave, hexp⟩
  generalize ht : (s.setStack (s.thread c) rest).setCur c (some p) = t
  have hcurc : t.cur c = some p := by simp [← ht]
  have hthreadc : t.thread c = .proc p := State.thread_of_cur_some hcurc
  have hstp : t.stack (.proc p) = s.stack (.proc p) := by simp [← ht, hthread]
  have hsth : t.stack (.hart c) = rest := by simp [← ht, hthread]
  refine h.of_switch hst ht.symm rfl rfl ?_ ?_ ?_ ?_ ?_ ?_ ?_
  · have hwfc : Wf none (s.stack (.hart c)) := h.lock.wf (.hart c)
    calc
      heldBy t c = held (some p) (s.stack (.proc p)) := by
        rw [heldBy, hcurc, hthreadc, hstp]
      _ = [.proc p] := hparked.held_eq (h.lock.wf (.proc p))
      _ = held none (s.stack (.hart c)) := (target_held hwfc (by rw [hstc]; rfl)).symm
      _ = heldBy s c := by rw [heldBy, hcur, hthread]
  · rw [hthreadc, hstp, hspin]
  · rw [hthreadc, hstp, hexp]
  · intro q hq
    cases hq
    rw [hsth]
    exact hresting
  · rw [hsth, hmine]
    exact (Resting.target_eq hresting).symm
  · rw [hon]
    simp [onCpu, hcurc, hstp, hleave]
  · intro q hq
    have hstq : t.stack (.proc q) = s.stack (.proc q) := by simp [← ht, hthread]
    rw [hstq]
    refine h.proc.parked q ?_
    intro d hd
    by_cases hdc : d = c
    · rw [hdc, hcur] at hd
      cases hd
    · exact hq d (by simpa [← ht, hdc] using hd)

theorem swtchBack_inv (hst : s.stack (s.thread c) = .sched .swtch :: rest) :
    Inv ((s.setStack (s.thread c) rest).setCur c none) := by
  rcases h.wf_stack hst with ⟨⟨hsome, b, r, hr⟩, -, hwfr⟩
  rcases Option.isSome_iff_exists.1 hsome with ⟨p, hcur⟩
  have hthread := State.thread_of_cur_some hcur
  have hstp : s.stack (.proc p) = .sched .swtch :: rest := by rw [← hthread, hst]
  have hresting := h.proc.resting c p hcur
  generalize ht : (s.setStack (s.thread c) rest).setCur c none = t
  have hcurc : t.cur c = none := by simp [← ht]
  have hthreadc : t.thread c = .hart c := State.thread_of_cur_none hcurc
  have hsth : t.stack (.hart c) = s.stack (.hart c) := by simp [← ht, hthread]
  refine h.of_switch hst ht.symm rfl rfl ?_ ?_ ?_ ?_ ?_ ?_ ?_
  · have hwfc : Wf none (s.stack (.hart c)) := h.lock.wf (.hart c)
    calc
      heldBy t c = held none (s.stack (.hart c)) := by rw [heldBy, hcurc, hthreadc, hsth]
      _ = [.proc p] := target_held hwfc hresting.target_eq
      _ = held (some p) r := by
        rw [hcur, hr] at hwfr
        exact hwfr.1.2.symm
      _ = heldBy s c := by
        rw [heldBy, hcur, hthread, hstp, hr]
        rfl
  · rw [hthreadc, hsth]
    rcases hresting with ⟨cl, hback⟩ | hback <;> rw [hback] <;> rfl
  · rw [hthreadc, hsth]
    rcases hresting with ⟨cl, hback⟩ | hback <;> rw [hback] <;> rfl
  · intro q hq
    cases hq
  · rw [hsth]
    exact h.proc.myproc c
  · simp [onCpu, hcurc, hsth, hresting.entering_eq, hcur, hstp]
  · intro q hq
    by_cases hqp : q = p
    · refine .inl (.inl ⟨b, r, ?_⟩)
      simp [← ht, hthread, hqp, hr]
    · have hstq : t.stack (.proc q) = s.stack (.proc q) := by simp [← ht, hthread, hqp]
      rw [hstq]
      refine h.proc.parked q ?_
      intro d hd
      by_cases hdc : d = c
      · rw [hdc, hcur] at hd
        exact hqp (Option.some.inj hd).symm
      · exact hq d (by simpa [← ht, hdc] using hd)

end Moves

/-! ## Runs -/

theorem move_inv (h : Inv s) (hrun : (s.cpu c).panicked = none) (hm : Move s c t) : Inv t := by
  cases hm with
  | acquire hst hfree => exact acquire_inv h hrun hst hfree
  | acquireTwice hst hold =>
    have hpan := panic_inv h (c := c) (u := { (s.cpu c).pushOff with panicked := some .acquire })
      (by simp) rfl
    simpa [State.panic, State.setCpu] using hpan
  | spin hst hfree => exact spin_inv h hrun hst hfree
  | release hst hold hpop => exact release_inv h hrun hst hpop
  | releaseUnheld hst hold => exact absurd (release_ok h hrun hst).1 hold
  | releasePanic hst hold hpop => exact absurd hpop ((release_ok h hrun hst).2 _)
  | swtch hst => exact swtch_inv h hst
  | swtchBack hst => exact swtchBack_inv h hst
  | seg hst hseg => exact seg_inv h hrun hst hseg
  | panic hst hcode => exact panic_inv h (by simp) rfl
  | interrupt hintr huser => exact interrupt_inv h hrun hintr

theorem boot_inv (mode : Fin n → SchedMode) : Inv (boot mode) := by
  have hthread : ∀ c, (boot mode).thread c = .hart c := fun c => rfl
  have hhart : ∀ c, (boot mode).stack (.hart c) = (mode c).stack := fun c => rfl
  have hproc : ∀ p, (boot mode).stack (.proc p) = if p = initSlot then newStack else [] :=
    fun p => rfl
  have hmyproc : ∀ c, (boot mode).myproc c = none := fun c => rfl
  have hheld : ∀ c, heldBy (boot mode) c = [] := by
    intro c
    rw [heldBy, hthread, hhart]
    cases mode c <;> rfl
  have hclaims : ∀ u, claims ((boot mode).stack u) = [] := by
    intro u
    cases u with
    | hart c =>
      rw [hhart]
      cases mode c <;> rfl
    | proc p =>
      rw [hproc]
      split <;> rfl
  have hstate : ∀ p, ((boot mode).proc p).state ≠ .running := by
    intro p
    by_cases hp : p = initSlot <;> simp [boot, hp, userinitProc, Proc.zero]
  refine ⟨⟨?_, ?_, by simp [hheld], ?_, by simp [boot]⟩,
    ⟨by simp [boot], ?_, by simp [hmyproc], ?_, by simp [hmyproc], by simp [hmyproc], ?_, ?_,
      by simp [hclaims], by simp [hclaims], ?_⟩⟩
  · intro u
    cases u with
    | hart c =>
      rw [hhart]
      cases mode c <;> simp [SchedMode.stack, Frame.Ok, Thread.self]
    | proc p =>
      rw [hproc]
      split
      · exact wf_newStack
      · trivial
  · intro l c
    rw [hheld]
    simp [boot]
  · intro c _
    rw [hheld, hthread, hhart]
    cases mode c <;> rfl
  · intro c
    rw [hmyproc, hhart]
    cases mode c <;> rfl
  · intro p _
    rw [hproc]
    by_cases hp : p = initSlot
    · exact .inl (.inr (by simp [hp]))
    · exact .inr ⟨by simp [hp], by simp [boot, hp, Proc.zero]⟩
  · intro p hp
    exact absurd hp (hstate p)
  · intro c e he
    rw [hthread, hhart] at he
    cases hm : mode c <;> simp [hm, SchedMode.stack] at he
  · intro p hz
    rw [hproc] at hz
    split at hz <;> simp [newStack] at hz

/-- The invariants hold in every reachable state. -/
theorem reachable_inv {mode : Fin n → SchedMode} (h : Reachable mode s) : Inv s := by
  refine h.invariant (boot_inv mode) ?_
  intro s a t hs hstep
  rcases step_move hstep with ⟨hrun, hm⟩
  exact move_inv hs hrun hm

end Xv6Schedulers.Locking
