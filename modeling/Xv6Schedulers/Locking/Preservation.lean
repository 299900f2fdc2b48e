import Xv6Schedulers.Locking.Effect

/-!
# Preservation — every step keeps the invariants

A step that does not switch threads is handled through `Acts` and `Effect`; the two `swtch` steps
are handled on their own.  The result is `reachable_inv`: `LockInv` and `ProcInv` hold in every
reachable state.
-/

namespace Xv6Schedulers.Locking

open Kernel

variable {n : Nat} {s t : State n} {c d : Fin n} {old new : Stack}

/-! ## Threads that do not act -/

namespace Acts

variable (ha : Acts s t c new)
include ha

theorem thread_eq (d : Fin n) : t.thread d = s.thread d := by
  simp [State.thread, ha.cur]

theorem stack_hart (hd : .hart d ≠ s.thread c) : t.stack (.hart d) = s.stack (.hart d) := by
  rcases ha.other (.hart d) hd with h | ⟨i, hi, -⟩
  · exact h
  · cases hi

theorem stack_hart_of_cur {p : Slot} (hd : s.cur d = some p) :
    t.stack (.hart d) = s.stack (.hart d) := by
  refine ha.stack_hart ?_
  intro heq
  cases hc : s.cur c with
  | none =>
    have hdc : d = c := by simpa [State.thread_of_cur_none hc] using heq
    subst hdc
    simp [hc] at hd
  | some q => simp [State.thread_of_cur_some hc] at heq

theorem stack_hart_of_ne (hdc : d ≠ c) : t.stack (.hart d) = s.stack (.hart d) := by
  refine ha.stack_hart ?_
  intro heq
  cases hc : s.cur c with
  | none => exact hdc (by simpa [State.thread_of_cur_none hc] using heq)
  | some q => simp [State.thread_of_cur_some hc] at heq

theorem stack_thread (hp : ProcInv s) (hdc : d ≠ c) :
    t.stack (s.thread d) = s.stack (s.thread d) := by
  rcases ha.other (s.thread d) (hp.thread_ne hdc) with h | ⟨i, hi, hfree, -⟩
  · exact h
  · cases hd : s.cur d with
    | none => simp [State.thread_of_cur_none hd] at hi
    | some q =>
      have hqi : q = i := by simpa [State.thread_of_cur_some hd] using hi
      subst hqi
      exact absurd hd (hfree d)

theorem heldBy_of_ne (hp : ProcInv s) (hdc : d ≠ c) : heldBy t d = heldBy s d := by
  simp [heldBy, ha.cur, ha.thread_eq, ha.stack_thread hp hdc]

theorem heldBy_self : heldBy t c = held (s.cur c) new := by
  simp [heldBy, ha.cur, ha.thread_eq, ha.self]

theorem myproc_of_ne (hdc : d ≠ c) : t.myproc d = s.myproc d := by
  simp [State.myproc, ha.cpu d hdc]

theorem onCpu_of_ne (hp : ProcInv s) (hdc : d ≠ c) : onCpu t d = onCpu s d := by
  have hstack := ha.stack_thread hp hdc
  cases hd : s.cur d with
  | none => simp [onCpu, ha.cur, hd, ha.stack_hart_of_ne hdc]
  | some p =>
    rw [State.thread_of_cur_some hd] at hstack
    simp [onCpu, ha.cur, hd, hstack]

theorem onCpu_self_none (hc : s.cur c = none) : onCpu t c = entering new := by
  have hself := ha.self
  rw [State.thread_of_cur_none hc] at hself
  simp only [onCpu, ha.cur, hc, hself]

theorem onCpu_self_some {p : Slot} (hc : s.cur c = some p) : onCpu t c = !leaving new := by
  have hself := ha.self
  rw [State.thread_of_cur_some hc] at hself
  simp only [onCpu, ha.cur, hc, hself]

theorem claims_of_ne {u : Thread n} {i : Slot} (hu : u ≠ s.thread c)
    (hi : i ∈ claims (t.stack u)) : i ∈ claims (s.stack u) := by
  rcases ha.other u hu with h | ⟨j, -, -, h⟩
  · rwa [h] at hi
  · simp [h] at hi

theorem zombie_of_ne {u : Thread n} (hu : u ≠ s.thread c)
    (hz : .exit .zombie ∈ t.stack u) : .exit .zombie ∈ s.stack u := by
  rcases ha.other u hu with h | ⟨j, -, -, h⟩
  · rwa [h] at hz
  · simp [h, newStack] at hz

theorem wf (hl : LockInv s) (hwf : Wf (s.cur c) new) (u : Thread n) : Wf u.self (t.stack u) := by
  by_cases hu : u = s.thread c
  · subst hu
    simpa [ha.self] using hwf
  · rcases ha.other u hu with h | ⟨i, rfl, -, h⟩
    · simpa [h] using hl.wf u
    · simpa [h, Thread.self] using wf_newStack

end Acts

/-! ## Locks -/

theorem LockInv.of_acts (hl : LockInv s) (hp : ProcInv s) (ha : Acts s t c new)
    (hwf : Wf (s.cur c) new)
    (hself : ∀ l, t.locked l = some c ↔ l ∈ held (s.cur c) new)
    (hother : ∀ l d, d ≠ c → (t.locked l = some d ↔ s.locked l = some d))
    (hnd : (held (s.cur c) new).Nodup)
    (hnoff : (t.cpu c).panicked = none →
      (t.cpu c).noff = (held (s.cur c) new).length + (spinning new).toList.length)
    (hintr : (t.cpu c).panicked = none → (t.cpu c).noff ≠ 0 → (t.cpu c).intr = false) :
    LockInv t := by
  constructor
  · exact ha.wf hl hwf
  · intro l d
    by_cases hdc : d = c
    · subst hdc
      rw [ha.heldBy_self]
      exact hself l
    · rw [ha.heldBy_of_ne hp hdc, hother l d hdc]
      exact hl.holder l d
  · intro d
    by_cases hdc : d = c
    · subst hdc
      rwa [ha.heldBy_self]
    · rw [ha.heldBy_of_ne hp hdc]
      exact hl.nodup d
  · intro d
    by_cases hdc : d = c
    · subst hdc
      rw [ha.heldBy_self, ha.thread_eq, ha.self]
      exact hnoff
    · rw [ha.heldBy_of_ne hp hdc, ha.thread_eq, ha.stack_thread hp hdc, ha.cpu d hdc]
      exact hl.noff d
  · intro d
    by_cases hdc : d = c
    · subst hdc
      exact hintr
    · rw [ha.cpu d hdc]
      exact hl.intr d

/-! ## Processors and process states -/

section Effects

theorem owner_of_subset (hp : ProcInv s) (hsub : ∀ d p, t.myproc d = some p → s.myproc d = some p)
    (d e : Fin n) (p : Slot) (hd : t.myproc d = some p) (he : t.myproc e = some p) : d = e :=
  hp.owner d e p (hsub d p hd) (hsub e p he)

theorem expect_ne_of_held (hl : LockInv s) {e : Slot × ProcState} {i : Slot}
    (hi : .proc i ∈ heldBy s c) (hdc : d ≠ c) (he : expects (s.stack (s.thread d)) = some e) :
    e.1 ≠ i := by
  rintro rfl
  have hd := (hl.holder _ _).2 (expects_held (hl.wf_thread d) he)
  have hc := (hl.holder _ _).2 hi
  rw [hc] at hd
  exact hdc (Option.some.inj hd).symm

theorem SetsState.keep {i p : Slot} {v w : ProcState} (hs : SetsState s t i v)
    (hi : (s.proc i).state ≠ w) (hp : (s.proc p).state = w) : (t.proc p).state = w := by
  have hne : p ≠ i := by
    rintro rfl
    exact hi hp
  rw [hs.elsewhere p hne, hp]

theorem SetsState.back {i p : Slot} {v w : ProcState} (hs : SetsState s t i v) (hv : v ≠ w)
    (hp : (t.proc p).state = w) : (s.proc p).state = w := by
  by_cases hpi : p = i
  · subst hpi
    exact absurd (hs.at_slot.symm.trans hp) hv
  · rw [← hs.elsewhere p hpi, hp]

theorem shape_onCpu (ha : Acts s t c new) (hst : s.stack (s.thread c) = old)
    (hshape : SameShape old new) : onCpu t c = onCpu s c := by
  cases hc : s.cur c with
  | none =>
    rw [State.thread_of_cur_none hc] at hst
    rw [ha.onCpu_self_none hc, hshape.entering]
    simp only [onCpu, hc, hst]
  | some p =>
    rw [State.thread_of_cur_some hc] at hst
    rw [ha.onCpu_self_some hc, hshape.leaving]
    simp only [onCpu, hc, hst]

theorem myproc_subset (ha : Acts s t c new) (hmy : t.myproc c = s.myproc c) (d : Fin n) (p : Slot)
    (hd : t.myproc d = some p) : s.myproc d = some p := by
  by_cases hdc : d = c
  · subst hdc
    rwa [← hmy]
  · rwa [← ha.myproc_of_ne hdc]

variable (hp : ProcInv s) (ha : Acts s t c new)
include hp ha

theorem resting_of_acts (d : Fin n) (p : Slot)
    (hd : t.cur d = some p) : Resting p (t.stack (.hart d)) := by
  rw [ha.cur] at hd
  rw [ha.stack_hart_of_cur hd]
  exact hp.resting d p hd

theorem myproc_of_acts (hnone : s.cur c = none → t.myproc c = target new)
    (hsome : (s.cur c).isSome → t.myproc c = s.myproc c) (d : Fin n) :
    t.myproc d = target (t.stack (.hart d)) := by
  by_cases hdc : d = c
  · subst hdc
    cases hc : s.cur d with
    | none =>
      have hself := ha.self
      rw [State.thread_of_cur_none hc] at hself
      rw [hnone hc, hself]
    | some p =>
      rw [hsome (by simp [hc]), ha.stack_hart_of_cur hc]
      exact hp.myproc d
  · rw [ha.myproc_of_ne hdc, ha.stack_hart_of_ne hdc]
    exact hp.myproc d

theorem parked_of_acts (hunused : ∀ p, (s.proc p).state = .unused →
      (t.proc p).state = .unused ∨ Parked (t.stack (.proc p)))
    (p : Slot) (hcur : ∀ d, t.cur d ≠ some p) :
    Parked (t.stack (.proc p)) ∨ (t.stack (.proc p) = [] ∧ (t.proc p).state = .unused) := by
  rw [ha.cur] at hcur
  have hne : .proc p ≠ s.thread c := by
    intro heq
    cases hc : s.cur c with
    | none => simp [State.thread_of_cur_none hc] at heq
    | some q =>
      have hpq : p = q := by simpa [State.thread_of_cur_some hc] using heq
      subst hpq
      exact hcur c hc
  rcases ha.other _ hne with h | ⟨i, -, -, h⟩
  · rcases hp.parked p hcur with hpark | ⟨hnil, hst⟩
    · exact .inl (by rwa [h])
    · rcases hunused p hst with hu | hpark
      · exact .inr ⟨by rw [h, hnil], hu⟩
      · exact .inl hpark
  · exact .inl (by rw [h]; exact .inr rfl)

theorem expect_of_acts (hself : ∀ e ∈ expects new, (t.proc e.1).state = e.2)
    (hother : ∀ d e, d ≠ c → expects (s.stack (s.thread d)) = some e →
      (t.proc e.1).state = (s.proc e.1).state)
    (d : Fin n) (e : Slot × ProcState) (he : expects (t.stack (t.thread d)) = some e) :
    (t.proc e.1).state = e.2 := by
  rw [ha.thread_eq] at he
  by_cases hdc : d = c
  · subst hdc
    rw [ha.self] at he
    exact hself e he
  · rw [ha.stack_thread hp hdc] at he
    rw [hother d e hdc he]
    exact hp.expect d e he

theorem on_of_acts
    (hself : ∀ p, t.myproc c = some p → onCpu t c = true → (t.proc p).state = .running)
    (hother : ∀ p, (s.proc p).state = .running → (∃ d, d ≠ c ∧ s.myproc d = some p) →
      (t.proc p).state = .running)
    (d : Fin n) (p : Slot) (hd : t.myproc d = some p) (hon : onCpu t d = true) :
    (t.proc p).state = .running := by
  by_cases hdc : d = c
  · subst hdc
    exact hself p hd hon
  · rw [ha.myproc_of_ne hdc] at hd
    rw [ha.onCpu_of_ne hp hdc] at hon
    exact hother p (hp.on d p hd hon) ⟨d, hdc, hd⟩

theorem off_of_acts (hself : ∀ p, t.myproc c = some p → onCpu t c = false → Off (t.proc p).state)
    (hother : ∀ d p, d ≠ c → s.myproc d = some p → onCpu s d = false → Off (s.proc p).state →
      Off (t.proc p).state)
    (d : Fin n) (p : Slot) (hd : t.myproc d = some p) (hoff : onCpu t d = false) :
    Off (t.proc p).state := by
  by_cases hdc : d = c
  · subst hdc
    exact hself p hd hoff
  · rw [ha.myproc_of_ne hdc] at hd
    rw [ha.onCpu_of_ne hp hdc] at hoff
    exact hother d p hdc hd hoff (hp.off d p hd hoff)

theorem claim_of_acts (hself : ∀ i ∈ claims new, (t.proc i).state = .used)
    (hother : ∀ u i, u ≠ s.thread c → i ∈ claims (s.stack u) → (s.proc i).state = .used →
      (t.proc i).state = .used)
    (u : Thread n) (i : Slot) (hi : i ∈ claims (t.stack u)) : (t.proc i).state = .used := by
  by_cases hu : u = s.thread c
  · subst hu
    rw [ha.self] at hi
    exact hself i hi
  · have hi' := ha.claims_of_ne hu hi
    exact hother u i hu hi' (hp.claim u i hi')

theorem claim_owner_of_acts
    (hself : ∀ u i, u ≠ s.thread c → i ∈ claims new → i ∉ claims (s.stack u))
    (u v : Thread n) (i : Slot) (hu : i ∈ claims (t.stack u)) (hv : i ∈ claims (t.stack v)) :
    u = v := by
  by_cases huc : u = s.thread c <;> by_cases hvc : v = s.thread c
  · rw [huc, hvc]
  · subst huc
    rw [ha.self] at hu
    exact absurd (ha.claims_of_ne hvc hv) (hself v i hvc hu)
  · subst hvc
    rw [ha.self] at hv
    exact absurd (ha.claims_of_ne huc hu) (hself u i huc hv)
  · exact hp.claim_owner u v i (ha.claims_of_ne huc hu) (ha.claims_of_ne hvc hv)

theorem zombie_of_acts (hself : ∀ p, s.cur c = some p → .exit .zombie ∈ new → Dead (t.proc p).state)
    (hother : ∀ p, Dead (s.proc p).state → t.stack (.proc p) ≠ newStack → Dead (t.proc p).state)
    (p : Slot) (hz : .exit .zombie ∈ t.stack (.proc p)) : Dead (t.proc p).state := by
  by_cases hpc : .proc p = s.thread c
  · cases hc : s.cur c with
    | none => simp [State.thread_of_cur_none hc] at hpc
    | some q =>
      have hpq : p = q := by simpa [State.thread_of_cur_some hc] using hpc
      subst hpq
      rw [hpc, ha.self] at hz
      exact hself p hc hz
  · refine hother p (hp.zombie p (ha.zombie_of_ne hpc hz)) ?_
    intro hnew
    simp [hnew, newStack] at hz

theorem running_of_myproc (hmy : t.myproc c = s.myproc c)
    (hback : ∀ p, (t.proc p).state = .running → (s.proc p).state = .running) (p : Slot)
    (hrun : (t.proc p).state = .running) : ∃ d, t.myproc d = some p := by
  rcases hp.running p (hback p hrun) with ⟨d, hd⟩
  refine ⟨d, ?_⟩
  by_cases hdc : d = c
  · subst hdc
    rwa [hmy]
  · rwa [ha.myproc_of_ne hdc]

/-- The classes that keep the shape of the stack and assign no state that `ProcInv` relies on. -/
theorem ProcInv.of_shape (hst : s.stack (s.thread c) = old) (hmy : t.myproc c = s.myproc c)
    (hshape : SameShape old new) (hexp : ∀ e ∈ expects new, (t.proc e.1).state = e.2)
    (hother : ∀ d e, d ≠ c → expects (s.stack (s.thread d)) = some e →
      (t.proc e.1).state = (s.proc e.1).state)
    (hunused : ∀ p, (s.proc p).state = .unused → (t.proc p).state = .unused)
    (hused : ∀ p, (s.proc p).state = .used → (t.proc p).state = .used)
    (hrun : ∀ p, (t.proc p).state = .running ↔ (s.proc p).state = .running)
    (hoff : ∀ d p, s.myproc d = some p → onCpu s d = false → Off (s.proc p).state →
      Off (t.proc p).state)
    (hdead : ∀ p, Dead (s.proc p).state → Dead (t.proc p).state) : ProcInv t := by
  have hon := shape_onCpu ha hst hshape
  constructor
  · exact resting_of_acts hp ha
  · refine myproc_of_acts hp ha (fun hc => ?_) (fun _ => hmy)
    rw [State.thread_of_cur_none hc] at hst
    rw [hmy, hp.myproc c, hst, hshape.target]
  · exact owner_of_subset hp (myproc_subset ha hmy)
  · exact parked_of_acts hp ha fun p hu => .inl (hunused p hu)
  · refine on_of_acts hp ha (fun p hc h => ?_) (fun p h _ => (hrun p).2 h)
    rw [hmy] at hc
    rw [hon] at h
    exact (hrun p).2 (hp.on c p hc h)
  · refine off_of_acts hp ha (fun p hc h => ?_) (fun d p _ hd h => hoff d p hd h)
    rw [hmy] at hc
    rw [hon] at h
    exact hoff c p hc h (hp.off c p hc h)
  · exact running_of_myproc hp ha hmy fun p => (hrun p).1
  · exact expect_of_acts hp ha hexp hother
  · refine claim_of_acts hp ha (fun i hi => ?_) (fun u i _ _ h => hused i h)
    rw [hshape.claims, ← hst] at hi
    exact hused i (hp.claim _ i hi)
  · refine claim_owner_of_acts hp ha (fun u i hu hi hmem => ?_)
    rw [hshape.claims, ← hst] at hi
    exact hu (hp.claim_owner u _ i hmem hi)
  · refine zombie_of_acts hp ha (fun p hc hz => ?_) (fun p hd _ => hdead p hd)
    have hmem := hshape.zombie hz
    rw [← hst, State.thread_of_cur_some hc] at hmem
    exact hdead p (hp.zombie p hmem)

theorem ProcInv.of_dispatch {b : Slot} (hl : LockInv s)
    (hb : (s.proc b).state = .runnable) (hheld : .proc b ∈ heldBy s c) (hcur : s.cur c = none)
    (hsets : SetsState s t b .running) (hmy : t.myproc c = some b)
    (hnew : ∃ r, new = .swtch b :: r ∧ Resting b r) : ProcInv t := by
  rcases hnew with ⟨r, rfl, hr⟩
  have hfree : ∀ d, d ≠ c → s.myproc d ≠ some b := fun d hdc =>
    not_myproc_of_held hl hp hheld (by simp [hb]) hdc
  have hclaims : claims r = [] := by
    rcases hr with ⟨cl, rfl⟩ | rfl <;> rfl
  have howner : ∀ d, t.myproc d = some b → d = c := by
    intro d hd
    by_contra hdc
    rw [ha.myproc_of_ne hdc] at hd
    exact hfree d hdc hd
  constructor
  · exact resting_of_acts hp ha
  · exact myproc_of_acts hp ha (fun _ => hmy) (by simp [hcur])
  · intro d e p hd he
    by_cases hpb : p = b
    · subst hpb
      rw [howner d hd, howner e he]
    · have hdc : d ≠ c := by
        rintro rfl
        exact hpb (by simpa [hmy] using hd.symm)
      have hec : e ≠ c := by
        rintro rfl
        exact hpb (by simpa [hmy] using he.symm)
      rw [ha.myproc_of_ne hdc] at hd
      rw [ha.myproc_of_ne hec] at he
      exact hp.owner d e p hd he
  · exact parked_of_acts hp ha fun p hu => .inl (hsets.keep (by simp [hb]) hu)
  · refine on_of_acts hp ha (fun p hc _ => ?_) (fun p h _ => hsets.keep (by simp [hb]) h)
    have hpb : p = b := by simpa [hmy] using hc.symm
    rw [hpb, hsets.at_slot]
  · refine off_of_acts hp ha (fun p _ hoff => ?_) (fun d p hdc hd _ h => ?_)
    · simp [ha.onCpu_self_none hcur] at hoff
    · have hpb : p ≠ b := by
        rintro rfl
        exact hfree d hdc hd
      rwa [hsets.elsewhere p hpb]
  · intro p hrun
    by_cases hpb : p = b
    · exact ⟨c, by rw [hpb, hmy]⟩
    · rw [hsets.elsewhere p hpb] at hrun
      rcases hp.running p hrun with ⟨d, hd⟩
      have hdc : d ≠ c := by
        rintro rfl
        have hheld' := target_held (by simpa [hcur] using hl.wf_thread d)
          (p := p) (by rw [State.thread_of_cur_none hcur, ← hp.myproc d, hd])
        simp [heldBy, hcur, hheld'] at hheld
        exact hpb hheld.symm
      exact ⟨d, by rw [ha.myproc_of_ne hdc, hd]⟩
  · refine expect_of_acts hp ha (by simp) (fun d e hdc he => ?_)
    exact hsets.elsewhere _ (expect_ne_of_held hl hheld hdc he)
  · exact claim_of_acts hp ha (by simp [hclaims]) (fun u i _ _ h => hsets.keep (by simp [hb]) h)
  · exact claim_owner_of_acts hp ha (by simp [hclaims])
  · refine zombie_of_acts hp ha (by simp [hcur]) (fun p hd _ => ?_)
    rcases hd with h | h
    · exact .inl (hsets.keep (by simp [hb]) h)
    · exact .inr (hsets.keep (by simp [hb]) h)

theorem ProcInv.of_back {b : Slot} (hcur : s.cur c = none) (hold : Resting b (s.stack (.hart c)))
    (hstate : ∀ i, (t.proc i).state = (s.proc i).state) (hmy : t.myproc c = none)
    (hnew : target new = none) (hclaims : claims new = []) (hexp : expects new = none) :
    ProcInv t := by
  have hb : s.myproc c = some b := by rw [hp.myproc c, hold.target_eq]
  have hoff : Off (s.proc b).state := by
    refine hp.off c b hb ?_
    simp only [onCpu, hcur, hold.entering_eq]
  have hsub : ∀ d p, t.myproc d = some p → s.myproc d = some p := by
    intro d p hd
    by_cases hdc : d = c
    · subst hdc
      simp [hmy] at hd
    · rwa [← ha.myproc_of_ne hdc]
  constructor
  · exact resting_of_acts hp ha
  · exact myproc_of_acts hp ha (fun _ => by rw [hmy, hnew]) (by simp [hcur])
  · exact owner_of_subset hp hsub
  · exact parked_of_acts hp ha fun p hu => .inl (by rwa [hstate])
  · exact on_of_acts hp ha (by simp [hmy]) (fun p h _ => by rwa [hstate])
  · exact off_of_acts hp ha (by simp [hmy]) (fun d p _ _ _ h => by rwa [hstate])
  · intro p hrun
    rw [hstate] at hrun
    rcases hp.running p hrun with ⟨d, hd⟩
    have hdc : d ≠ c := by
      rintro rfl
      have hpb : b = p := by simpa [hb] using hd
      subst hpb
      simp [Off, hrun] at hoff
    exact ⟨d, by rw [ha.myproc_of_ne hdc, hd]⟩
  · exact expect_of_acts hp ha (by simp [hexp]) (fun d e _ _ => hstate _)
  · exact claim_of_acts hp ha (by simp [hclaims]) (fun u i _ _ h => by rwa [hstate])
  · exact claim_owner_of_acts hp ha (by simp [hclaims])
  · exact zombie_of_acts hp ha (by simp [hcur]) (fun p hd _ => by rwa [hstate])

theorem ProcInv.of_leave {p : Slot} {v : ProcState}
    (hst : s.stack (s.thread c) = old) (hcur : s.cur c = some p) (hold : leaving old = false)
    (hv : Off v) (hsets : SetsState s t p v) (hmy : t.myproc c = s.myproc c)
    (hnew : leaving new = true) (hclaims : claims new = claims old)
    (hzombie : .exit .zombie ∈ new → .exit .zombie ∈ old ∨ v = .zombie)
    (hexp : expects new = none) : ProcInv t := by
  have hstack : s.stack (.proc p) = old := by
    rw [← hst, State.thread_of_cur_some hcur]
  have hrun : (s.proc p).state = .running := by
    refine hp.running_cur hcur ?_
    rw [hstack, hold]
  have hmine := hp.myproc_of_cur hcur
  have hother : ∀ d q, d ≠ c → s.myproc d = some q → q ≠ p := by
    rintro d q hdc hd rfl
    exact hdc (hp.owner d c q hd hmine)
  constructor
  · exact resting_of_acts hp ha
  · exact myproc_of_acts hp ha (by simp [hcur]) (fun _ => hmy)
  · exact owner_of_subset hp (myproc_subset ha hmy)
  · exact parked_of_acts hp ha fun q hu => .inl (hsets.keep (by simp [hrun]) hu)
  · refine on_of_acts hp ha (fun q _ hon => ?_) (fun q h hd => ?_)
    · simp [ha.onCpu_self_some hcur, hnew] at hon
    · rcases hd with ⟨d, hdc, hd⟩
      rwa [hsets.elsewhere q (hother d q hdc hd)]
  · refine off_of_acts hp ha (fun q hc _ => ?_) (fun d q hdc hd _ h => ?_)
    · have hqp : q = p := by simpa [hmy, hmine] using hc.symm
      rwa [hqp, hsets.at_slot]
    · rwa [hsets.elsewhere q (hother d q hdc hd)]
  · refine running_of_myproc hp ha hmy fun q hq => hsets.back ?_ hq
    rcases hv with rfl | rfl | rfl <;> simp
  · refine expect_of_acts hp ha (by simp [hexp]) (fun d e _ he => hsets.elsewhere _ ?_)
    rintro rfl
    have hstate := hp.expect d e he
    rcases expects_state he with h | h <;> simp [hrun, h] at hstate
  · refine claim_of_acts hp ha (fun i hi => ?_) (fun u i _ _ h => hsets.keep (by simp [hrun]) h)
    rw [hclaims, ← hst] at hi
    exact hsets.keep (by simp [hrun]) (hp.claim _ i hi)
  · refine claim_owner_of_acts hp ha (fun u i hu hi hmem => ?_)
    rw [hclaims, ← hst] at hi
    exact hu (hp.claim_owner u _ i hmem hi)
  · refine zombie_of_acts hp ha (fun q hc hz => ?_) (fun q hd _ => ?_)
    · have hqp : p = q := by simpa [hcur] using hc
      subst hqp
      rcases hzombie hz with hmem | rfl
      · rw [← hstack] at hmem
        have hdead := hp.zombie p hmem
        simp [Dead, hrun] at hdead
      · exact .inl hsets.at_slot
    · rcases hd with h | h
      · exact .inl (hsets.keep (by simp [hrun]) h)
      · exact .inr (hsets.keep (by simp [hrun]) h)

theorem ProcInv.of_alloc {i : Slot} (hl : LockInv s)
    (hst : s.stack (s.thread c) = old) (hi : (s.proc i).state = .unused)
    (hheld : .proc i ∈ heldBy s c) (hsets : SetsState s t i .used)
    (hmy : t.myproc c = s.myproc c) (hctx : t.stack (.proc i) = newStack)
    (hleave : leaving new = leaving old) (hcur : (s.cur c).isSome)
    (hclaims : ∀ j ∈ claims new, j = i ∨ j ∈ claims old)
    (hzombie : .exit .zombie ∈ new → .exit .zombie ∈ old) (hexp : expects new = none) :
    ProcInv t := by
  rcases Option.isSome_iff_exists.1 hcur with ⟨p, hcur⟩
  have hstack : s.stack (.proc p) = old := by
    rw [← hst, State.thread_of_cur_some hcur]
  have hon : onCpu t c = onCpu s c := by
    rw [ha.onCpu_self_some hcur]
    simp only [onCpu, hcur, hstack, hleave]
  have hunclaimed : ∀ u, i ∉ claims (s.stack u) := by
    intro u hmem
    have hused := hp.claim u i hmem
    simp [hi] at hused
  have hother : ∀ d q, s.myproc d = some q → q ≠ i := by
    rintro d q hd rfl
    exact hp.myproc_ne (.inl hi) hd
  constructor
  · exact resting_of_acts hp ha
  · exact myproc_of_acts hp ha (by simp [hcur]) (fun _ => hmy)
  · exact owner_of_subset hp (myproc_subset ha hmy)
  · refine parked_of_acts hp ha fun q hu => ?_
    by_cases hqi : q = i
    · subst hqi
      exact .inr (by rw [hctx]; exact .inr rfl)
    · exact .inl (by rwa [hsets.elsewhere q hqi])
  · refine on_of_acts hp ha (fun q hc h => ?_) (fun q h _ => hsets.keep (by simp [hi]) h)
    rw [hmy] at hc
    rw [hon] at h
    exact hsets.keep (by simp [hi]) (hp.on c q hc h)
  · refine off_of_acts hp ha (fun q hc h => ?_) (fun d q _ hd _ h => ?_)
    · rw [hmy] at hc
      rw [hon] at h
      rw [hsets.elsewhere q (hother c q hc)]
      exact hp.off c q hc h
    · rwa [hsets.elsewhere q (hother d q hd)]
  · exact running_of_myproc hp ha hmy fun q hq => hsets.back (by simp) hq
  · refine expect_of_acts hp ha (by simp [hexp]) (fun d e hdc he => ?_)
    exact hsets.elsewhere _ (expect_ne_of_held hl hheld hdc he)
  · refine claim_of_acts hp ha (fun j hj => ?_) (fun u j _ _ h => hsets.keep (by simp [hi]) h)
    rcases hclaims j hj with rfl | hj
    · exact hsets.at_slot
    · rw [← hst] at hj
      exact hsets.keep (by simp [hi]) (hp.claim _ j hj)
  · refine claim_owner_of_acts hp ha (fun u j hu hj hmem => ?_)
    rcases hclaims j hj with rfl | hj
    · exact hunclaimed u hmem
    · rw [← hst] at hj
      exact hu (hp.claim_owner u _ j hmem hj)
  · refine zombie_of_acts hp ha (fun q hc hz => ?_) (fun q hd hne => ?_)
    · have hpq : p = q := by simpa [hcur] using hc
      subst hpq
      have hmem := hzombie hz
      rw [← hstack] at hmem
      have hpi : p ≠ i := hother c p (hp.myproc_of_cur hcur)
      rw [hsets.elsewhere p hpi]
      exact hp.zombie p hmem
    · have hqi : q ≠ i := by
        rintro rfl
        exact hne hctx
      rwa [hsets.elsewhere q hqi]

theorem ProcInv.of_start {i : Slot}
    (hst : s.stack (s.thread c) = old) (hold : claims old = i :: claims new)
    (hclaims : claims new = []) (hsets : SetsState s t i .runnable)
    (hmy : t.myproc c = s.myproc c) (hcur : (s.cur c).isSome) (hleave : leaving new = leaving old)
    (hzombie : .exit .zombie ∈ new → .exit .zombie ∈ old) (hexp : expects new = none) :
    ProcInv t := by
  rcases Option.isSome_iff_exists.1 hcur with ⟨p, hcur⟩
  have hmine : i ∈ claims (s.stack (s.thread c)) := by simp [hst, hold]
  have hi := hp.claim _ i hmine
  have hstack : s.stack (.proc p) = old := by
    rw [← hst, State.thread_of_cur_some hcur]
  have hon : onCpu t c = onCpu s c := by
    rw [ha.onCpu_self_some hcur]
    simp only [onCpu, hcur, hstack, hleave]
  have hother : ∀ d q, s.myproc d = some q → q ≠ i := by
    rintro d q hd rfl
    exact hp.myproc_ne (.inr hi) hd
  have hdead : ∀ q, Dead (s.proc q).state → Dead (t.proc q).state := by
    rintro q (h | h)
    · exact .inl (hsets.keep (by simp [hi]) h)
    · exact .inr (hsets.keep (by simp [hi]) h)
  constructor
  · exact resting_of_acts hp ha
  · exact myproc_of_acts hp ha (by simp [hcur]) (fun _ => hmy)
  · exact owner_of_subset hp (myproc_subset ha hmy)
  · exact parked_of_acts hp ha fun q hu => .inl (hsets.keep (by simp [hi]) hu)
  · refine on_of_acts hp ha (fun q hc h => ?_) (fun q h _ => hsets.keep (by simp [hi]) h)
    rw [hmy] at hc
    rw [hon] at h
    exact hsets.keep (by simp [hi]) (hp.on c q hc h)
  · refine off_of_acts hp ha (fun q hc h => ?_) (fun d q _ hd _ h => ?_)
    · rw [hmy] at hc
      rw [hon] at h
      rw [hsets.elsewhere q (hother c q hc)]
      exact hp.off c q hc h
    · rwa [hsets.elsewhere q (hother d q hd)]
  · exact running_of_myproc hp ha hmy fun q hq => hsets.back (by simp) hq
  · refine expect_of_acts hp ha (by simp [hexp]) (fun d e _ he => hsets.elsewhere _ ?_)
    rintro rfl
    have hstate := hp.expect d e he
    rcases expects_state he with h | h <;> simp [hi, h] at hstate
  · refine claim_of_acts hp ha (by simp [hclaims]) (fun u j hu hj h => ?_)
    have hji : j ≠ i := by
      rintro rfl
      exact hu (hp.claim_owner u _ j hj hmine)
    rwa [hsets.elsewhere j hji]
  · exact claim_owner_of_acts hp ha (by simp [hclaims])
  · refine zombie_of_acts hp ha (fun q hc hz => ?_) (fun q hd _ => hdead q hd)
    have hpq : p = q := by simpa [hcur] using hc
    subst hpq
    have hmem := hzombie hz
    rw [← hstack] at hmem
    exact hdead p (hp.zombie p hmem)

theorem ProcInv.of_wake {i : Slot}
    (hst : s.stack (s.thread c) = old) (hi : (s.proc i).state = .sleeping)
    (hsets : SetsState s t i .runnable) (hmy : t.myproc c = s.myproc c)
    (hshape : SameShape old new) (hexp : expects new = none) : ProcInv t := by
  refine hp.of_shape ha hst hmy hshape (by simp [hexp]) (fun d e _ he => hsets.elsewhere _ ?_)
    (fun p h => hsets.keep (by simp [hi]) h) (fun p h => hsets.keep (by simp [hi]) h)
    (fun p => ⟨hsets.back (by simp), hsets.keep (by simp [hi])⟩) (fun d p _ _ h => ?_)
    (fun p h => ?_)
  · rintro rfl
    have hstate := hp.expect d e he
    rcases expects_state he with h | h <;> simp [hi, h] at hstate
  · by_cases hpi : p = i
    · subst hpi
      exact .inl hsets.at_slot
    · rwa [hsets.elsewhere p hpi]
  · rcases h with h | h
    · exact .inl (hsets.keep (by simp [hi]) h)
    · exact .inr (hsets.keep (by simp [hi]) h)

theorem ProcInv.of_free {i : Slot} (hl : LockInv s)
    (hst : s.stack (s.thread c) = old) (hi : Dead (s.proc i).state)
    (hheld : .proc i ∈ heldBy s c) (hcur : (s.cur c).isSome) (hleave : leaving old = false)
    (hsets : SetsState s t i .unused) (hmy : t.myproc c = s.myproc c)
    (hshape : SameShape old new) (hexp : expects new = none) : ProcInv t := by
  rcases Option.isSome_iff_exists.1 hcur with ⟨p, hcur⟩
  have hrun : (s.proc i).state ≠ .running := by
    rcases hi with h | h <;> simp [h]
  have hused : (s.proc i).state ≠ .used := by
    rcases hi with h | h <;> simp [h]
  have hon : onCpu s c = true := by
    rw [State.thread_of_cur_some hcur] at hst
    simp [onCpu, hcur, hst, hleave]
  have hunused : ∀ q, (s.proc q).state = .unused → (t.proc q).state = .unused := by
    intro q h
    by_cases hqi : q = i
    · rw [hqi, hsets.at_slot]
    · rwa [hsets.elsewhere q hqi]
  refine hp.of_shape ha hst hmy hshape (by simp [hexp])
    (fun d e hdc he => hsets.elsewhere _ (expect_ne_of_held hl hheld hdc he)) hunused
    (fun q h => hsets.keep hused h) (fun q => ⟨hsets.back (by simp), hsets.keep hrun⟩)
    (fun d q hd hoff h => ?_) (fun q h => ?_)
  · have hqi : q ≠ i := by
      rintro rfl
      by_cases hdc : d = c
      · subst hdc
        simp [hon] at hoff
      · exact not_myproc_of_held hl hp hheld hrun hdc hd
    rwa [hsets.elsewhere q hqi]
  · by_cases hqi : q = i
    · exact .inr (by rw [hqi, hsets.at_slot])
    · rwa [hsets.elsewhere q hqi]

/-- Every class of steps keeps `ProcInv`. -/
theorem ProcInv.of_effect (hl : LockInv s)
    (hst : s.stack (s.thread c) = old) (he : Effect s t c old new) : ProcInv t := by
  cases he with
  | quiet hstate hmy hshape hexp =>
    refine hp.of_shape ha hst hmy hshape (fun e h => ?_) (fun d e _ _ => hstate _)
      (fun p h => ?_) (fun p h => ?_) (fun p => ?_) (fun d p _ _ h => ?_) (fun p h => ?_)
    · rw [hstate]
      exact hexp e h
    · rwa [hstate]
    · rwa [hstate]
    · rw [hstate]
    · rwa [hstate]
    · rwa [hstate]
  | dispatch b hb hheld hcur _ hsets hmy hnew =>
    exact hp.of_dispatch ha hl hb hheld hcur hsets hmy hnew
  | back b hcur hold hstate hmy hnew hclaims hexp =>
    rw [← hst, State.thread_of_cur_none hcur] at hold
    exact hp.of_back ha hcur hold hstate hmy hnew hclaims hexp
  | leave p v hcur hold hv hsets hmy hnew hclaims hzombie hexp =>
    exact hp.of_leave ha hst hcur hold hv hsets hmy hnew hclaims hzombie hexp
  | wake i hi hsets hmy hshape hexp =>
    exact hp.of_wake ha hst hi hsets hmy hshape hexp
  | alloc i hi hheld hsets hmy hctx hleave hcur hclaims hzombie hexp =>
    exact hp.of_alloc ha hl hst hi hheld hsets hmy hctx hleave hcur hclaims hzombie hexp
  | start i hold hclaims hsets hmy hcur hleave hzombie hexp =>
    exact hp.of_start ha hst hold hclaims hsets hmy hcur hleave hzombie hexp
  | free i hi hheld hcur hleave hsets hmy hshape hexp =>
    exact hp.of_free ha hl hst hi hheld hcur hleave hsets hmy hshape hexp

end Effects

end Xv6Schedulers.Locking
