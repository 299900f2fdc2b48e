import Xv6Schedulers.Virtio.Steps

/-!
# Disk — the driver and its device under every interleaving

* `inv_step`: the invariant survives every step of a thread and of the device.
* `disk_requests`: descriptors are free or in one chain, requests complete and are freed once.
-/

namespace Xv6Schedulers.Virtio

open Lib State Machine Function

variable {T B : Type} [DecidableEq T] [DecidableEq B] {s s' s₁ : State T B} {t : T} {k k' : Place B}
  {r : Req B} {n : Nat}

/-! ## The lock -/

omit [DecidableEq B] in
@[simp] theorem setPc_self (s : State T B) (t : T) (pc : Pc B) : (s.setPc t pc).pc t = pc := by
  simp only [State.setPc, update_self]

omit [DecidableEq B] in
theorem setPc_of_ne {u : T} (hu : u ≠ t) (s : State T B) (pc : Pc B) :
    (s.setPc t pc).pc u = s.pc u := by
  simp only [State.setPc, update_of_ne hu]

omit [DecidableEq B] in
theorem place_setPc (s : State T B) (t : T) (pc : Pc B) :
    (s.setPc t pc).place = update s.place t (pc.map Prod.snd) := by
  funext u
  by_cases hu : u = t
  · subst hu
    rw [State.place, setPc_self, update_self]
  · rw [State.place, setPc_of_ne hu, update_of_ne hu]
    rfl

omit [DecidableEq T] [DecidableEq B] in
theorem place_eq {m : Mode B} (hpc : s.pc t = some (m, k)) : s.place t = some k := by
  rw [State.place, hpc]
  rfl

omit [DecidableEq T] [DecidableEq B] in
theorem Inv.solo (h : Inv s) (ht : s.pc t = some (.hold, k)) :
    ∀ t' k', s.place t' = some k' → k'.rests = false → t' = t := by
  intro t' k' hpl hrests
  rcases Option.map_eq_some_iff.1 hpl with ⟨⟨m, q⟩, hpc, rfl⟩
  rcases h.rests hpc with rfl | htrue
  · exact h.lock.unique ⟨_, hpc⟩ ⟨k, ht⟩
  · rw [hrests] at htrue
    cases htrue

omit [DecidableEq T] [DecidableEq B] in
theorem Woken.rests (hw : Woken s s₁)
    (h : ∀ {t m k}, s.pc t = some (m, k) → m = .hold ∨ k.rests = true) {m : Mode B}
    (hpc : s₁.pc t = some (m, k)) : m = .hold ∨ k.rests = true := by
  rcases hw t with heq | ⟨c, q, hdoze, hspin⟩
  · exact h (heq ▸ hpc)
  · rw [hspin] at hpc
    cases hpc
    rcases h hdoze with hhold | hrests
    · cases hhold
    · exact Or.inr hrests

omit [DecidableEq B] in
theorem Inv.setPc (h : Inv s) (hw : Woken s s₁) (hstop : s₁.stopped = s.stopped) {pc : Pc B}
    (hlock : (s₁.lock = s.lock ∧ ((∃ k, pc = some (.hold, k)) ↔ ∃ k, s.pc t = some (.hold, k))) ∨
      (s.lock = none ∧ s₁.lock = some t ∧ ∃ k, pc = some (.hold, k)) ∨
      ((∃ k, s.pc t = some (.hold, k)) ∧ s₁.lock = none ∧ ¬∃ k, pc = some (.hold, k)))
    (hrests : ∀ m k, pc = some (m, k) → m = .hold ∨ k.rests = true)
    (hcore : Core s₁ (update s.place t (pc.map Prod.snd))) : Inv (s₁.setPc t pc) where
  lock := by
    have hself : (∃ k, (s₁.setPc t pc).pc t = some (.hold, k)) ↔ ∃ k, pc = some (.hold, k) := by
      rw [setPc_self]
    refine h.lock.step (p := t) (fun u hu => ?_) ?_
    · rw [setPc_of_ne hu]
      exact exists_congr fun k => hw.hold_iff u k
    · rw [hself]
      exact hlock
  rests {u m k} hpc := by
    by_cases hu : u = t
    · subst hu
      rw [setPc_self] at hpc
      exact hrests m k hpc
    · rw [setPc_of_ne hu] at hpc
      exact hw.rests h.rests hpc
  core := by
    have hplace : s₁.place = s.place := funext hw.place
    rw [place_setPc, hplace]
    exact hcore.frame s₁.lock _ s₁.blockno s₁.stopped
  stopped := by
    show s₁.stopped = none
    rw [hstop]
    exact h.stopped

omit [DecidableEq B] in
theorem Inv.goOn (h : Inv s) (hpc : s.pc t = some (.hold, k)) (hw : Woken s s₁)
    (hlock : s₁.lock = s.lock) (hstop : s₁.stopped = s.stopped)
    (hcore : Core s₁ (update s.place t (some k'))) :
    Inv (s₁.setPc t (some (.hold, k'))) := by
  refine h.setPc hw hstop (Or.inl ⟨hlock, iff_of_true ⟨k', rfl⟩ ⟨k, hpc⟩⟩) ?_ hcore
  rintro m q ⟨⟩
  exact Or.inl rfl

omit [DecidableEq B] in
theorem Inv.sleep (h : Inv s) (hpc : s.pc t = some (.hold, k)) (hw : Woken s s₁)
    (hstop : s₁.stopped = s.stopped) (hrests : k.rests = true) (hcore : Core s₁ s.place)
    (c : Chan B) : Inv (s₁.sleep t c k) := by
  have hsame : update s.place t (some k) = s.place := by
    rw [← place_eq hpc]
    exact update_eq_self t s.place
  refine h.setPc (show Woken s { s₁ with lock := none } from hw) hstop (Or.inr (Or.inr ⟨⟨k, hpc⟩, rfl, ?_⟩)) ?_ ?_
  · rintro ⟨q, hq⟩
    cases hq
  · rintro m q ⟨⟩
    exact Or.inr hrests
  · rw [Option.map_some, hsame]
    exact hcore.frame none _ s₁.blockno s₁.stopped

/-! ## Steps -/

/-- The thread that holds the lock runs on. -/
theorem run_inv (h : Inv s) (hpc : s.pc t = some (.hold, k)) : Inv (s.run t k) := by
  have hpl := place_eq hpc
  have hown : ∀ a, k.io = some a → s.owner a.buf = some t := fun a ha => by
    refine h.core.owners t a ?_
    rw [Places.io, hpl]
    exact ha
  cases k with
  | alloc io =>
    rcases alloc3Desc_spec s with ⟨c, s₁, hok, ht⟩ | ⟨s₁, hok, hr⟩
    · simp only [State.run, hok]
      have hcore := h.core.alloc hpl ht
      have hstate := ht.state
      subst hstate
      exact h.goOn hpc (fun _ => Or.inl rfl) rfl rfl hcore
    · have hstop : s₁.stopped = s.stopped := Eq.trans (congrArg State.stopped hr.rest) rfl
      simp only [State.run, hok]
      exact h.sleep hpc hr.woken hstop rfl (h.core.restored hr) _
  | format r =>
    exact h.goOn hpc (fun _ => Or.inl rfl) rfl rfl (h.core.format hpl (h.solo hpc))
  | publish r =>
    exact h.goOn hpc (fun _ => Or.inl rfl) rfl rfl (h.core.publish hpl (h.solo hpc))
  | wait r n =>
    have hstage : s.disk r.buf = true ↔ n ∉ s.acks := h.core.stage hpl
    by_cases hdisk : s.disk r.buf = true
    · simp only [State.run, hdisk, if_true]
      exact h.sleep hpc (Woken.refl s) rfl rfl h.core _
    · have hack : n ∈ s.acks := not_not.1 fun hnot => hdisk (hstage.2 hnot)
      simp only [State.run, hdisk]
      refine h.goOn hpc (Woken.refl s) rfl rfl (h.core.move hown ?_ ?_ ?_ ?_)
      · rw [Places.req, hpl]
        rfl
      · rw [Places.formed, hpl]
        rfl
      · rw [Places.flight, hpl]
        rfl
      · rintro q ⟨⟩
        exact hack
  | finish r n =>
    rcases h.core.finish hpl with ⟨s₁, hok, hfin, hcore⟩
    have hrun : s.run t (.finish r n) = s₁.setPc t (some (.hold, .leave)) := by
      simp only [State.run, hok, Except.map, State.orStop]
    rw [hrun]
    exact h.goOn hpc hfin.woken hfin.lock hfin.stopped hcore
  | leave =>
    refine h.setPc (show Woken s { s with lock := none } from Woken.refl s) rfl
      (Or.inr (Or.inr ⟨⟨_, hpc⟩, rfl, ?_⟩)) ?_ ?_
    · rintro ⟨q, hq⟩
      cases hq
    · rintro m q ⟨⟩
    · refine Core.frame (h.core.move (t := t) (k := none) ?_ ?_ ?_ ?_ ?_) none _ s.blockno s.stopped
      · intro a ha
        cases ha
      · rw [Places.req, hpl]
        rfl
      · rw [Places.formed, hpl]
        rfl
      · rw [Places.flight, hpl]
        rfl
      · intro q hq
        cases hq
  | handle =>
    by_cases hne : s.usedIdx ≠ s.deviceIdx
    · rcases h.core.handle hne with ⟨u, r, n, s₁, -, hok, hack, hcore⟩
      have hrun : s.run t .handle = s₁ := by
        simp only [State.run, if_pos hne, hok, State.orStop]
      rw [hrun]
      have hplace : s₁.place = s.place := funext hack.woken.place
      refine ⟨?_, fun hq => hack.woken.rests h.rests hq, by rw [hplace]; exact hcore, ?_⟩
      · intro u
        rw [hack.lock, h.lock u]
        exact exists_congr fun q => (hack.woken.hold_iff u q).symm
      · rw [hack.stopped]
        exact h.stopped
    · simp only [State.run, if_neg hne]
      refine h.goOn hpc (Woken.refl s) rfl rfl (h.core.move hown ?_ ?_ ?_ ?_)
      · rw [Places.req, hpl]
        rfl
      · rw [Places.formed, hpl]
        rfl
      · rw [Places.flight, hpl]
        rfl
      · rintro q ⟨⟩
        exact trivial

/-- What a step of the machine is. -/
inductive Move (s : State T B) : State T B → Prop
  | run {t : T} {k : Place B} (hpc : s.pc t = some (.hold, k)) : Move s (s.run t k)
  | acquire {t : T} {k : Place B} (hpc : s.pc t = some (.spin, k)) (hfree : s.lock = none) :
      Move s ({ s with lock := some t }.setPc t (some (.hold, k)))
  | wake {t : T} {c : Chan B} {k : Place B} (hpc : s.pc t = some (.doze c, k)) :
      Move s (s.setPc t (some (.spin, k)))
  | call {t : T} {b : B} {io : Io B} (hpc : s.pc t = none) (hown : s.owner io.buf = some t) :
      Move s (s.setPc t (some (.spin, .alloc io)))
  | intr {t : T} (hpc : s.pc t = none) : Move s (s.setPc t (some (.spin, .handle)))
  | lockBuf {t : T} {b : B} {no : UInt32} (hfree : s.owner b = none) : Move s { s with
        owner := update s.owner b (some t), blockno := update s.blockno b no }
  | unlockBuf {t : T} {b : B} (hpc : s.pc t = none) (hown : s.owner b = some t) :
      Move s { s with owner := update s.owner b none }
  | fetch (hne : UInt16.ofNat s.fetched ≠ s.availIdx) : Move s s.fetch
  | complete {j : Job B} (hj : j ∈ s.jobs) : Move s (s.complete j)

theorem step_move {a : Act T B} (h : s.step a = some s') : Move s s' := by
  cases a with
  | lockBuf t b no =>
    simp only [State.step, Option.ite_none_right_eq_some, Option.some.injEq] at h
    exact h.2 ▸ .lockBuf h.1.2
  | unlockBuf t b =>
    simp only [State.step, Option.ite_none_right_eq_some, Option.some.injEq] at h
    exact h.2 ▸ .unlockBuf h.1.1 h.1.2
  | rw t b write =>
    simp only [State.step, Option.ite_none_right_eq_some, Option.some.injEq] at h
    exact h.2 ▸ .call (b := b) h.1.1 h.1.2
  | intr t =>
    simp only [State.step, Option.ite_none_right_eq_some, Option.some.injEq] at h
    exact h.2 ▸ .intr h.1
  | run t =>
    simp only [State.step] at h
    split at h
    · rename_i k hpc
      rw [Option.ite_none_right_eq_some, Option.some.injEq] at h
      exact h.2 ▸ .acquire hpc h.1
    · rename_i k hpc
      rw [Option.ite_none_right_eq_some, Option.some.injEq] at h
      exact h.2 ▸ .run hpc
    · cases h
  | kill t =>
    simp only [State.step] at h
    split at h
    · rename_i c k hpc
      exact Option.some.inj h ▸ .wake hpc
    · cases h
  | fetch =>
    simp only [State.step, Option.ite_none_right_eq_some, Option.some.injEq] at h
    exact h.2 ▸ .fetch h.1
  | complete j =>
    simp only [State.step, Option.ite_none_right_eq_some, Option.some.injEq] at h
    exact h.2 ▸ .complete h.1

omit [DecidableEq B] in
theorem Inv.idleStep (h : Inv s) {m : Mode B} (hpc : ¬∃ k, s.pc t = some (.hold, k)) (hm : m ≠ .hold)
    (hrests : k.rests = true) (hcore : Core s (update s.place t (some k))) :
    Inv (s.setPc t (some (m, k))) := by
  refine h.setPc (Woken.refl s) rfl (Or.inl ⟨rfl, iff_of_false ?_ hpc⟩) ?_ hcore
  · rintro ⟨q, hq⟩
    cases hq
    exact hm rfl
  · rintro m' q ⟨⟩
    exact Or.inr hrests

omit [DecidableEq T] [DecidableEq B] in
theorem not_hold_of_none (hpc : s.pc t = none) : ¬∃ k, s.pc t = some (.hold, k) := by
  rintro ⟨q, hq⟩
  rw [hpc] at hq
  cases hq

omit [DecidableEq B] in
theorem Inv.enter (h : Inv s) (hpc : s.pc t = none)
    (hio : ∀ a, k.io = some a → s.owner a.buf = some t) (hk : k.rests = true)
    (hreq : k.req = none) (hstage : Stage s k) : Inv (s.setPc t (some (.spin, k))) := by
  have hpl : s.place t = none := by
    rw [State.place, hpc]
    rfl
  have hformed : k.formed = none := by
    cases k <;> first | rfl | cases hreq
  have hflight : k.flight = none := by
    cases k <;> first | rfl | cases hreq
  refine h.idleStep (not_hold_of_none hpc) (fun hm => by cases hm) hk (h.core.move hio ?_ ?_ ?_ ?_)
  · rw [Places.req, hpl]
    exact hreq
  · rw [Places.formed, hpl]
    exact hformed
  · rw [Places.flight, hpl]
    exact hflight
  · rintro q ⟨⟩
    exact hstage

omit [DecidableEq T] [DecidableEq B] in
theorem Inv.setOwner (h : Inv s) {owner : B → Option T} {blockno : B → UInt32}
    (howner : Owners owner (Places.io s.place)) : Inv { s with owner := owner, blockno := blockno } where
  lock := h.lock
  rests := h.rests
  core := by
    have hcore : Core { s with owner := owner } s.place :=
      ⟨howner, h.core.chains, { h.core.formed with }, { h.core.account with }, fun {u k} hk => by
          have hstage := h.core.stage hk
          cases k <;> exact hstage,
        { h.core.rings with }⟩
    exact hcore.frame s.lock s.pc blockno s.stopped
  stopped := h.stopped

theorem inv_step {a : Act T B} (h : Inv s) (hstep : s.step a = some s') : Inv s' := by
  have hsame : ∀ {t m k}, s.pc t = some (m, k) → update s.place t (some k) = s.place := by
    intro t m k hpc
    rw [← place_eq hpc]
    exact update_eq_self t s.place
  cases step_move hstep with
  | run hpc => exact run_inv h hpc
  | @acquire t k hpc hfree =>
    refine h.setPc (show Woken s { s with lock := some t } from Woken.refl s) rfl
      (Or.inr (Or.inl ⟨hfree, rfl, k, rfl⟩)) ?_ ?_
    · rintro m q ⟨⟩
      exact Or.inl rfl
    · rw [Option.map_some, hsame hpc]
      exact h.core.frame (some t) _ s.blockno s.stopped
  | wake hpc =>
    refine h.idleStep ?_ (fun hm => nomatch hm) ?_ ?_
    · rintro ⟨q, hq⟩
      rw [hpc] at hq
      cases hq
    · rcases h.rests hpc with hhold | hrests
      · cases hhold
      · exact hrests
    · rw [hsame hpc]
      exact h.core
  | call hpc hown =>
    refine h.enter hpc ?_ rfl rfl trivial
    rintro a ⟨⟩
    exact hown
  | intr hpc =>
    refine h.enter hpc ?_ rfl rfl trivial
    rintro a ⟨⟩
  | @lockBuf t b no hfree =>
    refine h.setOwner fun u a ha => ?_
    have hold := h.core.owners u a ha
    rw [update_of_ne _, hold]
    rintro heq
    rw [heq, hfree] at hold
    cases hold
  | @unlockBuf t b hpc hown =>
    refine h.setOwner fun u a ha => ?_
    have hold := h.core.owners u a ha
    rw [update_of_ne _, hold]
    rintro heq
    -- the owner is in no call
    rw [heq, hown] at hold
    cases hold
    rw [Places.io, State.place, hpc] at ha
    cases ha
  | fetch hne => exact ⟨h.lock, h.rests, (h.core.fetch hne).1, h.stopped⟩
  | complete hj => exact ⟨h.lock, h.rests, h.core.complete hj, h.stopped⟩

omit [DecidableEq T] [DecidableEq B] in
theorem inv_boot (blockno : B → UInt32) : Inv (boot blockno : State T B) := by
  refine ⟨fun t => iff_of_false nofun (not_hold_of_none rfl), nofun,
    ⟨nofun, ?_, ⟨nofun, nofun⟩, ?_, nofun, ?_⟩, rfl⟩
  · refine ⟨nofun, nofun, fun _ => iff_of_false nofun ?_⟩
    rintro ⟨t, r, h, -⟩
    cases h
  · exact ⟨nofun, nofun, fun h => absurd h (Nat.not_lt_zero _), List.Perm.refl _, Nat.le_refl _,
      nofun, Nat.le_refl _, List.nodup_nil, nofun⟩
  · exact ⟨rfl, nofun, rfl, rfl, nofun⟩

/-! ## What a step does to buffers and descriptors -/

/-- Thread `t` waits for request `n`. -/
def InFlight (s : State T B) (t : T) (r : Req B) (n : Nat) : Prop := s.place t = some (.wait r n)

/-- The descriptors are the free ones and the chains of the requests in flight. -/
structure Partitioned (s : State T B) : Prop where
  chain : ∀ {t r n}, InFlight s t r n →
    r.idx.Ok ∧ Linked s.desc s.ops r ∧ (s.info r.idx.i0).b = some r.buf
  apart : ∀ {t t' r r' n n' i}, InFlight s t r n → InFlight s t' r' n' → i ∈ r.idx.toList →
    i ∈ r'.idx.toList → t = t'
  free : ∀ {i}, i < NUM → (s.free i = true ↔ ∀ t r n, InFlight s t r n → i ∉ r.idx.toList)

omit [DecidableEq T] [DecidableEq B] in
theorem Inv.partitioned (h : Inv s) (hlock : s.lock = none) : Partitioned s := by
  -- with the lock free, every thread with descriptors waits
  have hwait : ∀ {t r}, Places.req s.place t = some r → ∃ n, InFlight s t r n := by
    intro t r hreq
    rcases Option.bind_eq_some_iff.1 hreq with ⟨k, hpl, hk⟩
    rcases Option.map_eq_some_iff.1 hpl with ⟨⟨m, q⟩, hpc, rfl⟩
    rcases h.rests hpc with rfl | hrests
    · exact absurd ⟨_, hpc⟩ (h.lock.free hlock t)
    · cases q with
      | wait r' n =>
        cases hk
        exact ⟨n, hpl⟩
      | format r' => cases hrests
      | publish r' => cases hrests
      | finish r' n => cases hrests
      | _ => cases hk
  have hflight : ∀ {t r n}, InFlight s t r n → Places.flight s.place t = some (r, n) := by
    intro t r n hf
    rw [Places.flight, show s.place t = _ from hf]
    rfl
  refine ⟨fun hf => ?_, fun hf hf' hi hi' => ?_, fun {i} hi => ?_⟩
  · have hformed := Places.formed_of_flight (hflight hf)
    exact ⟨h.core.chains.ok (Places.req_of_formed hformed), h.core.formed.linked hformed,
      h.core.formed.info hformed⟩
  · exact h.core.chains.apart (Places.req_of_flight (hflight hf))
      (Places.req_of_flight (hflight hf')) hi hi'
  · rw [← not_iff_not, Bool.not_eq_true, h.core.chains.taken hi]
    constructor
    · rintro ⟨t, r, hreq, hmem⟩ hall
      rcases hwait hreq with ⟨n, hf⟩
      exact hall t r n hf hmem
    · intro hnot
      by_contra hnone
      refine hnot fun t r n hf hmem => hnone ⟨t, r, Places.req_of_flight (hflight hf), hmem⟩

theorem run_disk (h : Inv s) (hpc : s.pc t = some (.hold, k)) {b : B} (hb : s.disk b = true)
    (hb' : (s.run t k).disk b = false) :
    ∃ t r n, InFlight s t r n ∧ r.buf = b ∧ r.job n ∈ s.returned := by
  have hpl := place_eq hpc
  have hno : ∀ s₁ : State T B, s₁.disk = s.disk → s₁.disk b = false → False := by
    intro s₁ heq hfalse
    rw [heq, hb] at hfalse
    cases hfalse
  cases k with
  | alloc io =>
    exfalso
    rcases alloc3Desc_spec s with ⟨c, s₁, hok, ht⟩ | ⟨s₁, hok, hr⟩
    · simp only [State.run, hok] at hb'
      exact hno s₁ (Eq.trans (congrArg State.disk ht.state) rfl) hb'
    · simp only [State.run, hok] at hb'
      exact hno s₁ (Eq.trans (congrArg State.disk hr.rest) rfl) hb'
  | format r =>
    have hself : update s.disk r.buf true b = false := hb'
    by_cases hbr : b = r.buf
    · subst hbr
      rw [update_self] at hself
      cases hself
    · rw [update_of_ne hbr, hb] at hself
      cases hself
  | publish r => exact (hno s rfl hb').elim
  | wait r n =>
    have hsame : (s.run t (.wait r n)).disk = s.disk := by
      simp only [State.run]
      split <;> rfl
    exact (hno _ hsame hb').elim
  | finish r n =>
    rcases h.core.finish hpl with ⟨s₁, hok, hfin, -⟩
    have hrun : s.run t (.finish r n) = s₁.setPc t (some (.hold, .leave)) := by
      simp only [State.run, hok, Except.map, State.orStop]
    rw [hrun] at hb'
    exact (hno _ hfin.disk hb').elim
  | leave => exact (hno s rfl hb').elim
  | handle =>
    by_cases hne : s.usedIdx ≠ s.deviceIdx
    · rcases h.core.handle hne with ⟨u, r, n, s₁, hu, hok, hack, -⟩
      have hrun : s.run t .handle = s₁ := by
        simp only [State.run, if_pos hne, hok, State.orStop]
      rw [hrun, hack.disk] at hb'
      refine ⟨u, r, n, hu, ?_, List.mem_of_getElem? hack.job⟩
      by_contra hbr
      rw [update_of_ne (Ne.symm hbr), hb] at hb'
      cases hb'
    · simp only [State.run, if_neg hne] at hb'
      exact (hno s rfl hb').elim

/-- A request's descriptors are given back by the thread that made it, after it came back. -/
theorem run_freed (h : Inv s) (hpc : s.pc t = some (.hold, k)) (hn : n ∈ (s.run t k).freed)
    (hn' : n ∉ s.freed) :
    ∃ r, k = .finish r n ∧ r.job n ∈ s.returned ∧ (∀ i ∈ r.idx.toList, s.free i = false) ∧
      ∀ i, (s.run t k).free i = (decide (i ∈ r.idx.toList) || s.free i) := by
  have hpl := place_eq hpc
  have hno : ∀ s₁ : State T B, s₁.freed = s.freed → n ∈ s₁.freed → False := by
    intro s₁ heq hmem
    rw [heq] at hmem
    exact hn' hmem
  cases k with
  | alloc io =>
    exfalso
    rcases alloc3Desc_spec s with ⟨c, s₁, hok, ht⟩ | ⟨s₁, hok, hr⟩
    · simp only [State.run, hok] at hn
      exact hno s₁ (Eq.trans (congrArg State.freed ht.state) rfl) hn
    · simp only [State.run, hok] at hn
      exact hno s₁ (Eq.trans (congrArg State.freed hr.rest) rfl) hn
  | format r => exact (hno s rfl hn).elim
  | publish r => exact (hno s rfl hn).elim
  | wait r m =>
    have hsame : (s.run t (.wait r m)).freed = s.freed := by
      simp only [State.run]
      split <;> rfl
    exact (hno _ hsame hn).elim
  | finish r m =>
    have hack : m ∈ s.acks := h.core.stage hpl
    have hflight : Places.flight s.place t = some (r, m) := by rw [Places.flight, hpl]; rfl
    rcases h.core.finish hpl with ⟨s₁, hok, hfin, -⟩
    have hrun : s.run t (.finish r m) = s₁.setPc t (some (.hold, .leave)) := by
      simp only [State.run, hok, Except.map, State.orStop]
    rw [hrun] at hn ⊢
    have hmem : n ∈ s₁.freed := hn
    rw [hfin.freed, List.mem_cons] at hmem
    have heq : n = m := hmem.resolve_right hn'
    subst heq
    refine ⟨r, rfl, ?_, hfin.taken, hfin.free⟩
    rcases acks_subset s n hack with ⟨j, hj, rfl⟩
    rcases h.core.account.read j (List.mem_append_right _ hj) with ⟨q, hq, hjob⟩
    rw [(h.core.account.known hflight).1] at hq
    cases hq
    rw [← hjob]
    exact hj
  | leave => exact (hno s rfl hn).elim
  | handle =>
    by_cases hne : s.usedIdx ≠ s.deviceIdx
    · rcases h.core.handle hne with ⟨u, r, m, s₁, -, hok, hack, -⟩
      have hrun : s.run t .handle = s₁ := by
        simp only [State.run, if_pos hne, hok, State.orStop]
      rw [hrun] at hn
      exact (hno _ hack.freed hn).elim
    · simp only [State.run, if_neg hne] at hn
      exact (hno s rfl hn).elim

/-! ## Every interleaving -/

/-- In every run of any number of threads and the device: nothing panics; between critical sections
the descriptors are the free ones and the chains in flight; a failed `alloc3_desc` changes no `free`;
`b->disk` becomes 0 when the device has returned the request made for `b`; and the descriptors of a
request are freed once, after that, by the call that made it. -/
theorem disk_requests {blockno : B → UInt32} (hrun : machine.Reaches (boot blockno : State T B) s) :
    s.stopped = none ∧ (s.lock = none → Partitioned s) ∧
      (∀ s', s.alloc3Desc = .ok (none, s') → s'.free = s.free) ∧
      (∀ a s' b, s.step a = some s' → s.disk b = true → s'.disk b = false →
        ∃ t r n, InFlight s t r n ∧ r.buf = b ∧ r.job n ∈ s.returned) ∧
      (s.returned.map Job.serial).Nodup ∧ s.freed.Nodup ∧
      (∀ n < s.reqs.length, n ∉ s.freed →
        ∃ t r, InFlight s t r n ∨ s.place t = some (.finish r n)) ∧
      ∀ a s' n, s.step a = some s' → n ∈ s'.freed → n ∉ s.freed →
        ∃ t r, s.pc t = some (.hold, .finish r n) ∧ r.job n ∈ s.returned ∧
          (∀ i ∈ r.idx.toList, s.free i = false) ∧
          ∀ i, s'.free i = (decide (i ∈ r.idx.toList) || s.free i) := by
  have h : Inv s := hrun.invariant (inv_boot blockno) fun t a u ht hstep => inv_step ht hstep
  refine ⟨h.stopped, h.partitioned, fun s' hs' => ?_, fun a s' b hstep hb hb' => ?_, ?_,
    h.core.account.once, fun n hn hn' => ?_, fun a s' n hstep hn hn' => ?_⟩
  · rcases alloc3Desc_spec s with ⟨c, s₁, hok, -⟩ | ⟨s₁, hok, hr⟩
    · rw [hok] at hs'
      cases hs'
    · rw [hok] at hs'
      cases hs'
      exact hr.free
  · have hkeep : s'.disk = s.disk → False := by
      intro heq
      rw [heq, hb] at hb'
      cases hb'
    cases step_move hstep with
    | run hpc => exact run_disk h hpc hb hb'
    | _ => exact (hkeep rfl).elim
  · have hnodup := h.core.account.serials_nodup
    rw [List.map_append, List.nodup_append] at hnodup
    exact hnodup.2.1
  · rcases h.core.account.live hn hn' with ⟨t, r, hflight⟩
    rcases Option.bind_eq_some_iff.1 hflight with ⟨k, hpl, hk⟩
    cases k with
    | wait q m =>
      cases hk
      exact ⟨t, r, Or.inl hpl⟩
    | finish q m =>
      cases hk
      exact ⟨t, r, Or.inr hpl⟩
    | _ => cases hk
  · have hkeep : s'.freed = s.freed → False := by
      intro heq
      rw [heq] at hn
      exact hn' hn
    cases step_move hstep with
    | @run t k hpc =>
      rcases run_freed h hpc hn hn' with ⟨r, rfl, hrest⟩
      exact ⟨t, r, hpc, hrest⟩
    | _ => exact (hkeep rfl).elim

/-- One read from the call to the return, with an interrupt on another thread. -/
theorem disk_requests_read :
    ∃ s : State (Fin 2) (Fin 1), machine.Reaches (boot fun _ => 7) s ∧ s.freed = [0] ∧
      s.lock = none ∧ s.stopped = none ∧ Partitioned s := by
  have hrun : (machine.exec (boot fun _ => 7 : State (Fin 2) (Fin 1))
      [.lockBuf 0 0 9, .rw 0 0 false, .run 0, .run 0, .run 0, .run 0, .run 0, .fetch,
        .complete (Req.job ⟨⟨0, false, 18⟩, ⟨0, 1, 2⟩⟩ 0), .intr 1, .run 1, .run 1, .run 1, .run 1,
        .run 0, .run 0, .run 0, .run 0]).any
        (fun s => decide (s.freed = [0] ∧ s.lock = none)) = true := by
    decide +kernel
  rcases (Option.any_eq_true _ _).1 hrun with ⟨s, hexec, hs⟩
  have hreach := reaches_of_exec hexec
  have hs := of_decide_eq_true hs
  have hall := disk_requests hreach
  exact ⟨s, hreach, hs.1, hs.2, hall.1, hall.2.1 hs.2⟩

end Xv6Schedulers.Virtio
