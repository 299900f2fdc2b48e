import Xv6Schedulers.Virtio.Requests

/-!
# Steps — each step keeps the account of descriptors and requests

One lemma for each thing that happens: a thread gets descriptors, formats and publishes them, frees
them, acknowledges a request; the device takes a chain and returns one.
-/

namespace Xv6Schedulers.Virtio

open Lib State Function List

variable {T B : Type} [DecidableEq T] {s s' : State T B} {pl : Places T B} {t t' : T} {k : Place B}
  {r r' : Req B} {i n : Nat} {b : B} {j : Job B}

/-! ## One thread moves -/

theorem Places.update_bind {β : Type} (f : Place B → Option β) (pl : Places T B) (t : T)
    (k : Option (Place B)) :
    (fun t' => (update pl t k t').bind f) = update (fun t' => (pl t').bind f) t (k.bind f) := by
  funext t'
  by_cases ht : t' = t
  · subst ht
    rw [update_self, update_self]
  · rw [update_of_ne ht, update_of_ne ht]

theorem Places.bind_same {β : Type} {f : Place B → Option β} {pl : Places T B} {t : T}
    {k : Option (Place B)} (h : k.bind f = (pl t).bind f) :
    (fun t' => (update pl t k t').bind f) = fun t' => (pl t').bind f := by
  rw [Places.update_bind, h]
  exact update_eq_self t fun t' => (pl t').bind f

theorem update_eq_some {β : Type} {g : T → Option β} {x : Option β} {y : β}
    (h : update g t x t' = some y) : (t' = t ∧ x = some y) ∨ (t' ≠ t ∧ g t' = some y) := by
  by_cases ht : t' = t
  · subst ht
    rw [update_self] at h
    exact Or.inl ⟨rfl, h⟩
  · rw [update_of_ne ht] at h
    exact Or.inr ⟨ht, h⟩

theorem update_none_eq_some {β : Type} {g : T → Option β} {y : β}
    (h : update g t none t' = some y) : t' ≠ t ∧ g t' = some y := by
  rcases update_eq_some h with ⟨-, h⟩ | h
  · exact nomatch h
  · exact h

omit [DecidableEq T] in
theorem getElem?_concat_cases {α : Type} {l : List α} {x y : α} {m : Nat}
    (h : (l ++ [x])[m]? = some y) : (m < l.length ∧ l[m]? = some y) ∨ (m = l.length ∧ y = x) := by
  by_cases hlt : m < l.length
  · rw [getElem?_append_left hlt] at h
    exact Or.inl ⟨hlt, h⟩
  · have hlen := (List.getElem?_eq_some_iff.1 h).1
    rw [length_append, length_singleton] at hlen
    have heq : m = l.length := by omega
    subst heq
    rw [getElem?_concat_length] at h
    exact Or.inr ⟨rfl, (Option.some.inj h).symm⟩

theorem Owners.move {owner : B → Option T} (h : Owners owner pl.io) {k : Option (Place B)}
    (hk : ∀ a, k.bind Place.io = some a → owner a.buf = some t) :
    Owners owner (Places.io (update pl t k)) := by
  intro t' a hio
  have hbind : Places.io (update pl t k) = update pl.io t (k.bind Place.io) :=
    Places.update_bind _ _ _ _
  rw [hbind] at hio
  rcases update_eq_some hio with ⟨rfl, hnew⟩ | ⟨-, hold⟩
  · exact hk a hnew
  · exact h t' a hold

theorem stage_move (h : ∀ {t k}, pl t = some k → Stage s k) {k : Option (Place B)}
    (hk : ∀ k', k = some k' → Stage s k') {t' : T} {k' : Place B}
    (hpl : update pl t k t' = some k') : Stage s k' := by
  rcases update_eq_some hpl with ⟨-, hpl⟩ | ⟨-, hpl⟩
  · exact hk k' hpl
  · exact h hpl

theorem Core.move (h : Core s pl) {k : Option (Place B)}
    (hio : ∀ a, k.bind Place.io = some a → s.owner a.buf = some t)
    (hreq : k.bind Place.req = pl.req t) (hformed : k.bind Place.formed = pl.formed t)
    (hflight : k.bind Place.flight = pl.flight t) (hstage : ∀ k', k = some k' → Stage s k') :
    Core s (update pl t k) where
  owners := h.owners.move hio
  chains := by
    have hsame : Places.req (update pl t k) = pl.req := Places.bind_same hreq
    rw [hsame]
    exact h.chains
  formed := by
    have hsame : Places.formed (update pl t k) = pl.formed := Places.bind_same hformed
    rw [hsame]
    exact h.formed
  account := by
    have hsame : Places.flight (update pl t k) = pl.flight := Places.bind_same hflight
    rw [hsame]
    exact h.account
  stage := stage_move h.stage hstage
  rings := h.rings

omit [DecidableEq T] in
theorem Core.frame (h : Core s pl) (lock : Option T) (pc : T → Pc B) (blockno : B → UInt32)
    (stopped : Option Stop) :
    Core { s with lock := lock, pc := pc, blockno := blockno, stopped := stopped } pl where
  owners := h.owners
  chains := h.chains
  formed := { h.formed with }
  account := { h.account with }
  stage {t k} hpl := by
    have hstage := h.stage hpl
    cases k <;> exact hstage
  rings := { h.rings with }

/-! ## Descriptors change hands -/

variable {free free' : Nat → Bool} {req : T → Option (Req B)}

theorem Chains.take (h : Chains free req) (ht : req t = none) (hok : r.idx.Ok)
    (hwas : ∀ i ∈ r.idx.toList, free i = true) :
    Chains (fun i => !decide (i ∈ r.idx.toList) && free i) (update req t (some r)) := by
  -- the descriptors were in no chain
  have hfresh : ∀ {u q i}, req u = some q → i ∈ q.idx.toList → i ∉ r.idx.toList := by
    intro u q i hq hi hmem
    have hfalse := (h.taken ((h.ok hq).2 i hi)).2 ⟨u, q, hq, hi⟩
    rw [hwas i hmem] at hfalse
    cases hfalse
  refine ⟨fun {u q} hq => ?_, fun {u u' q q' i} hq hq' hi hi' => ?_, fun {i} hi => ?_⟩
  · rcases update_eq_some hq with ⟨-, ⟨⟩⟩ | ⟨-, hq⟩
    · exact hok
    · exact h.ok hq
  · rcases update_eq_some hq with ⟨rfl, ⟨⟩⟩ | ⟨-, hold⟩ <;>
      rcases update_eq_some hq' with ⟨rfl, ⟨⟩⟩ | ⟨-, hold'⟩
    · rfl
    · exact absurd hi (hfresh hold' hi')
    · exact absurd hi' (hfresh hold hi)
    · exact h.apart hold hold' hi hi'
  · by_cases hmem : i ∈ r.idx.toList
    · refine iff_of_true (by simp [hmem]) ⟨t, r, update_self _ _ _, hmem⟩
    · have hkeep : (!decide (i ∈ r.idx.toList) && free i) = free i := by simp [hmem]
      rw [hkeep, h.taken hi]
      constructor
      · rintro ⟨u, q, hq, hiq⟩
        refine ⟨u, q, ?_, hiq⟩
        rw [update_of_ne _, hq]
        rintro rfl
        rw [ht] at hq
        cases hq
      · rintro ⟨u, q, hq, hiq⟩
        rcases update_eq_some hq with ⟨-, ⟨⟩⟩ | ⟨-, hq⟩
        · exact absurd hiq hmem
        · exact ⟨u, q, hq, hiq⟩

theorem Chains.give (h : Chains free req) (ht : req t = some r)
    (hfree : ∀ i, free' i = (decide (i ∈ r.idx.toList) || free i)) :
    Chains free' (update req t none) := by
  refine ⟨fun {u q} hq => h.ok (update_none_eq_some hq).2, fun {u u' q q' i} hq hq' hi hi' =>
    h.apart (update_none_eq_some hq).2 (update_none_eq_some hq').2 hi hi', fun {i} hi => ?_⟩
  by_cases hmem : i ∈ r.idx.toList
  · refine iff_of_false (by simp [hfree, hmem]) ?_
    rintro ⟨u, q, hq, hiq⟩
    have hu := update_none_eq_some hq
    exact hu.1 (h.apart hu.2 ht hiq hmem)
  · have hkeep : free' i = free i := by simp [hfree, hmem]
    rw [hkeep, h.taken hi]
    constructor
    · rintro ⟨u, q, hq, hiq⟩
      refine ⟨u, q, ?_, hiq⟩
      rw [update_of_ne _, hq]
      rintro rfl
      rw [ht] at hq
      cases hq
      exact hmem hiq
    · rintro ⟨u, q, hq, hiq⟩
      exact ⟨u, q, (update_none_eq_some hq).2, hiq⟩

/-! ## The calls -/

omit [DecidableEq T] in
theorem Owners.buf_ne {owner : B → Option T} (h : Owners owner pl.io) (ht : pl.req t = some r)
    (ht' : pl.req t' = some r') (hne : t' ≠ t) : r'.buf ≠ r.buf := by
  intro heq
  have hown := h t _ (Places.io_of_req ht)
  have hown' := h t' _ (Places.io_of_req ht')
  rw [heq, hown] at hown'
  exact hne (Option.some.inj hown').symm

theorem Chains.not_mem (h : Chains free req) (ht : req t = some r) (ht' : req t' = some r')
    (hne : t' ≠ t) (hi : i ∈ r'.idx.toList) : i ∉ r.idx.toList :=
  fun hmem => hne (h.apart ht' ht hi hmem)

theorem Chains.head_ne (h : Chains free req) (ht : req t = some r) (ht' : req t' = some r')
    (hne : t' ≠ t) : r'.idx.i0 ≠ r.idx.i0 :=
  fun heq => h.not_mem ht ht' hne (head_mem r'.idx) (heq ▸ head_mem r.idx)

omit [DecidableEq T] in
theorem Linked.congr {desc desc' : Nat → Desc B} {ops ops' : Nat → BlkReq}
    (h : Linked desc ops r) (hdesc : ∀ i ∈ r.idx.toList, desc' i = desc i)
    (hops : ops' r.idx.i0 = ops r.idx.i0) : Linked desc' ops' r where
  d0 := (hdesc _ (by simp [Chain.toList])).trans h.d0
  d1 := (hdesc _ (by simp [Chain.toList])).trans h.d1
  d2 := (hdesc _ (by simp [Chain.toList])).trans h.d2
  header := hops.trans h.header

theorem Core.alloc (h : Core s pl) {io : Io B} {c : Chain} (hpl : pl t = some (.alloc io))
    (ht : Takes s s' c.toList) : Core s' (update pl t (some (.format ⟨io, c⟩))) := by
  have hstate := ht.state
  subst hstate
  have hreq : pl.req t = none := by rw [Places.req, hpl]; rfl
  have hreq' : Places.req (update pl t (some (.format ⟨io, c⟩))) =
      update pl.req t (some ⟨io, c⟩) := Places.update_bind _ _ _ _
  have hformed : Places.formed (update pl t (some (.format ⟨io, c⟩))) = pl.formed :=
    Places.bind_same (by rw [hpl]; rfl)
  have hflight : Places.flight (update pl t (some (.format ⟨io, c⟩))) = pl.flight :=
    Places.bind_same (by rw [hpl]; rfl)
  refine ⟨h.owners.move fun a ha => ?_, ?_, ?_, ?_, stage_move (fun {u k} (hk : pl u = some k) => ?_) ?_, ?_⟩
  · refine h.owners t a ?_
    rw [Places.io, hpl]
    exact ha
  · rw [hreq']
    exact h.chains.take (r := ⟨io, c⟩) hreq ⟨ht.nodup, fun i hi => (ht.was i hi).1⟩
      fun i hi => (ht.was i hi).2
  · rw [hformed]
    exact { h.formed with }
  · rw [hflight]
    exact { h.account with }
  · have hstage := h.stage hk
    cases k <;> exact hstage
  · rintro k ⟨⟩
    exact trivial
  · exact { h.rings with }

theorem Core.restored (h : Core s pl) (hr : Restored s s') : Core s' pl := by
  have hdesc : ∀ {t r i}, pl.formed t = some r → i ∈ r.idx.toList → s'.desc i = s.desc i := by
    intro t r i hf hi
    have hreq := Places.req_of_formed hf
    exact hr.desc i ((h.chains.taken ((h.chains.ok hreq).2 i hi)).2 ⟨t, r, hreq, hi⟩)
  have hfree := hr.free
  have hrest := hr.rest
  obtain ⟨d, hd⟩ : ∃ d, d = s'.desc := ⟨_, rfl⟩
  obtain ⟨p, hp⟩ : ∃ p, p = s'.pc := ⟨_, rfl⟩
  rw [hfree, ← hd, ← hp] at hrest
  rw [← hd] at hdesc
  subst hrest
  refine ⟨h.owners, h.chains, ⟨fun {u q} hq => ?_, h.formed.info⟩, ?_, fun {u k} hk => ?_, ?_⟩
  · exact (h.formed.linked hq).congr (fun i hi => hdesc hq hi) rfl
  · exact { h.account with }
  · have hstage := h.stage hk
    cases k <;> exact hstage
  · exact { h.rings with }

/-! ## A request is made -/

theorem toNat_ofNat_mod (n : Nat) : (UInt16.ofNat n).toNat % NUM = n % NUM := by
  rw [UInt16.toNat_ofNat', Nat.mod_mod_of_dvd n (by decide)]

theorem slot_ne {lo hi m : Nat} (hlo : lo ≤ m) (hm : m < hi) (hfit : hi - lo < NUM) :
    m % NUM ≠ hi % NUM := by
  simp only [NUM] at hfit ⊢
  omega

omit [DecidableEq T] in
theorem Core.avail_room (h : Core s pl) (ht : pl.req t = some r) (hf : pl.flight t = none) :
    s.reqs.length - s.fetched < NUM := by
  have hlt := flights_lt h.chains h.account (L := range' s.fetched (s.reqs.length - s.fetched))
    nodup_range' (fun n hn => ?_) ht fun n _ r' heq => by rw [hf] at heq; cases heq
  · rwa [length_range'] at hlt
  · rw [mem_range'_1] at hn
    refine h.account.live (by omega) fun hfreed => ?_
    have hless := h.account.freed_lt hfreed
    omega

omit [DecidableEq T] in
theorem Core.pending (h : Core s pl) {m : Nat} (hm : s.acked ≤ m) (hj : s.returned[m]? = some j) :
    ∃ t r, pl.flight t = some (r, j.serial) ∧ j = r.job j.serial := by
  have hdrop : j ∈ s.returned.drop s.acked := by
    refine mem_of_getElem? (i := m - s.acked) ?_
    rw [getElem?_drop, Nat.add_sub_cancel' hm]
    exact hj
  refine h.account.flight_of (mem_append_right _ (mem_of_mem_drop hdrop)) fun hfreed => ?_
  exact h.account.not_acked hdrop (h.account.freed _ hfreed)

variable [DecidableEq B]

theorem Core.format (h : Core s pl) (hpl : pl t = some (.format r))
    (hsolo : ∀ t' k, pl t' = some k → k.rests = false → t' = t) :
    Core (s.format r) (update pl t (some (.publish r))) := by
  have hreq : pl.req t = some r := by rw [Places.req, hpl]; rfl
  have hflight : pl.flight t = none := by rw [Places.flight, hpl]; rfl
  have hok := h.chains.ok hreq
  have hne : r.idx.i0 ≠ r.idx.i1 ∧ r.idx.i0 ≠ r.idx.i2 ∧ r.idx.i1 ≠ r.idx.i2 := by
    have hnodup := hok.1
    simp only [Chain.toList, nodup_cons, mem_cons, not_mem_nil, or_false, not_or]
      at hnodup
    exact ⟨hnodup.1.1, hnodup.1.2, hnodup.2.1⟩
  have hroom := h.avail_room hreq hflight
  have hslot : s.availIdx.toNat % NUM = s.reqs.length % NUM := by
    rw [h.rings.availIdx, toNat_ofNat_mod]
  have hreq' : Places.req (update pl t (some (.publish r))) = pl.req :=
    Places.bind_same (by rw [hpl]; rfl)
  have hflight' : Places.flight (update pl t (some (.publish r))) = pl.flight :=
    Places.bind_same (by rw [hpl]; rfl)
  have hformed' : Places.formed (update pl t (some (.publish r))) =
      update pl.formed t (some r) := Places.update_bind _ _ _ _
  -- descriptors outside the chain are as before
  have hdesc : ∀ i, i ∉ r.idx.toList → (s.format r).desc i = s.desc i := by
    intro i hi
    simp only [Chain.toList, mem_cons, not_mem_nil, or_false, not_or] at hi
    simp only [State.format, update_of_ne hi.1, update_of_ne hi.2.1, update_of_ne hi.2.2]
  refine ⟨h.owners.move fun a ha => ?_, ?_, ?_, ?_, fun {u k} hk => ?_, ?_⟩
  · refine h.owners t a ?_
    rw [Places.io, hpl]
    exact ha
  · rw [hreq']
    exact h.chains
  · rw [hformed']
    constructor
    · intro u q hq
      rcases update_eq_some hq with ⟨-, ⟨⟩⟩ | ⟨hu, hq⟩
      · refine ⟨?_, ?_, ?_, update_self _ _ _⟩
        · simp only [State.format, update_of_ne hne.1, update_of_ne hne.2.1, update_self]
        · simp only [State.format, update_of_ne hne.2.2, update_self]
        · simp only [State.format, update_self]
      · have hout : ∀ i ∈ q.idx.toList, i ∉ r.idx.toList := fun i hi =>
          h.chains.not_mem hreq (Places.req_of_formed hq) hu hi
        refine (h.formed.linked hq).congr (fun i hi => hdesc i (hout i hi)) ?_
        exact update_of_ne (h.chains.head_ne hreq (Places.req_of_formed hq) hu) _ _
    · intro u q hq
      rcases update_eq_some hq with ⟨-, ⟨⟩⟩ | ⟨hu, hq⟩
      · simp only [State.format, update_self]
      · have hi := h.chains.head_ne hreq (Places.req_of_formed hq) hu
        simp only [State.format, update_of_ne hi]
        exact h.formed.info hq
  · rw [hflight']
    exact { h.account with }
  · rcases update_eq_some hk with ⟨-, ⟨⟩⟩ | ⟨hu, hk⟩
    · refine ⟨update_self _ _ _, ?_⟩
      simp only [State.format, hslot, update_self]
    · have hstage := h.stage hk
      cases k with
      | publish q => exact absurd (hsolo u _ hk rfl) hu
      | wait q n =>
        have hreqq : pl.req u = some q := by rw [Places.req, hk]; rfl
        have hbuf : (s.format r).disk q.buf = s.disk q.buf :=
          update_of_ne (h.owners.buf_ne hreq hreqq hu) _ _
        show (s.format r).disk q.buf = true ↔ _
        rw [hbuf]
        exact hstage
      | _ => exact hstage
  · refine { h.rings with avail := fun {n q} hn hq => ?_, used := fun {m j} hm hj => ?_ }
    · have hlt : n < s.reqs.length := (List.getElem?_eq_some_iff.1 hq).1
      simp only [State.format, hslot]
      rw [update_of_ne (slot_ne hn hlt hroom)]
      exact h.rings.avail hn hq
    · have hused := h.rings.used hm hj
      refine ⟨hused.1, ?_⟩
      rcases h.pending hm hj with ⟨u, q, hq, hjob⟩
      have hu : u ≠ t := by
        rintro rfl
        rw [hflight] at hq
        cases hq
      have hi : j.head ≠ r.idx.i0 := by
        rw [hjob]
        exact h.chains.head_ne hreq (Places.req_of_flight hq) hu
      simp only [State.format, update_of_ne hi]
      exact hused.2

omit [DecidableEq B] in
theorem Core.publish (h : Core s pl) (hpl : pl t = some (.publish r))
    (hsolo : ∀ t' k, pl t' = some k → k.rests = false → t' = t) :
    Core (s.publish r) (update pl t (some (.wait r s.reqs.length))) := by
  have hstage : s.disk r.buf = true ∧
      s.availRing (s.reqs.length % NUM) = UInt16.ofNat r.idx.i0 := h.stage hpl
  have hflight : pl.flight t = none := by rw [Places.flight, hpl]; rfl
  have hreq' : Places.req (update pl t (some (.wait r s.reqs.length))) = pl.req :=
    Places.bind_same (by rw [hpl]; rfl)
  have hformed' : Places.formed (update pl t (some (.wait r s.reqs.length))) =
      pl.formed := Places.bind_same (by rw [hpl]; rfl)
  have hflight' : Places.flight (update pl t (some (.wait r s.reqs.length))) =
      update pl.flight t (some (r, s.reqs.length)) := Places.update_bind _ _ _ _
  have hcases : ∀ {u q m}, update pl.flight t (some (r, s.reqs.length)) u = some (q, m) →
      (u = t ∧ q = r ∧ m = s.reqs.length) ∨
        (u ≠ t ∧ pl.flight u = some (q, m) ∧ m < s.reqs.length) := by
    intro u q m hq
    rcases update_eq_some hq with ⟨rfl, ⟨⟩⟩ | ⟨hu, hq⟩
    · exact Or.inl ⟨rfl, rfl, rfl⟩
    · exact Or.inr ⟨hu, hq, (List.getElem?_eq_some_iff.1 (h.account.known hq).1).1⟩
  have hold : ∀ {m q}, s.reqs[m]? = some q → (s.reqs ++ [r])[m]? = some q := fun hq => by
    rw [List.getElem?_append_left (List.getElem?_eq_some_iff.1 hq).1]
    exact hq
  have hself : (s.reqs ++ [r])[s.reqs.length]? = some r := getElem?_concat_length
  have hnew : s.reqs.length ∉ s.freed := fun hfreed =>
    Nat.not_lt.2 h.account.fetched (h.account.freed_lt hfreed)
  refine ⟨h.owners.move fun a ha => ?_, ?_, ?_, ?_, fun {u k} hk => ?_, ?_⟩
  · refine h.owners t a ?_
    rw [Places.io, hpl]
    exact ha
  · rw [hreq']
    exact h.chains
  · rw [hformed']
    exact { h.formed with }
  · rw [hflight']
    refine { h.account with
      known := fun {u q m} hq => ?_, unique := fun {u u' q q' m} hq hq' => ?_
      live := fun {m} hm hfreed => ?_, fetched := ?_, read := fun j hj => ?_ }
    · rcases hcases hq with ⟨-, rfl, rfl⟩ | ⟨-, hq, -⟩
      · exact ⟨hself, hnew⟩
      · exact ⟨hold (h.account.known hq).1, (h.account.known hq).2⟩
    · rcases hcases hq with ⟨rfl, -, rfl⟩ | ⟨-, hq, hlt⟩
      · rcases hcases hq' with ⟨rfl, -, -⟩ | ⟨-, -, hlt⟩
        · rfl
        · exact absurd hlt (Nat.lt_irrefl _)
      · rcases hcases hq' with ⟨-, -, rfl⟩ | ⟨-, hq', -⟩
        · exact absurd hlt (Nat.lt_irrefl _)
        · exact h.account.unique hq hq'
    · have hle : m < s.reqs.length ∨ m = s.reqs.length := by
        have hlen : m < (s.reqs ++ [r]).length := hm
        rw [length_append, length_singleton] at hlen
        omega
      rcases hle with hlt | rfl
      · rcases h.account.live hlt hfreed with ⟨u, q, hq⟩
        refine ⟨u, q, ?_⟩
        rw [update_of_ne _, hq]
        rintro rfl
        rw [hflight] at hq
        cases hq
      · exact ⟨t, r, update_self _ _ _⟩
    · show s.fetched ≤ (s.reqs ++ [r]).length
      rw [length_append]
      exact h.account.fetched.trans (Nat.le_add_right _ _)
    · rcases h.account.read j hj with ⟨q, hq, hjob⟩
      exact ⟨q, hold hq, hjob⟩
  · rcases update_eq_some hk with ⟨-, ⟨⟩⟩ | ⟨hu, hk⟩
    · refine iff_of_true hstage.1 fun hack => ?_
      rcases acks_subset s _ hack with ⟨j, hj, heq⟩
      have hlt := h.account.serial_lt (mem_append_right _ hj)
      rw [heq] at hlt
      exact Nat.not_lt.2 h.account.fetched hlt
    · have hstage' := h.stage hk
      cases k with
      | publish q => exact absurd (hsolo u _ hk rfl) hu
      | _ => exact hstage'
  · refine { h.rings with availIdx := ?_, avail := fun {m q} hm hq => ?_ }
    · show s.availIdx + 1 = UInt16.ofNat (s.reqs ++ [r]).length
      rw [h.rings.availIdx, length_append, length_singleton, UInt16.ofNat_add]
      rfl
    · rcases getElem?_concat_cases hq with ⟨-, hq⟩ | ⟨rfl, rfl⟩
      · exact h.rings.avail hm hq
      · exact hstage.2

/-- What the end of a call does: the chain is freed. -/
structure Finished (s s' : State T B) (r : Req B) (n : Nat) : Prop where
  taken : ∀ i ∈ r.idx.toList, s.free i = false
  free : ∀ i, s'.free i = (decide (i ∈ r.idx.toList) || s.free i)
  freed : s'.freed = n :: s.freed
  woken : Woken s s'
  lock : s'.lock = s.lock
  stopped : s'.stopped = s.stopped
  disk : s'.disk = s.disk

theorem Core.finish (h : Core s pl) (hpl : pl t = some (.finish r n)) :
    ∃ s', s.finish r n = .ok s' ∧ Finished s s' r n ∧ Core s' (update pl t (some .leave)) := by
  have hreq : pl.req t = some r := by rw [Places.req, hpl]; rfl
  have hformed : pl.formed t = some r := by rw [Places.formed, hpl]; rfl
  have hflight : pl.flight t = some (r, n) := by rw [Places.flight, hpl]; rfl
  have hack : n ∈ s.acks := h.stage hpl
  have hok := h.chains.ok hreq
  have htaken : ∀ i ∈ r.idx.toList, s.free i = false := fun i hi =>
    (h.chains.taken (hok.2 i hi)).2 ⟨t, r, hreq, hi⟩
  obtain ⟨info, hinfo⟩ : ∃ info, info =
      update s.info r.idx.i0 { s.info r.idx.i0 with b := none } := ⟨_, rfl⟩
  have hlinked : Linked ({ s with info := info } : State T B).desc s.ops r := h.formed.linked hformed
  rcases freeChain_spec (s := { s with info := info }) hok hlinked htaken with ⟨s₂, hrun, hf⟩
  have hdesc := hf.desc
  have hfree := hf.free
  have hwoken := hf.woken
  have hrest := hf.rest
  obtain ⟨d, hd⟩ : ∃ d, d = s₂.desc := ⟨_, rfl⟩
  obtain ⟨f, hf'⟩ : ∃ f, f = s₂.free := ⟨_, rfl⟩
  obtain ⟨p, hp⟩ : ∃ p, p = s₂.pc := ⟨_, rfl⟩
  rw [← hd, ← hf', ← hp] at hrest
  rw [← hd] at hdesc
  rw [← hf'] at hfree
  subst hrest
  have hreq' : Places.req (update pl t (some .leave)) = update pl.req t none :=
    Places.update_bind _ _ _ _
  have hformed' : Places.formed (update pl t (some .leave)) =
      update pl.formed t none := Places.update_bind _ _ _ _
  have hflight' : Places.flight (update pl t (some .leave)) =
      update pl.flight t none := Places.update_bind _ _ _ _
  have hstatus : ∀ i, (info i).status = (s.info i).status := by
    intro i
    rw [hinfo]
    by_cases hi : i = r.idx.i0
    · subst hi
      rw [update_self]
    · rw [update_of_ne hi]
  refine ⟨{ s with info := info, desc := d, free := f, pc := p, freed := n :: s.freed }, ?_,
    ⟨htaken, hfree, rfl, hwoken, rfl, rfl, rfl⟩, ?_, ?_, ⟨fun {u q} hq => ?_, fun {u q} hq => ?_⟩,
    ?_, fun {u k} hk => ?_, ?_⟩
  · rw [State.finish, ← hinfo, hrun]
    rfl
  · exact h.owners.move fun a ha => nomatch ha
  · rw [hreq']
    exact h.chains.give hreq hfree
  · rw [hformed'] at hq
    have hu := update_none_eq_some hq
    have hout : ∀ i ∈ q.idx.toList, i ∉ r.idx.toList := fun i hi =>
      h.chains.not_mem hreq (Places.req_of_formed hu.2) hu.1 hi
    exact (h.formed.linked hu.2).congr (fun i hi => hdesc i (hout i hi)) rfl
  · rw [hformed'] at hq
    have hu := update_none_eq_some hq
    have hi := h.chains.head_ne hreq (Places.req_of_formed hu.2) hu.1
    have hsame : info q.idx.i0 = s.info q.idx.i0 := by rw [hinfo, update_of_ne hi]
    show (info q.idx.i0).b = some q.buf
    rw [hsame]
    exact h.formed.info hu.2
  · rw [hflight']
    refine { h.account with
      known := fun {u q m} hq => ?_, live := fun {m} hm hfreed => ?_, once := ?_, freed := ?_
      unique := fun hq hq' => h.account.unique (update_none_eq_some hq).2 (update_none_eq_some hq').2 }
    · have hu := update_none_eq_some hq
      have hknown := h.account.known hu.2
      refine ⟨hknown.1, fun hmem => ?_⟩
      rcases mem_cons.1 hmem with rfl | hmem
      · exact hu.1 (h.account.unique hu.2 hflight)
      · exact hknown.2 hmem
    · rw [mem_cons, not_or] at hfreed
      rcases h.account.live hm hfreed.2 with ⟨u, q, hq⟩
      refine ⟨u, q, ?_⟩
      rw [update_of_ne _, hq]
      rintro rfl
      rw [hflight] at hq
      cases hq
      exact hfreed.1 rfl
    · exact nodup_cons.2 ⟨(h.account.known hflight).2, h.account.once⟩
    · intro m hm
      rcases mem_cons.1 hm with rfl | hm
      · exact hack
      · exact h.account.freed m hm
  · rcases update_eq_some hk with ⟨-, ⟨⟩⟩ | ⟨-, hk⟩
    · exact trivial
    · have hstage := h.stage hk
      cases k <;> exact hstage
  · refine { h.rings with used := fun {m j} hm hj => ?_ }
    have hused := h.rings.used hm hj
    exact ⟨hused.1, (hstatus j.head).trans hused.2⟩

/-! ## A request comes back -/

/-- What one round of the loop of `virtio_disk_intr` does. -/
structure Acknowledged (s s' : State T B) (r : Req B) (n : Nat) : Prop where
  job : s.returned[s.acked]? = some (r.job n)
  disk : s'.disk = update s.disk r.buf false
  free : s'.free = s.free
  freed : s'.freed = s.freed
  woken : Woken s s'
  lock : s'.lock = s.lock
  stopped : s'.stopped = s.stopped

theorem Core.handle (h : Core s pl) (hne : s.usedIdx ≠ s.deviceIdx) :
    ∃ t r n s', pl t = some (.wait r n) ∧ s.handle = .ok s' ∧ Acknowledged s s' r n ∧
      Core s' pl := by
  have hlt : s.acked < s.returned.length := by
    refine Nat.lt_of_le_of_ne h.account.acked fun heq => hne ?_
    rw [h.rings.usedIdx, h.rings.deviceIdx, heq]
  obtain ⟨j, hj⟩ : ∃ j, s.returned[s.acked]? = some j := ⟨_, getElem?_eq_getElem hlt⟩
  rcases h.pending (Nat.le_refl _) hj with ⟨t, r, hflight, hjob⟩
  have hused := h.rings.used (Nat.le_refl _) hj
  have hacks : (s.returned.take (s.acked + 1)).map Job.serial = s.acks ++ [j.serial] := by
    rw [take_add_one, hj, map_append]
    rfl
  have hnot : j.serial ∉ s.acks := by
    refine h.account.not_acked (mem_of_getElem? (i := 0) ?_)
    rw [getElem?_drop]
    exact hj
  -- the thread still waits: a request that is being finished has been acknowledged
  have hpl : pl t = some (.wait r j.serial) := by
    rcases Option.bind_eq_some_iff.1 hflight with ⟨k, hk, hkf⟩
    cases k with
    | wait q m =>
      cases hkf
      exact hk
    | finish q m =>
      cases hkf
      exact absurd (h.stage hk) hnot
    | _ => cases hkf
  have hreq := Places.req_of_flight hflight
  have hformed := Places.formed_of_flight hflight
  have hhead : j.head = r.idx.i0 := congrArg Job.head hjob
  have hlow : j.head < NUM := by
    rw [hhead]
    exact (h.chains.ok hreq).2 _ (head_mem r.idx)
  have hid : (s.usedRing (s.usedIdx.toNat % NUM)).toNat = r.idx.i0 := by
    rw [h.rings.usedIdx, toNat_ofNat_mod, hused.1, toNat_ofNat32 hlow, hhead]
  have hinfo : (s.info r.idx.i0).b = some r.buf := h.formed.info hformed
  have hstatus : (s.info r.idx.i0).status = 0 := by
    rw [← hhead]
    exact hused.2
  obtain ⟨s₁, hs₁⟩ : ∃ s₁ : State T B, s₁ = { s with
      usedIdx := s.usedIdx + 1, acked := s.acked + 1
      disk := update s.disk r.buf false } := ⟨_, rfl⟩
  have hwoken : Woken s (s₁.wakeup (.buf r.buf)) := by
    intro u
    have hu := woken_wakeup s₁ (.buf r.buf) u
    rw [hs₁] at hu ⊢
    exact hu
  refine ⟨t, r, j.serial, s₁.wakeup (.buf r.buf), hpl, ?_, ?_, ?_⟩
  · rw [hs₁]
    simp only [State.handle, hid, hstatus, hinfo, ne_eq, not_true_eq_false, if_false]
  · subst hs₁
    exact ⟨by rw [← hjob]; exact hj, rfl, rfl, rfl, hwoken, rfl, rfl⟩
  · have hcore : Core s₁ pl := by
      subst hs₁
      refine ⟨h.owners, h.chains, { h.formed with }, ?_, fun {u k} hk => ?_, ?_⟩
      · refine { h.account with acked := hlt, freed := fun m hm => ?_ }
        show m ∈ (s.returned.take (s.acked + 1)).map Job.serial
        rw [hacks]
        exact mem_append_left _ (h.account.freed m hm)
      · have hstage := h.stage hk
        cases k with
        | publish q =>
          have hu : u ≠ t := by
            rintro rfl
            rw [hpl] at hk
            cases hk
          have hreqq : pl.req u = some q := by rw [Places.req, hk]; rfl
          refine ⟨?_, hstage.2⟩
          show update s.disk r.buf false q.buf = true
          rw [update_of_ne (h.owners.buf_ne hreq hreqq hu)]
          exact hstage.1
        | wait q m =>
          show update s.disk r.buf false q.buf = true ↔
            m ∉ (s.returned.take (s.acked + 1)).map Job.serial
          rw [hacks]
          by_cases hu : u = t
          · subst hu
            rw [hpl] at hk
            cases hk
            simp
          · have hreqq : pl.req u = some q := by rw [Places.req, hk]; rfl
            have hm : m ≠ j.serial := by
              rintro rfl
              have hflightq : pl.flight u = some (q, j.serial) := by rw [Places.flight, hk]; rfl
              exact hu (h.account.unique hflightq hflight)
            have hiff : s.disk q.buf = true ↔ m ∉ s.acks := hstage
            rw [update_of_ne (h.owners.buf_ne hreq hreqq hu), hiff]
            simp [hm]
        | finish q m =>
          show m ∈ (s.returned.take (s.acked + 1)).map Job.serial
          rw [hacks]
          exact mem_append_left _ hstage
        | _ => exact hstage
      · refine { h.rings with
          usedIdx := ?_, used := fun {m j'} hm hj' => h.rings.used (Nat.le_of_succ_le hm) hj' }
        show s.usedIdx + 1 = UInt16.ofNat (s.acked + 1)
        rw [h.rings.usedIdx, UInt16.ofNat_add]
        rfl
    exact hcore.frame s₁.lock _ s₁.blockno s₁.stopped

/-! ## The device -/

omit [DecidableEq T] [DecidableEq B] in
theorem Core.fetch (h : Core s pl) (hne : UInt16.ofNat s.fetched ≠ s.availIdx) :
    Core s.fetch pl ∧ ∃ r, s.reqs[s.fetched]? = some r ∧ s.fetch.jobs = r.job s.fetched :: s.jobs := by
  have hlt : s.fetched < s.reqs.length := by
    refine Nat.lt_of_le_of_ne h.account.fetched fun heq => hne ?_
    rw [h.rings.availIdx, heq]
  have hfreed : s.fetched ∉ s.freed := fun hmem => Nat.lt_irrefl _ (h.account.freed_lt hmem)
  rcases h.account.live hlt hfreed with ⟨t, r, hflight⟩
  have hreqs := (h.account.known hflight).1
  have hformed := Places.formed_of_flight hflight
  have hok := h.chains.ok (Places.req_of_flight hflight)
  have hl := h.formed.linked hformed
  have hmem1 : r.idx.i1 ∈ r.idx.toList := by simp [Chain.toList]
  have hmem2 : r.idx.i2 ∈ r.idx.toList := by simp [Chain.toList]
  have hhead : (s.availRing (s.fetched % NUM)).toNat = r.idx.i0 := by
    rw [h.rings.avail (Nat.le_refl _) hreqs, toNat_ofNat16 (hok.2 _ (head_mem r.idx))]
  have hjob : s.readChain r.idx.i0 = r.job s.fetched := by
    simp only [State.readChain, State.header, hl.d0, toNat_ofNat16 (hok.2 _ hmem1), hl.d1,
      toNat_ofNat16 (hok.2 _ hmem2), hl.d2, hl.header, Req.job]
  have hjobs : s.fetch.jobs = r.job s.fetched :: s.jobs := by
    simp only [State.fetch, hhead, hjob]
  refine ⟨⟨h.owners, h.chains, { h.formed with }, ?_, fun {u k} hk => ?_, ?_⟩, r, hreqs, hjobs⟩
  · refine { h.account with perm := ?_, fetched := hlt, read := fun j hj => ?_ }
    · rw [hjobs]
      show (s.fetched :: (s.jobs ++ s.returned).map Job.serial).Perm (range (s.fetched + 1))
      rw [range_succ]
      exact (h.account.perm.cons s.fetched).trans (perm_append_singleton _ _).symm
    · rw [hjobs] at hj
      rcases mem_cons.1 hj with rfl | hj
      · exact ⟨r, hreqs, rfl⟩
      · exact h.account.read j hj
  · have hstage := h.stage hk
    cases k <;> exact hstage
  · exact { h.rings with avail := fun hm hq => h.rings.avail (Nat.le_of_succ_le hm) hq }

omit [DecidableEq T] [DecidableEq B] in
theorem Core.used_room (h : Core s pl) (hj : j ∈ s.jobs) : s.returned.length - s.acked < NUM := by
  rcases h.account.flight_of (mem_append_left _ hj) (h.account.job_not_freed hj) with
    ⟨t, r, hflight, -⟩
  have hnodup := h.account.serials_nodup
  rw [map_append, nodup_append] at hnodup
  have hsub : ((s.returned.drop s.acked).map Job.serial).Sublist (s.returned.map Job.serial) :=
    (drop_sublist _ _).map _
  have hlt := flights_lt h.chains h.account (hnodup.2.1.sublist hsub) (fun n hn => ?_)
    (Places.req_of_flight hflight) fun n hn r' heq => ?_
  · rwa [length_map, length_drop] at hlt
  · rcases mem_map.1 hn with ⟨j', hj', rfl⟩
    have hmem := mem_append_right s.jobs (mem_of_mem_drop hj')
    rcases h.account.flight_of hmem fun hfreed =>
      h.account.not_acked hj' (h.account.freed _ hfreed) with ⟨u, q, hq, -⟩
    exact ⟨u, q, hq⟩
  · rw [hflight] at heq
    cases heq
    exact hnodup.2.2 _ (mem_map_of_mem hj) _ (hsub.subset hn) rfl

omit [DecidableEq T] in
theorem Core.complete (h : Core s pl) (hj : j ∈ s.jobs) : Core (s.complete j) pl := by
  have hmem := mem_append_left s.returned hj
  rcases h.account.flight_of hmem (h.account.job_not_freed hj) with ⟨t, r, hflight, hjob⟩
  have hroom := h.used_room hj
  have hstatus : j.status = .status r.idx.i0 := congrArg Job.status hjob
  have hhead : j.head = r.idx.i0 := congrArg Job.head hjob
  have hslot : s.deviceIdx.toNat % NUM = s.returned.length % NUM := by
    rw [h.rings.deviceIdx, toNat_ofNat_mod]
  have hinfo : (s.complete j).info =
      update s.info r.idx.i0 { s.info r.idx.i0 with status := 0 } := by
    simp only [State.complete, hstatus, State.writeStatus]
  have hacks : (s.complete j).acks = s.acks := by
    show ((s.returned ++ [j]).take s.acked).map Job.serial = _
    rw [take_append_of_le_length h.account.acked]
    rfl
  have hperm : (s.jobs.erase j ++ (s.returned ++ [j])).Perm (s.jobs ++ s.returned) := by
    have hcons := perm_cons_erase hj
    calc s.jobs.erase j ++ (s.returned ++ [j])
        |>.Perm ((s.jobs.erase j ++ s.returned) ++ [j]) := by rw [append_assoc]
      _ |>.Perm (j :: (s.jobs.erase j ++ s.returned)) := perm_append_singleton _ _
      _ |>.Perm (s.jobs ++ s.returned) := (hcons.append_right s.returned).symm
  refine ⟨h.owners, h.chains, ⟨h.formed.linked, fun {u q} hq => ?_⟩, ?_, fun {u k} hk => ?_, ?_⟩
  · rw [hinfo]
    by_cases hi : q.idx.i0 = r.idx.i0
    · rw [hi, update_self, ← hi]
      exact h.formed.info hq
    · rw [update_of_ne hi]
      exact h.formed.info hq
  · refine { h.account with
      perm := ?_, acked := ?_, freed := fun m hm => ?_
      read := fun j' hj' => h.account.read j' (hperm.mem_iff.1 hj') }
    · exact (hperm.map Job.serial).trans h.account.perm
    · show s.acked ≤ (s.returned ++ [j]).length
      rw [length_append]
      exact h.account.acked.trans (Nat.le_add_right _ _)
    · rw [hacks]
      exact h.account.freed m hm
  · have hstage := h.stage hk
    cases k with
    | wait q m =>
      show s.disk q.buf = true ↔ m ∉ (s.complete j).acks
      rw [hacks]
      exact hstage
    | finish q m =>
      show m ∈ (s.complete j).acks
      rw [hacks]
      exact hstage
    | _ => exact hstage
  · refine { h.rings with deviceIdx := ?_, used := fun {m j'} hm hj' => ?_ }
    · show s.deviceIdx + 1 = UInt16.ofNat (s.returned ++ [j]).length
      rw [h.rings.deviceIdx, length_append, length_singleton, UInt16.ofNat_add]
      rfl
    · have hzero : ∀ i, (s.info i).status = 0 → ((s.complete j).info i).status = 0 := by
        intro i hi
        rw [hinfo]
        by_cases heq : i = r.idx.i0
        · rw [heq, update_self]
        · rw [update_of_ne heq]
          exact hi
      have hring : (s.complete j).usedRing =
          update s.usedRing (s.returned.length % NUM) (UInt32.ofNat j.head) := by
        simp only [State.complete, hslot]
      rw [hring]
      rcases getElem?_concat_cases hj' with ⟨hlt, hj'⟩ | ⟨rfl, rfl⟩
      · have hused := h.rings.used hm hj'
        rw [update_of_ne (slot_ne hm hlt hroom)]
        exact ⟨hused.1, hzero _ hused.2⟩
      · refine ⟨update_self _ _ _, ?_⟩
        rw [hinfo, hhead, update_self]

end Xv6Schedulers.Virtio
