import Xv6Schedulers.Virtio.Model

/-!
# Descriptors — `alloc3_desc`, `free_chain`

* `Frees s s' L`: descriptors `L` are marked free, sleepers may have been woken, the rest is as before.
* `alloc3Desc_spec`: three free descriptors are taken, or the free ones are the same as before.
* `freeChain_spec`: the three descriptors of a chain are freed.
-/

namespace Xv6Schedulers.Virtio

open State Function List

variable {T B : Type} {s s' s'' : State T B} {i : Nat} {L L' : List Nat}

/-! ## Sleepers -/

def State.place (s : State T B) (t : T) : Option (Place B) := (s.pc t).map Prod.snd

/-- Some sleepers have been woken. -/
def Woken (s s' : State T B) : Prop :=
  ∀ t, s'.pc t = s.pc t ∨ ∃ c k, s.pc t = some (.doze c, k) ∧ s'.pc t = some (.spin, k)

theorem Woken.refl (s : State T B) : Woken s s := fun _ => Or.inl rfl

theorem Woken.trans (h₁ : Woken s s') (h₂ : Woken s' s'') : Woken s s'' := by
  intro t
  rcases h₂ t with heq | ⟨c, k, hdoze, hspin⟩
  · rw [heq]
    exact h₁ t
  · rcases h₁ t with heq | ⟨c', k', -, hspin'⟩
    · exact Or.inr ⟨c, k, heq ▸ hdoze, hspin⟩
    · rw [hspin'] at hdoze
      cases hdoze

theorem Woken.place (h : Woken s s') (t : T) : s'.place t = s.place t := by
  rcases h t with heq | ⟨c, k, hdoze, hspin⟩
  · rw [State.place, heq]
    rfl
  · rw [State.place, State.place, hspin, hdoze]
    rfl

theorem Woken.hold_iff (h : Woken s s') (t : T) (k : Place B) :
    s'.pc t = some (.hold, k) ↔ s.pc t = some (.hold, k) := by
  rcases h t with heq | ⟨c, k', hdoze, hspin⟩
  · rw [heq]
  · rw [hspin, hdoze]
    exact iff_of_false (fun hk => by cases hk) (fun hk => by cases hk)

variable [DecidableEq B]

theorem woken_wakeup (s : State T B) (c : Chan B) : Woken s (s.wakeup c) := by
  intro t
  cases hpc : s.pc t with
  | none =>
    left
    simp only [wakeup, hpc]
  | some mk =>
    rcases mk with ⟨m, k⟩
    cases m with
    | spin =>
      left
      simp only [wakeup, hpc]
    | hold =>
      left
      simp only [wakeup, hpc]
    | doze c' =>
      simp only [wakeup, hpc]
      split
      · exact Or.inr ⟨c', k, rfl, rfl⟩
      · exact Or.inl rfl

/-! ## Giving descriptors back -/

/-- Descriptors `L` are freed. -/
structure Frees (s s' : State T B) (L : List Nat) : Prop where
  free : ∀ i, s'.free i = (decide (i ∈ L) || s.free i)
  desc : ∀ i, i ∉ L → s'.desc i = s.desc i
  woken : Woken s s'
  rest : s' = { s with desc := s'.desc, free := s'.free, pc := s'.pc }

omit [DecidableEq B] in
theorem Frees.nil (s : State T B) : Frees s s [] :=
  ⟨fun i => by simp, fun _ _ => rfl, Woken.refl s, rfl⟩

omit [DecidableEq B] in
theorem Frees.trans (h₁ : Frees s s' L) (h₂ : Frees s' s'' L') : Frees s s'' (L ++ L') where
  free i := by
    rw [h₂.free, h₁.free, ← Bool.or_assoc, Bool.or_comm (decide (i ∈ L')), ← Bool.decide_or]
    exact congrArg (· || s.free i) (decide_eq_decide.2 mem_append.symm)
  desc i hi := by
    rw [mem_append, not_or] at hi
    rw [h₂.desc i hi.2, h₁.desc i hi.1]
  woken := h₁.woken.trans h₂.woken
  rest := by
    calc s'' = { s' with desc := s''.desc, free := s''.free, pc := s''.pc } := h₂.rest
      _ = { s with desc := s''.desc, free := s''.free, pc := s''.pc } :=
        congrArg (fun u : State T B => { u with desc := s''.desc, free := s''.free, pc := s''.pc })
          h₁.rest

theorem freeDesc_spec (hi : i < NUM) (hfree : s.free i = false) :
    ∃ s', s.freeDesc i = .ok s' ∧ Frees s s' [i] := by
  refine ⟨wakeup { s with
      desc := update s.desc i ⟨.null, 0, 0, 0⟩
      free := update s.free i true } .free, ?_, ?_⟩
  · rw [freeDesc, if_neg (Nat.not_le.2 hi), hfree]
    rfl
  · refine ⟨fun j => ?_, fun j hj => ?_, woken_wakeup _ _, rfl⟩
    · by_cases hji : j = i
      · subst hji
        simp [wakeup]
      · simp [wakeup, hji]
    · have hji : j ≠ i := fun heq => hj (heq ▸ mem_singleton_self i)
      exact update_of_ne hji _ _

theorem freeAll_spec (hnodup : L.Nodup) (hL : ∀ i ∈ L, i < NUM ∧ s.free i = false) :
    ∃ s', s.freeAll L = .ok s' ∧ Frees s s' L := by
  induction L generalizing s with
  | nil => exact ⟨s, rfl, Frees.nil s⟩
  | cons i L ih =>
    rw [nodup_cons] at hnodup
    have hi := hL i mem_cons_self
    rcases freeDesc_spec hi.1 hi.2 with ⟨s₁, hok, hf⟩
    have hrest : ∀ j ∈ L, j < NUM ∧ s₁.free j = false := by
      intro j hj
      have hjL := hL j (mem_cons_of_mem _ hj)
      have hji : j ≠ i := by
        rintro rfl
        exact hnodup.1 hj
      refine ⟨hjL.1, ?_⟩
      rw [hf.free, hjL.2]
      simp [hji]
    rcases ih hnodup.2 hrest with ⟨s₂, hok', hf'⟩
    refine ⟨s₂, ?_, hf.trans hf'⟩
    rw [freeAll, hok]
    exact hok'

/-! ## Taking descriptors -/

/-- Descriptors `L` are taken. -/
structure Takes (s s' : State T B) (L : List Nat) : Prop where
  nodup : L.Nodup
  was : ∀ i ∈ L, i < NUM ∧ s.free i = true
  state : s' = { s with free := fun i => !decide (i ∈ L) && s.free i }

omit [DecidableEq B] in
omit [DecidableEq B] in
theorem allocDesc_some (h : s.allocDesc = some (i, s')) :
    i < NUM ∧ s.free i = true ∧ s' = { s with free := update s.free i false } := by
  unfold allocDesc at h
  cases hfind : (range NUM).find? s.free with
  | none =>
    rw [hfind] at h
    cases h
  | some j =>
    rw [hfind] at h
    cases h
    exact ⟨mem_range.1 (mem_of_find?_eq_some hfind), find?_some hfind, rfl⟩

theorem Takes.snoc (h : Takes s s' L) (halloc : s'.allocDesc = some (i, s'')) :
    Takes s s'' (L ++ [i]) := by
  rcases allocDesc_some halloc with ⟨hi, hfree, rfl⟩
  have hstate := h.state
  have hold : i ∉ L ∧ s.free i = true := by
    rw [hstate] at hfree
    simpa using hfree
  refine ⟨?_, ?_, ?_⟩
  · rw [nodup_append]
    refine ⟨h.nodup, nodup_singleton i, ?_⟩
    rintro a ha b hb rfl
    rw [mem_singleton] at hb
    exact hold.1 (hb ▸ ha)
  · intro j hj
    rcases mem_append.1 hj with hj | hj
    · exact h.was j hj
    · rw [mem_singleton] at hj
      subst hj
      exact ⟨hi, hold.2⟩
  · have hfun : update s'.free i false = fun j => !decide (j ∈ L ++ [i]) && s.free j := by
      funext j
      by_cases hji : j = i
      · subst hji
        simp
      · rw [update_of_ne hji, hstate]
        simp [hji]
    rw [hfun, hstate]

/-- A failed allocation: what was taken has been given back. -/
structure Restored (s s' : State T B) : Prop where
  free : s'.free = s.free
  desc : ∀ i, s.free i = false → s'.desc i = s.desc i
  woken : Woken s s'
  rest : s' = { s with desc := s'.desc, free := s'.free, pc := s'.pc }

theorem Takes.giveBack (h : Takes s s' L) : ∃ s'', s'.freeAll L = .ok s'' ∧ Restored s s'' := by
  have hstate := h.state
  have htaken : ∀ i ∈ L, i < NUM ∧ s'.free i = false := by
    intro i hi
    refine ⟨(h.was i hi).1, ?_⟩
    rw [hstate]
    simp [hi]
  rcases freeAll_spec h.nodup htaken with ⟨s'', hok, hf⟩
  refine ⟨s'', hok, ?_, fun i hi => ?_, ?_, ?_⟩
  · funext i
    rw [hf.free, hstate]
    by_cases hi : i ∈ L
    · simp [hi, (h.was i hi).2]
    · simp [hi]
  · have hiL : i ∉ L := by
      intro hmem
      rw [(h.was i hmem).2] at hi
      cases hi
    rw [hf.desc i hiL, hstate]
  · intro t
    have hpc := hf.woken t
    rw [hstate] at hpc
    exact hpc
  · have hrest := hf.rest
    rw [hstate] at hrest
    exact hrest

/-- The loop of `alloc3_desc`, with `L` already taken from `s`: it takes all, or gives all back. -/
theorem allocMore_spec (k : Nat) (h : Takes s s' L) :
    (∃ L' s'', allocMore k s' L = .ok (some L', s'') ∧ L'.length = L.length + k ∧ Takes s s'' L') ∨
      ∃ s'', allocMore k s' L = .ok (none, s'') ∧ Restored s s'' := by
  induction k generalizing s' L with
  | zero => exact Or.inl ⟨L, s', rfl, rfl, h⟩
  | succ k ih =>
    cases halloc : s'.allocDesc with
    | some found =>
      rcases found with ⟨i, s₁⟩
      have hrun : allocMore (k + 1) s' L = allocMore k s₁ (L ++ [i]) := by
        rw [allocMore, halloc]
      rw [hrun]
      rcases ih (h.snoc halloc) with ⟨L', s'', hok, hlen, ht⟩ | hfail
      · refine Or.inl ⟨L', s'', hok, ?_, ht⟩
        rw [hlen, length_append, length_singleton]
        omega
      · exact Or.inr hfail
    | none =>
      rcases h.giveBack with ⟨s'', hok, hr⟩
      refine Or.inr ⟨s'', ?_, hr⟩
      rw [allocMore, halloc]
      simp only [hok, Except.map]

/-- `alloc3_desc` takes three free descriptors, or leaves the free ones as they were. -/
theorem alloc3Desc_spec (s : State T B) :
    (∃ c s', s.alloc3Desc = .ok (some c, s') ∧ Takes s s' c.toList) ∨
      ∃ s', s.alloc3Desc = .ok (none, s') ∧ Restored s s' := by
  have hnone : Takes s s [] := ⟨nodup_nil, (fun _ hi => nomatch hi), by simp⟩
  rcases allocMore_spec 3 hnone with ⟨L, s', hok, hlen, ht⟩ | ⟨s', hok, hr⟩
  · match L, hlen with
    | [i0, i1, i2], _ =>
      refine Or.inl ⟨⟨i0, i1, i2⟩, s', ?_, ht⟩
      rw [alloc3Desc, hok]
  · refine Or.inr ⟨s', ?_, hr⟩
    rw [alloc3Desc, hok]

/-! ## A formatted chain -/

/-- The descriptors of a request are linked as `virtio_disk_rw` writes them. -/
structure Linked (desc : Nat → Desc B) (ops : Nat → BlkReq) (r : Req B) : Prop where
  d0 : desc r.idx.i0 = ⟨.ops r.idx.i0, 16, VRING_DESC_F_NEXT, UInt16.ofNat r.idx.i1⟩
  d1 : desc r.idx.i1 = ⟨.data r.buf, BSIZE,
    (if r.write then 0 else VRING_DESC_F_WRITE) ||| VRING_DESC_F_NEXT, UInt16.ofNat r.idx.i2⟩
  d2 : desc r.idx.i2 = ⟨.status r.idx.i0, 1, VRING_DESC_F_WRITE, 0⟩
  header : ops r.idx.i0 = r.header

/-- Three different descriptors. -/
def Chain.Ok (c : Chain) : Prop := c.toList.Nodup ∧ ∀ i ∈ c.toList, i < NUM

theorem toNat_ofNat16 (hi : i < NUM) : (UInt16.ofNat i).toNat = i := by
  rw [UInt16.toNat_ofNat']
  exact Nat.mod_eq_of_lt (hi.trans (by decide))

theorem toNat_ofNat32 (hi : i < NUM) : (UInt32.ofNat i).toNat = i := by
  rw [UInt32.toNat_ofNat']
  exact Nat.mod_eq_of_lt (hi.trans (by decide))

theorem freeChain_next {k : Nat} {d : Desc B} (hi : i < NUM) (hfree : s.free i = false)
    (hd : s.desc i = d) :
    ∃ s', Frees s s' [i] ∧ freeChain (k + 1) s i =
      if d.flags &&& VRING_DESC_F_NEXT ≠ 0 then freeChain k s' d.next.toNat else .ok s' := by
  rcases freeDesc_spec hi hfree with ⟨s', hok, hf⟩
  refine ⟨s', hf, ?_⟩
  rw [freeChain, hok, hd]

theorem freeChain_spec {r : Req B} (hok : r.idx.Ok) (hl : Linked s.desc s.ops r)
    (hfree : ∀ i ∈ r.idx.toList, s.free i = false) :
    ∃ s', freeChain (NUM + 1) s r.idx.i0 = .ok s' ∧ Frees s s' r.idx.toList := by
  have h0 : r.idx.i0 ∈ r.idx.toList := by simp [Chain.toList]
  have h1 : r.idx.i1 ∈ r.idx.toList := by simp [Chain.toList]
  have h2 : r.idx.i2 ∈ r.idx.toList := by simp [Chain.toList]
  have hne : r.idx.i0 ≠ r.idx.i1 ∧ r.idx.i0 ≠ r.idx.i2 ∧ r.idx.i1 ≠ r.idx.i2 := by
    have hnodup := hok.1
    simp only [Chain.toList, nodup_cons, mem_cons, not_mem_nil, or_false, not_or]
      at hnodup
    exact ⟨hnodup.1.1, hnodup.1.2, hnodup.2.1⟩
  rcases freeChain_next (k := 8) (hok.2 _ h0) (hfree _ h0) hl.d0 with ⟨s₁, hf₁, hrun₁⟩
  have hd1 : s₁.desc r.idx.i1 = s.desc r.idx.i1 := hf₁.desc _ (by simp [hne.1.symm])
  have hd2 : s₁.desc r.idx.i2 = s.desc r.idx.i2 := hf₁.desc _ (by simp [hne.2.1.symm])
  have hfree1 : s₁.free r.idx.i1 = false := by
    rw [hf₁.free, hfree _ h1]
    simp [hne.1.symm]
  have hfree2 : s₁.free r.idx.i2 = false := by
    rw [hf₁.free, hfree _ h2]
    simp [hne.2.1.symm]
  rcases freeChain_next (k := 7) (hok.2 _ h1) hfree1 (hd1.trans hl.d1) with ⟨s₂, hf₂, hrun₂⟩
  have hd2' : s₂.desc r.idx.i2 = s.desc r.idx.i2 := (hf₂.desc _ (by simp [hne.2.2.symm])).trans hd2
  have hfree2' : s₂.free r.idx.i2 = false := by
    rw [hf₂.free, hfree2]
    simp [hne.2.2.symm]
  rcases freeChain_next (k := 6) (hok.2 _ h2) hfree2' (hd2'.trans hl.d2) with ⟨s₃, hf₃, hrun₃⟩
  refine ⟨s₃, ?_, (hf₁.trans hf₂).trans hf₃⟩
  have hnext : VRING_DESC_F_NEXT &&& VRING_DESC_F_NEXT ≠ 0 := by decide
  have hlast : ¬VRING_DESC_F_WRITE &&& VRING_DESC_F_NEXT ≠ 0 := by decide
  have hflag : ((if r.write then (0 : UInt16) else VRING_DESC_F_WRITE) ||| VRING_DESC_F_NEXT)
      &&& VRING_DESC_F_NEXT ≠ 0 := by
    cases r.write <;> decide
  calc freeChain (NUM + 1) s r.idx.i0
      = freeChain 8 s₁ (UInt16.ofNat r.idx.i1).toNat := by
        rw [NUM, hrun₁, if_pos hnext]
    _ = freeChain 8 s₁ r.idx.i1 := by rw [toNat_ofNat16 (hok.2 _ h1)]
    _ = freeChain 7 s₂ (UInt16.ofNat r.idx.i2).toNat := by rw [hrun₂, if_pos hflag]
    _ = freeChain 7 s₂ r.idx.i2 := by rw [toNat_ofNat16 (hok.2 _ h2)]
    _ = .ok s₃ := by rw [hrun₃, if_neg hlast]

end Xv6Schedulers.Virtio
