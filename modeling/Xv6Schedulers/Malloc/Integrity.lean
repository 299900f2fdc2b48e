import Xv6Schedulers.Malloc.FreeList

/-!
# Integrity — the heap under every sequence of `malloc` and `free`

* `allocAt_spec`: `malloc` takes a whole block off the list, or the end of one.
* `morecore_spec`: new memory is freed into the list, which then has a block of the size asked for.
* `mallocLoop_once`: the loop finds a block, or comes back to `freep` and calls `morecore`; after
  that it finds one, so it ends.
* `heap_integrity`: what holds after every call.
-/

namespace Xv6Schedulers.Malloc

open Lib Circle Machine Function

variable {h h' : Heap} {B F G : List Nat} {a b p q bp fp prevp : Nat} {k : Nat}

/-! ## Taking a block -/

/-- What `malloc` does when it has found a block: `q` leaves the free list. -/
structure Taken (h h' : Heap) (F F' G : List Nat) (q k : Nat) : Prop where
  links : Links h' F'
  cut : Cut h' (q :: (F' ++ G))
  freep : ∃ p ∈ h'.base :: F', h'.freep = some p
  size : h'.size q = k
  kept : ∀ a ∈ G, h'.size a = h.size a
  same : SameMemory h h'
  touched : ∀ x ∈ h'.touched, x = q ∨ x ∈ h.base :: F ∨ x ∈ h.touched

theorem allocAt_whole (hl : Links h F) (hc : Cut h (F ++ G)) (hprev : prevp ∈ h.base :: F)
    (hp : h.ptr prevp ∈ F) (hk : h.size (h.ptr prevp) = k) :
    ∃ F', Taken h { h.setPtr prevp (h.ptr (h.ptr prevp)) with freep := some prevp } F F' G
      (h.ptr prevp) k := by
  rcases Before.of_mem hl.ring hprev with ⟨L, R, rfl, hb⟩
  have hlead := hb.leads_iff.1 hl.ring
  have hbase : h.ptr prevp ≠ h.base := Nat.ne_of_gt (hl.base_lt hp)
  cases R with
  | nil => exact absurd hlead hbase
  | cons r R =>
    have hlink : h.ptr prevp = r := hlead.1
    have hsub : (L ++ R).Sublist (L ++ r :: R) := (List.sublist_cons_self r R).append_left L
    have hLnodup : (h.base :: L).Nodup := hl.nodup.sublist ((List.sublist_append_left L _).cons₂ _)
    have hprevR : ∀ y ∈ R, y ≠ prevp := by
      intro y hy
      have hs := hl.sorted
      rw [← List.cons_append, List.pairwise_append] at hs
      exact Nat.ne_of_gt (hs.2.2 prevp hb.mem y (List.mem_cons_of_mem _ hy))
    have hother : ∀ y, y ≠ prevp → update h.ptr prevp (h.ptr (h.ptr prevp)) y = h.ptr y :=
      fun y hy => update_of_ne hy _ h.ptr
    refine ⟨L ++ R, ⟨?_, hl.sorted.sublist (hsub.cons₂ _), ?_, hl.empty⟩, ?_,
      ⟨prevp, ?_, rfl⟩, hk, fun _ _ => rfl, ⟨rfl, rfl, rfl, rfl⟩, ?_⟩
    · have hb' := hb.congr hLnodup fun y _ hy => hother y hy
      refine hb'.leads_iff.2 (hlead.2.replace ?_ fun y hy => hother y (hprevR y hy))
      show update h.ptr prevp (h.ptr (h.ptr prevp)) prevp = h.ptr r
      rw [update_self, hlink]
    · exact fun a ha b hb' => hl.joined a (hsub.subset ha) b (hsub.subset hb')
    · have hperm : (L ++ r :: R ++ G).Perm (h.ptr prevp :: (L ++ R ++ G)) := by
        rw [hlink, List.append_assoc, List.append_assoc, List.cons_append]
        exact List.perm_middle
      exact (hc.perm hperm).congr ⟨rfl, rfl, rfl, rfl⟩ fun _ _ => rfl
    · rcases List.mem_cons.1 hb.mem with heq | hmem
      · rw [heq]
        exact List.mem_cons_self
      · exact List.mem_cons_of_mem _ (List.mem_append_left _ hmem)
    · intro x hx
      simp only [Heap.setPtr, List.mem_cons] at hx
      rcases hx with rfl | hx
      · exact Or.inr (Or.inl hprev)
      · exact Or.inr (Or.inr hx)

theorem allocAt_end (hl : Links h F) (hc : Cut h (F ++ G)) (hprev : prevp ∈ h.base :: F)
    (hp : p ∈ F) (hk : 0 < k) (hlt : k < h.size p) (hq : q = p + HEADER * (h.size p - k)) :
    Taken h { (h.setSize p (h.size p - k)).setSize q k with freep := some prevp } F F G q k := by
  have hqp : q ≠ p := by
    simp only [HEADER] at hq
    omega
  rcases List.append_of_mem hp with ⟨L, R, rfl⟩
  have hperm : (L ++ p :: R ++ G).Perm (p :: (L ++ R ++ G)) := by
    rw [List.append_assoc, List.append_assoc, List.cons_append]
    exact List.perm_middle
  have hcut := hc.perm hperm
  have hpin : p ∈ L ++ p :: R ++ G := hperm.mem_iff.2 List.mem_cons_self
  -- the new header is inside the old block, where no other block begins
  have hqB : ∀ c ∈ L ++ p :: R ++ G, c ≠ q := by
    rintro c hcB rfl
    refine hqp (hc.tiling.disjoint hpin hcB ?_ ?_).symm
    · omega
    · simp only [Heap.len, HEADER] at hq ⊢
      omega
  have hsize : ∀ c, c ≠ p → c ≠ q → update (update h.size p (h.size p - k)) q k c = h.size c := by
    intro c hcp hcq
    rw [update_of_ne hcq, update_of_ne hcp]
  have hsizep : update (update h.size p (h.size p - k)) q k p = h.size p - k := by
    rw [update_of_ne hqp.symm, update_self]
  have hnodup := hcut.tiling.nodup
  have hbaseB := hc.not_mem_base
  have hbase : h.base ≠ p ∧ h.base ≠ q := by
    have habove := hc.above p hpin
    constructor
    · rintro heq
      exact hbaseB (heq ▸ hpin)
    · rintro heq
      simp only [HEADER] at habove
      omega
  refine ⟨⟨hl.ring, hl.sorted, ?_, ?_⟩, ?_, ⟨prevp, hprev, rfl⟩, update_self _ _ _, ?_,
    ⟨rfl, rfl, rfl, rfl⟩, ?_⟩
  · intro c hcF d hdF heq
    by_cases hcp : c = p
    · subst hcp
      apply hqB d (List.mem_append_left _ hdF)
      refine heq.symm.trans (Eq.trans ?_ hq.symm)
      exact congrArg (fun m => c + HEADER * m) hsizep
    · apply hl.joined c hcF d hdF
      rw [← heq]
      exact congrArg (fun m => c + HEADER * m)
        (hsize c hcp (hqB c (List.mem_append_left _ hcF))).symm
  · exact (hsize h.base hbase.1 hbase.2).trans hl.empty
  · have hsplit : Cut { (h.setSize p (h.size p - k)).setSize q k with freep := some prevp }
        (q :: p :: (L ++ R ++ G)) := by
      refine hcut.split ⟨rfl, rfl, rfl, rfl⟩ hk hlt hsizep ?_ (update_self _ _ _) ?_
      · exact hq.trans (congrArg (fun m => p + HEADER * m) hsizep.symm)
      · intro c hcB
        have hcp : c ≠ p := by
          rintro rfl
          exact (List.nodup_cons.1 hnodup).1 hcB
        exact hsize c hcp (hqB c (hperm.mem_iff.2 (List.mem_cons_of_mem _ hcB)))
    exact hsplit.perm (List.Perm.cons q hperm.symm)
  · intro c hcG
    have hcB : c ∈ L ++ p :: R ++ G := List.mem_append_right _ hcG
    have hcp : c ≠ p := by
      rintro rfl
      exact (List.nodup_cons.1 hnodup).1 (List.mem_append_right _ hcG)
    exact hsize c hcp (hqB c hcB)
  · intro x hx
    simp only [Heap.setSize, List.mem_cons] at hx
    rcases hx with rfl | rfl | hx
    · exact Or.inl rfl
    · exact Or.inr (Or.inl (List.mem_cons_of_mem _ hp))
    · exact Or.inr (Or.inr hx)

theorem allocAt_spec (hl : Links h F) (hc : Cut h (F ++ G)) (hprev : prevp ∈ h.base :: F)
    (hk : 0 < k) (hle : k ≤ h.size (h.ptr prevp)) :
    ∃ F', Taken h (h.allocAt prevp (h.ptr prevp) k).2 F F' G
      (h.allocAt prevp (h.ptr prevp) k).1 k := by
  have hp : h.ptr prevp ∈ F := by
    rcases hl.next hprev with ⟨hmem, -⟩ | ⟨heq, -⟩
    · exact hmem
    · rw [heq, hl.empty] at hle
      omega
  unfold Heap.allocAt
  by_cases heq : h.size (h.ptr prevp) = k
  · rw [if_pos heq]
    exact allocAt_whole hl hc hprev hp heq
  · rw [if_neg heq]
    refine ⟨F, allocAt_end hl hc hprev hp hk (Nat.lt_of_le_of_ne hle (Ne.symm heq)) ?_⟩
    show _ = h.ptr prevp + HEADER * _
    exact congrArg (fun m => h.ptr prevp + HEADER * m) (update_self _ _ _)

/-! ## What a call keeps -/

/-- The list and the blocks between two steps; `G` are the blocks in use. -/
structure Ready (h : Heap) (F G : List Nat) : Prop where
  links : Links h F
  cut : Cut h (F ++ G)
  freep : ∃ p ∈ h.base :: F, h.freep = some p

/-- The header at `x` is outside the blocks at `G`. -/
def Heap.Clear (h : Heap) (G : List Nat) (x : Nat) : Prop :=
  ∀ b ∈ G, x + HEADER ≤ b ∨ b + h.len b ≤ x

/-- The blocks at `G` are as before, and no header inside them has been written. -/
structure Kept (h h' : Heap) (G : List Nat) : Prop where
  base : h'.base = h.base
  live : h'.live = h.live
  size : ∀ b ∈ G, h'.size b = h.size b
  touched : ∀ x ∈ h'.touched, h.Clear G x ∨ x ∈ h.touched

theorem Kept.clear (hk : Kept h h' G) {x : Nat} (hx : h'.Clear G x) : h.Clear G x := by
  intro b hb
  rw [← len_eq (hk.size b hb)]
  exact hx b hb

theorem Kept.trans {h₁ h₂ h₃ : Heap} (h₁₂ : Kept h₁ h₂ G) (h₂₃ : Kept h₂ h₃ G) : Kept h₁ h₃ G where
  base := h₂₃.base.trans h₁₂.base
  live := h₂₃.live.trans h₁₂.live
  size b hb := (h₂₃.size b hb).trans (h₁₂.size b hb)
  touched x hx := by
    rcases h₂₃.touched x hx with hclear | hx
    · exact Or.inl (h₁₂.clear hclear)
    · exact h₁₂.touched x hx

theorem Cut.clear (hc : Cut h (F ++ G)) {x : Nat} (hx : x ∈ h.base :: F) : h.Clear G x := by
  intro b hb
  have hb' : b ∈ F ++ G := List.mem_append_right _ hb
  rcases List.mem_cons.1 hx with rfl | hx
  · exact Or.inl (hc.above b hb')
  · have hx' : x ∈ F ++ G := List.mem_append_left _ hx
    have hne : x ≠ b := by
      rintro rfl
      exact (List.nodup_append.1 hc.tiling.nodup).2.2 x hx x hb rfl
    have hpos := hc.tiling.pos x hx'
    have hapart := hc.tiling.apart x hx' b hb' hne
    simp only [Heap.len, HEADER] at hpos hapart ⊢
    omega

theorem Freed.ready {F' : List Nat} (hf : Freed h h' F F' G bp) : Ready h' F' G :=
  ⟨hf.links, hf.cut, hf.freep⟩

theorem Freed.keeps {F' : List Nat} (hf : Freed h h' F F' G bp) (hc : Cut h (bp :: (F ++ G))) :
    Kept h h' G where
  base := hf.same.base
  live := hf.same.live
  size := hf.kept
  touched x hx := by
    have hclear : ∀ y ∈ h.base :: (bp :: F), h.Clear G y := fun y hy => Cut.clear (F := bp :: F) hc hy
    rcases hf.touched x hx with rfl | hx | hx
    · exact Or.inl (hclear x (List.mem_cons_of_mem _ List.mem_cons_self))
    · rcases List.mem_cons.1 hx with rfl | hx
      · exact Or.inl (hclear _ List.mem_cons_self)
      · exact Or.inl (hclear x (List.mem_cons_of_mem _ (List.mem_cons_of_mem _ hx)))
    · exact Or.inr hx

theorem Taken.ready {F' : List Nat} (ht : Taken h h' F F' G q k) : Ready h' F' (q :: G) :=
  ⟨ht.links, ht.cut.perm List.perm_middle.symm, ht.freep⟩

theorem Taken.keeps {F' : List Nat} (ht : Taken h h' F F' G q k) (hc : Cut h (F ++ G)) :
    Kept h h' G where
  base := ht.same.base
  live := ht.same.live
  size := ht.kept
  touched x hx := by
    rcases ht.touched x hx with rfl | hx | hx
    · have hclear : h'.Clear G x :=
        Cut.clear (F := x :: F') ht.cut (List.mem_cons_of_mem _ List.mem_cons_self)
      refine Or.inl fun b hb => ?_
      rw [← len_eq (ht.kept b hb)]
      exact hclear b hb
    · exact Or.inl (hc.clear hx)
    · exact Or.inr hx

/-! ## New memory -/

theorem toInt_toNat {n : Nat} (hn : n < 2 ^ 32) (hpos : 0 ≤ Heap.toInt n) :
    (Heap.toInt n).toNat = n := by
  unfold Heap.toInt at hpos ⊢
  rw [Nat.mod_eq_of_lt hn] at hpos ⊢
  by_cases hlt : n < 2 ^ 31
  · rw [if_pos hlt, Int.toNat_natCast]
  · rw [if_neg hlt] at hpos
    omega

theorem Cut.obtain (hc : Cut h B) (hk : 0 < k) (hbound : h.total + k * HEADER < 2 ^ 31)
    {hp : Nat} (hp_top : h.top ≤ hp) :
    Cut (({ h with top := hp + k * HEADER, regions := (hp, k * HEADER) :: h.regions } : Heap).setSize
      hp k) (hp :: B) := by
  have hlow : ∀ c ∈ B, c + h.len c ≤ hp := fun c hcB => (hc.below c hcB).trans hp_top
  have hne : ∀ c ∈ B, c ≠ hp := by
    rintro c hcB rfl
    have hpos := hc.tiling.pos c hcB
    have hle := hlow c hcB
    omega
  have hself : HEADER * update h.size hp k hp = k * HEADER := by
    rw [update_self, Nat.mul_comm]
  have hrest : ∀ c ∈ B, HEADER * update h.size hp k c = h.len c := by
    intro c hcB
    rw [update_of_ne (hne c hcB)]
    rfl
  have htop := hc.top
  refine ⟨?_, fun c hcB => ?_, fun c hcB => ?_, ?_, ?_, ?_⟩
  · have hadd : Tiling (fun c => HEADER * update h.size hp k c) (hp :: B) _ :=
      hc.tiling.add hself (Nat.mul_pos hk (by decide)) (fun c hcB => Or.inl (hlow c hcB)) hrest
    have hobt : ∀ x, ((hp ≤ x ∧ x < hp + k * HEADER) ∨ h.Obtained x) ↔
        ∃ r ∈ (hp, k * HEADER) :: h.regions, r.1 ≤ x ∧ x < r.1 + r.2 := by
      intro x
      simp only [List.mem_cons, exists_eq_or_imp]
      rfl
    exact ⟨hadd.nodup, hadd.pos, hadd.apart, fun x => (hobt x).symm.trans (hadd.cover x)⟩
  · rcases List.mem_cons.1 hcB with rfl | hcB
    · exact htop.trans hp_top
    · exact hc.above c hcB
  · show c + HEADER * update h.size hp k c ≤ hp + k * HEADER
    rcases List.mem_cons.1 hcB with rfl | hcB
    · rw [hself]
    · rw [hrest c hcB]
      exact (hlow c hcB).trans (Nat.le_add_right _ _)
  · show HEADER * update h.size hp k hp + _ = k * HEADER + h.total
    rw [hself, ← hc.sum]
    exact congrArg (k * HEADER + ·) (congrArg List.sum (List.map_congr_left hrest))
  · show k * HEADER + h.total < 2 ^ 31
    omega
  · exact (htop.trans hp_top).trans (Nat.le_add_right _ _)

/-- The heap with the `n` headers that `sbrk` has returned at `hp`. -/
def Heap.extend (h : Heap) (hp n : Nat) : Heap :=
  { h with top := hp + n * HEADER, regions := (hp, n * HEADER) :: h.regions }

/-- The list `F'` of `h'` has the new block, joined to what is next to it. -/
structure Extended (h h' : Heap) (F F' G : List Nat) (hp n : Nat) : Prop where
  ready : Ready h' F' G
  kept : Kept h h' G
  length : F'.length ≤ F.length + 1
  room : ∃ a ∈ F', n ≤ h'.size a
  top : h'.top = hp + n * HEADER
  total : h'.total = n * HEADER + h.total

theorem Ready.extend (hr : Ready h F G) {n hp : Nat} (hn : 0 < n)
    (hbound : h.total + n * HEADER < 2 ^ 31) (hp_top : h.top ≤ hp) :
    ∃ p h' F', ((h.extend hp n).setSize hp n).free hp = some h' ∧ h'.freep = some p ∧
      Extended h h' F F' G hp n := by
  have hcut : Cut ((h.extend hp n).setSize hp n) (hp :: (F ++ G)) := hr.cut.obtain hn hbound hp_top
  have hnew := (List.nodup_cons.1 hcut.tiling.nodup).1
  -- the links are as they were: the new header is above all members
  have hne : ∀ c ∈ h.base :: F, c ≠ hp := by
    intro c hcF
    rcases List.mem_cons.1 hcF with rfl | hcF
    · intro heq
      have htop := hr.cut.top
      simp only [HEADER] at htop
      omega
    · rintro rfl
      exact hnew (List.mem_append_left _ hcF)
  have hsize : ∀ c ∈ h.base :: F, update h.size hp n c = h.size c := fun c hcF =>
    update_of_ne (hne c hcF) _ _
  have hlinks : Links ((h.extend hp n).setSize hp n) F := by
    refine ⟨hr.links.ring, hr.links.sorted, fun a ha b hb => ?_, ?_⟩
    · show a + HEADER * update h.size hp n a ≠ b
      rw [hsize a (List.mem_cons_of_mem _ ha)]
      exact hr.links.joined a ha b hb
    · exact (hsize h.base List.mem_cons_self).trans hr.links.empty
  rcases hr.freep with ⟨fp, hfp, hfreep⟩
  rcases free_spec hlinks hcut hfp hfreep with ⟨h', F', hfree, hf⟩
  rcases hf.freep with ⟨p, -, hp'⟩
  have hneG : ∀ b ∈ G, b ≠ hp := by
    rintro b hb rfl
    exact hnew (List.mem_append_right _ hb)
  have hfirst : Kept h ((h.extend hp n).setSize hp n) G := by
    refine ⟨rfl, rfl, fun b hb => update_of_ne (hneG b hb) _ _, fun x hx => ?_⟩
    rcases List.mem_cons.1 hx with rfl | hx
    · left
      intro b hb
      exact Or.inr ((hr.cut.below b (List.mem_append_right _ hb)).trans hp_top)
    · exact Or.inr hx
  rcases hf.room with ⟨a, ha, hroom⟩
  have hself : update h.size hp n hp = n := update_self _ _ _
  refine ⟨p, h', F', hfree, hp', hf.ready, hfirst.trans (hf.keeps hcut), hf.length,
    ⟨a, ha, hself.symm.le.trans hroom⟩, hf.same.top, ?_⟩
  rw [Heap.total, hf.same.regions]
  rfl

/-- `morecore` fails and changes nothing, or the list has a block of the size asked for. -/
theorem morecore_spec (hr : Ready h F G) {nu : Nat} (hnu : nu * HEADER < 2 ^ 32)
    (ans : Option Nat) :
    h.morecore nu ans = some (none, h) ∨
      ∃ p h' F', h.morecore nu ans = some (some p, h') ∧ h'.freep = some p ∧ Ready h' F' G ∧
        Kept h h' G ∧ F'.length ≤ F.length + 1 ∧ ∃ a ∈ F', nu ≤ h'.size a := by
  obtain ⟨n, hn⟩ : ∃ n, n = if nu < 4096 then 4096 else nu := ⟨_, rfl⟩
  have hle : nu ≤ n ∧ 0 < n ∧ n * HEADER < 2 ^ 32 := by
    rw [hn]
    simp only [HEADER] at hnu ⊢
    split <;> omega
  simp only [Heap.morecore, ← hn]
  cases ans with
  | none => exact Or.inl rfl
  | some gap =>
    by_cases hok : 0 ≤ Heap.toInt (n * HEADER) ∧ h.total + (Heap.toInt (n * HEADER)).toNat < 2 ^ 31
    · right
      simp only [Heap.sbrk, if_pos hok]
      rw [toInt_toNat hle.2.2 hok.1] at hok ⊢
      rcases hr.extend hle.2.1 hok.2 (Nat.le_add_right h.top gap) with
        ⟨p, h', F', hfree, hp, hext⟩
      rcases hext.room with ⟨a, ha, hroom⟩
      refine ⟨p, h', F', ?_, hp, hext.ready, hext.kept, hext.length, a, ha, hle.1.trans hroom⟩
      rw [← hp]
      exact congrArg (Option.bind · fun h => some (h.freep, h)) hfree
    · left
      simp only [Heap.sbrk, if_neg hok]

/-! ## The loop of `malloc` -/

/-- Once around the list, for any loop that passes over what is too small: it comes to a block that is
large enough, or back to `freep` with none found. -/
theorem walk_once {β : Type} (loop : Nat → Nat → Nat → β) {k : Nat}
    (hskip : ∀ n prevp p, ¬k ≤ h.size p → ¬h.freep = some p →
      loop (n + 1) prevp p = loop n p (h.ptr p))
    {l : List Nat} (hlead : Leads h.ptr prevp l fp) (hfreep : h.freep = some fp) (hfp : fp ∉ l)
    {n : Nat} (hn : l.length < n) :
    (∃ p ∈ prevp :: l, k ≤ h.size (h.ptr p) ∧
      ∃ m, loop n prevp (h.ptr prevp) = loop (m + 1) p (h.ptr p)) ∨
    ((∀ y ∈ l ++ [fp], h.size y < k) ∧
      ∃ p, loop n prevp (h.ptr prevp) = loop (n - l.length - 1 + 1) p fp) := by
  induction l generalizing prevp n with
  | nil =>
    have hptr : h.ptr prevp = fp := hlead
    have hpos : n - 0 - 1 + 1 = n := Nat.sub_add_cancel hn
    by_cases hle : k ≤ h.size (h.ptr prevp)
    · refine Or.inl ⟨prevp, List.mem_singleton_self _, hle, n - 0 - 1, ?_⟩
      rw [hpos]
    · rw [hptr] at hle ⊢
      refine Or.inr ⟨by simpa using hle, prevp, ?_⟩
      rw [List.length_nil, hpos]
  | cons y l ih =>
    have hptr : h.ptr prevp = y := hlead.1
    obtain ⟨n, rfl⟩ := Nat.exists_eq_succ_of_ne_zero (Nat.ne_zero_of_lt hn)
    by_cases hle : k ≤ h.size (h.ptr prevp)
    · exact Or.inl ⟨prevp, List.mem_cons_self, hle, n, rfl⟩
    · have hnot : ¬h.freep = some y := by
        rw [hfreep]
        intro heq
        exact hfp (Option.some.inj heq ▸ List.mem_cons_self)
      rw [hptr] at hle ⊢
      rw [hskip n prevp y hle hnot]
      have hshort : l.length < n := Nat.lt_of_succ_lt_succ hn
      rcases ih hlead.2 (fun hmem => hfp (List.mem_cons_of_mem _ hmem)) hshort with
        ⟨p, hp, hsize, hrun⟩ | ⟨hall, p, hrun⟩
      · exact Or.inl ⟨p, List.mem_cons_of_mem _ hp, hsize, hrun⟩
      · refine Or.inr ⟨fun z hz => ?_, p, ?_⟩
        · rcases List.mem_cons.1 hz with rfl | hz
          · exact Nat.lt_of_not_le hle
          · exact hall z hz
        · rw [hrun, List.length_cons, Nat.succ_sub_succ]

/-- The loop takes the first block that is large enough, or comes back to `freep`, finds none, and
asks for memory. -/
theorem mallocLoop_once {l : List Nat} (hlead : Leads h.ptr prevp l fp)
    (hfreep : h.freep = some fp) (hfp : fp ∉ l) (k : Nat) (ans : Option Nat) {n : Nat}
    (hn : l.length < n) :
    (∃ p ∈ prevp :: l, k ≤ h.size (h.ptr p) ∧ Heap.mallocLoop k ans n h prevp (h.ptr prevp) =
        some (some (h.allocAt p (h.ptr p) k).1, (h.allocAt p (h.ptr p) k).2)) ∨
    ((∀ y ∈ l ++ [fp], h.size y < k) ∧ Heap.mallocLoop k ans n h prevp (h.ptr prevp) =
        match h.morecore k ans with
        | none => none
        | some (none, h) => some (none, h)
        | some (some p, h) => Heap.mallocLoop k ans (n - l.length - 1) h p (h.ptr p)) := by
  have hskip : ∀ n prevp p, ¬k ≤ h.size p → ¬h.freep = some p →
      Heap.mallocLoop k ans (n + 1) h prevp p = Heap.mallocLoop k ans n h p (h.ptr p) := by
    intro n prevp p hle hnot
    rw [Heap.mallocLoop, if_neg hle, if_neg hnot]
  rcases walk_once (fun n prevp p => Heap.mallocLoop k ans n h prevp p) hskip hlead hfreep hfp hn
    with ⟨p, hp, hle, m, hrun⟩ | ⟨hall, p, hrun⟩
  · refine Or.inl ⟨p, hp, hle, hrun.trans ?_⟩
    rw [Heap.mallocLoop, if_pos hle]
  · refine Or.inr ⟨hall, hrun.trans ?_⟩
    have hsmall : ¬k ≤ h.size fp :=
      Nat.not_le_of_lt (hall fp (List.mem_append_right l (List.mem_singleton_self fp)))
    exact (if_neg hsmall).trans (if_pos hfreep)

/-- `malloc` found a block, or `sbrk` failed; the blocks in use are as before. -/
structure Served (h h' : Heap) (G : List Nat) (k : Nat) (r : Option Nat) : Prop where
  ready : ∃ F', Ready h' F' (r.toList ++ G)
  size : ∀ q, r = some q → h'.size q = k
  kept : Kept h h' G

theorem Ready.take (hr : Ready h F G) (hprev : prevp ∈ h.base :: F) (hk : 0 < k)
    (hle : k ≤ h.size (h.ptr prevp)) :
    Served h (h.allocAt prevp (h.ptr prevp) k).2 G k
      (some (h.allocAt prevp (h.ptr prevp) k).1) := by
  rcases allocAt_spec hr.links hr.cut hprev hk hle with ⟨F', ht⟩
  refine ⟨⟨F', ht.ready⟩, ?_, ht.keeps hr.cut⟩
  rintro q ⟨⟩
  exact ht.size

theorem Ready.around (hr : Ready h F G) (hfp : h.freep = some fp) :
    ∃ l, Leads h.ptr fp l fp ∧ (fp :: l).Perm (h.base :: F) ∧ fp ∉ l := by
  rcases hr.freep with ⟨p, hp, hfreep⟩
  have heq : p = fp := Option.some.inj (hfreep.symm.trans hfp)
  subst heq
  rcases hr.links.ring.rotate hp with ⟨l, hl, hperm⟩
  exact ⟨l, hl, hperm, (List.nodup_cons.1 (hperm.nodup_iff.2 hr.links.nodup)).1⟩

/-- The loop returns: `morecore` is called at most once. -/
theorem mallocLoop_spec (hr : Ready h F G) (hfp : h.freep = some fp) (hk : 0 < k)
    (hfit : k * HEADER < 2 ^ 32) (ans : Option Nat) :
    ∃ r h', Heap.mallocLoop k ans (2 * h.rounds) h fp (h.ptr fp) = some (r, h') ∧
      Served h h' G k r := by
  have hrounds := hr.cut.length_lt_rounds
  rcases hr.around hfp with ⟨l, hlead, hperm, hnot⟩
  have hlen : l.length = F.length := Nat.succ.inj hperm.length_eq
  rcases mallocLoop_once hlead hfp hnot k ans (n := 2 * h.rounds) (by omega) with
    ⟨p, hp, hsize, hrun⟩ | ⟨-, hrun⟩
  · exact ⟨_, _, hrun, hr.take (hperm.mem_iff.1 hp) hk hsize⟩
  · rw [hrun]
    rcases morecore_spec hr hfit ans with hmore | ⟨p, h', F', hmore, hp, hr', hkept, hlen', hroom⟩
    · rw [hmore]
      exact ⟨none, h, rfl, ⟨⟨F, hr⟩, (fun q hq => nomatch hq),
        ⟨rfl, rfl, fun _ _ => rfl, fun x hx => Or.inr hx⟩⟩⟩
    · rw [hmore]
      -- the second time around there is a block to find
      rcases hr'.around hp with ⟨l', hlead', hperm', hnot'⟩
      have hl' : l'.length = F'.length := Nat.succ.inj hperm'.length_eq
      rcases mallocLoop_once hlead' hp hnot' k ans (n := 2 * h.rounds - l.length - 1) (by omega)
        with ⟨q, hq, hsize, hrun'⟩ | ⟨hall, -⟩
      · have hs := hr'.take (hperm'.mem_iff.1 hq) hk hsize
        exact ⟨_, _, hrun', hs.ready, hs.size, hkept.trans hs.kept⟩
      · rcases hroom with ⟨a, ha, hle⟩
        have hmem : a ∈ p :: l' := hperm'.mem_iff.2 (List.mem_cons_of_mem _ ha)
        have hsmall := hall a (by simpa [or_comm] using hmem)
        omega

/-! ## Whole sequences of calls -/

/-- The headers of the allocated blocks. -/
def Heap.used (h : Heap) : List Nat := h.live.map Block.addr

/-- The state between calls: nothing has been called yet, or the free list is in order and, with the
allocated blocks, is the memory obtained; each of these has the bytes asked for behind its header. -/
structure Sound (h : Heap) : Prop where
  list : (h.freep = none ∧ h.regions = [] ∧ h.live = [] ∧ h.top = h.base + HEADER) ∨
    ∃ F, Ready h F h.used
  usable : ∀ b ∈ h.live, b.nbytes + HEADER ≤ h.len b.addr

theorem sound_boot (base : Nat) (ptr size : Nat → Nat) : Sound (Heap.boot base ptr size) :=
  ⟨Or.inl ⟨rfl, rfl, rfl, rfl⟩, fun _ hb => nomatch hb⟩

theorem nunits_pos (n : Nat) : 0 < Heap.nunits n := Nat.succ_pos _

theorem nbytes_le_nunits (n : Nat) : n + HEADER ≤ HEADER * Heap.nunits n := by
  simp only [Heap.nunits, HEADER]
  omega

/-- The request, rounded up to headers, is an `int` or fails as a negative one. -/
def Fits (nbytes : Nat) : Prop := Heap.nunits nbytes * HEADER < 2 ^ 32

instance (nbytes : Nat) : Decidable (Fits nbytes) := inferInstanceAs (Decidable (_ < _))

theorem start_ready (hfreep : h.freep = none) (hregions : h.regions = [])
    (htop : h.top = h.base + HEADER) :
    Ready h.start.2 [] [] ∧ Kept h h.start.2 [] ∧ h.start.2.freep = some h.start.1 := by
  have hstart : h.start = (h.base,
      ({ h.setPtr h.base h.base with freep := some h.base }).setSize h.base 0) := by
    rw [Heap.start, hfreep]
  rw [hstart]
  refine ⟨⟨⟨update_self _ _ _, List.pairwise_singleton _ _, ?_, update_self _ _ _⟩,
    ⟨⟨List.nodup_nil, ?_, ?_, fun x => ?_⟩, ?_, ?_, ?_, ?_, htop.ge⟩,
    ⟨h.base, List.mem_singleton_self _, rfl⟩⟩, ⟨rfl, rfl, ?_, ?_⟩, rfl⟩
  · exact fun _ ha => nomatch ha
  · exact fun _ ha => nomatch ha
  · exact fun _ ha => nomatch ha
  · show (∃ r ∈ h.regions, r.1 ≤ x ∧ x < r.1 + r.2) ↔ _
    rw [hregions]
    simp
  · exact fun _ ha => nomatch ha
  · exact fun _ ha => nomatch ha
  · show 0 = (h.regions.map Prod.snd).sum
    rw [hregions]
    rfl
  · show (h.regions.map Prod.snd).sum < 2 ^ 31
    rw [hregions]
    decide
  · exact fun _ ha => nomatch ha
  · exact fun x _ => Or.inl fun _ hb => nomatch hb

/-- `malloc` returns, whatever `sbrk` does. -/
theorem malloc_spec (hs : Sound h) {nbytes : Nat} (hfit : Fits nbytes) (ans : Option Nat) :
    ∃ r h', h.malloc nbytes ans = some (r, h') ∧ Served h h' h.used (Heap.nunits nbytes) r := by
  rcases hs.list with ⟨hfreep, hregions, hlive, htop⟩ | ⟨F, hr⟩
  · rcases start_ready hfreep hregions htop with ⟨hr, hkept, hfp⟩
    rcases mallocLoop_spec hr hfp (nunits_pos nbytes) hfit ans with ⟨r, h', hrun, hserved⟩
    have hused : h.used = [] := by rw [Heap.used, hlive, List.map_nil]
    rw [hused]
    exact ⟨r, h', hrun, hserved.ready, hserved.size, hkept.trans hserved.kept⟩
  · rcases hr.freep with ⟨fp, -, hfp⟩
    have hstart : h.start = (fp, h) := by rw [Heap.start, hfp]
    rcases mallocLoop_spec hr hfp (nunits_pos nbytes) hfit ans with ⟨r, h', hrun, hserved⟩
    refine ⟨r, h', ?_, hserved⟩
    rw [Heap.malloc, hstart]
    exact hrun

/-- The blocks that stay allocated keep their size, and no header is written inside them. -/
def Untouched (s t : Heap) : Prop :=
  ∀ b ∈ s.live, b ∈ t.live → t.size b.addr = s.size b.addr ∧
    ∀ x ∈ t.touched, x + HEADER ≤ b.addr ∨ b.addr + s.len b.addr ≤ x

/-- The request that a call makes can be passed to `sbrk`. -/
def Call.Fits : Call → Prop
  | .malloc nbytes _ => Malloc.Fits nbytes.toNat
  | .free _ => True

instance (c : Call) : Decidable c.Fits :=
  match c with
  | .malloc nbytes _ => inferInstanceAs (Decidable (Malloc.Fits nbytes.toNat))
  | .free _ => inferInstanceAs (Decidable True)

theorem Ready.record (hr : Ready h F G) (live : List Block) (touched : List Nat) :
    Ready { h with live := live, touched := touched } F G :=
  ⟨{ hr.links with }, { hr.cut with tiling := { hr.cut.tiling with } }, hr.freep⟩

theorem Sound.reset (hs : Sound h) : Sound { h with touched := [] } := by
  refine ⟨?_, hs.usable⟩
  rcases hs.list with hnone | ⟨F, hr⟩
  · exact Or.inl hnone
  · exact Or.inr ⟨F, hr.record h.live []⟩

theorem Kept.untouched {s t : Heap} (hk : Kept h h' G) (hnone : h.touched = [])
    (hs : h.size = s.size) (ht : t.size = h'.size) (htouched : t.touched = h'.touched)
    (hlive : ∀ b ∈ s.live, b ∈ t.live → b.addr ∈ G) : Untouched s t := by
  intro b hb hbt
  have hlen : h.len b.addr = s.len b.addr := len_eq (congrFun hs b.addr)
  refine ⟨?_, fun x hx => ?_⟩
  · rw [ht, ← hs]
    exact hk.size _ (hlive b hb hbt)
  · rw [htouched] at hx
    rw [← hlen]
    rcases hk.touched x hx with hclear | hold
    · exact hclear _ (hlive b hb hbt)
    · rw [hnone] at hold
      exact nomatch hold

/-- The heap with the block that was returned recorded as allocated. -/
def Heap.give (h : Heap) (nbytes : Nat) : Option Nat → Heap
  | none => h
  | some q => { h with live := ⟨q, nbytes⟩ :: h.live }

/-- After `malloc` the heap is in order, and the block returned has the bytes asked for. -/
theorem Served.sound {s : Heap} (hs : Sound s) {nbytes : Nat} {r : Option Nat}
    (hserved : Served s h' s.used (Heap.nunits nbytes) r) : Sound (h'.give nbytes r) := by
  have husable : ∀ b ∈ h'.live, b.nbytes + HEADER ≤ h'.len b.addr := by
    intro b hb
    rw [hserved.kept.live] at hb
    rw [len_eq (hserved.kept.size b.addr (List.mem_map_of_mem hb))]
    exact hs.usable b hb
  have hlive : h'.used = s.used := congrArg (List.map Block.addr) hserved.kept.live
  rcases hserved.ready with ⟨F', hr⟩
  cases r with
  | none =>
    refine ⟨Or.inr ⟨F', ?_⟩, husable⟩
    show Ready h' F' h'.used
    rw [hlive]
    exact hr
  | some q =>
    refine ⟨Or.inr ⟨F', ?_⟩, fun b hb => ?_⟩
    · have hused : (h'.give nbytes (some q)).used = q :: s.used := congrArg (q :: ·) hlive
      rw [hused]
      exact hr.record _ h'.touched
    · rcases List.mem_cons.1 hb with rfl | hb
      · show nbytes + HEADER ≤ HEADER * h'.size q
        rw [hserved.size q rfl]
        exact nbytes_le_nunits _
      · exact husable b hb

theorem malloc_step {s : Heap} (hs : Sound s) (nbytes : UInt32) (ans : Option Nat)
    (hfit : Fits nbytes.toNat) :
    ∃ t, s.step (.malloc nbytes ans) = some t ∧ Sound t ∧ Untouched s t := by
  rcases malloc_spec hs.reset hfit ans with ⟨r, h', hrun, hserved⟩
  have hmem : ∀ b ∈ s.live, b.addr ∈ s.used := fun b hb => List.mem_map_of_mem hb
  have hsound := hserved.sound hs.reset
  refine ⟨h'.give nbytes.toNat r, ?_, hsound, ?_⟩
  · cases r <;> simp only [Heap.step, hrun, Heap.give]
  · cases r <;> exact hserved.kept.untouched rfl rfl rfl rfl fun b hb _ => hmem b hb

theorem used_perm {l : List Block} (hnodup : (l.map Block.addr).Nodup) {b : Block} (hb : b ∈ l) :
    (l.map Block.addr).Perm
      (b.addr :: (l.filter fun c => decide (c.addr ≠ b.addr)).map Block.addr) := by
  have hmem : b.addr ∈ l.map Block.addr := List.mem_map_of_mem hb
  have herase : (l.map Block.addr).erase b.addr =
      (l.filter fun c => decide (c.addr ≠ b.addr)).map Block.addr := by
    rw [hnodup.erase_eq_filter, List.filter_map]
    refine congrArg (List.map Block.addr) (List.filter_congr fun c _ => ?_)
    simp [bne, beq_eq_decide]
  rw [← herase]
  exact List.perm_cons_erase hmem

theorem free_step {s : Heap} (hs : Sound s) {b : Block} (hb : b ∈ s.live) :
    ∃ t, s.step (.free (b.addr + HEADER)) = some t ∧ Sound t ∧ Untouched s t := by
  have hused : b.addr ∈ s.used := List.mem_map_of_mem hb
  rcases hs.list with ⟨-, -, hlive, -⟩ | ⟨F, hr⟩
  · rw [hlive] at hb
    exact nomatch hb
  · -- a live block with this address is found, maybe as another entry
    obtain ⟨c, hfind⟩ : ∃ c, s.live.find? (fun c => decide (c.addr + HEADER = b.addr + HEADER)) =
        some c := by
      rw [← Option.isSome_iff_exists, List.find?_isSome]
      exact ⟨b, hb, by simp⟩
    have hc : c ∈ s.live := List.mem_of_find?_eq_some hfind
    have hnodup : s.used.Nodup := (List.nodup_append.1 hr.cut.tiling.nodup).2.1
    let rest : List Block := s.live.filter fun d => decide (d.addr ≠ c.addr)
    have hperm : s.used.Perm (c.addr :: rest.map Block.addr) := used_perm hnodup hc
    have hr' := hr.record rest []
    have hcut := hr'.cut.perm ((hperm.append_left F).trans List.perm_middle)
    rcases hr'.freep with ⟨fp, hfp, hfreep⟩
    rcases free_spec hr'.links hcut hfp hfreep with ⟨t, F', hfree, hf⟩
    have hkept := hf.keeps hcut
    have hlive : t.live = rest := hkept.live
    refine ⟨t, ?_, ⟨Or.inr ⟨F', ?_⟩, fun d hd => ?_⟩, ?_⟩
    · simp only [Heap.step, hfind]
      exact hfree
    · rw [Heap.used, hlive]
      exact hf.ready
    · rw [hlive] at hd
      rw [len_eq (hkept.size d.addr (List.mem_map_of_mem hd))]
      exact hs.usable d (List.mem_of_mem_filter hd)
    · refine hkept.untouched rfl rfl rfl rfl fun d _ hd => ?_
      rw [hlive] at hd
      exact List.mem_map_of_mem hd

theorem step_sound {s t : Heap} {c : Call} (hs : Sound s) (hstep : s.step c = some t)
    (hfit : c.Fits) : Sound t ∧ Untouched s t := by
  cases c with
  | malloc nbytes ans =>
    rcases malloc_step hs nbytes ans hfit with ⟨t', hrun, hsound⟩
    have heq : t' = t := Option.some.inj (hrun.symm.trans hstep)
    exact heq ▸ hsound
  | free ap =>
    cases hfind : s.live.find? fun b => decide (b.addr + HEADER = ap) with
    | none =>
      simp only [Heap.step, hfind] at hstep
      exact nomatch hstep
    | some b =>
      have hap : b.addr + HEADER = ap := by
        simpa using List.find?_some hfind
      subst hap
      rcases free_step hs (List.mem_of_find?_eq_some hfind) with ⟨t', hrun, hsound⟩
      have heq : t' = t := Option.some.inj (hrun.symm.trans hstep)
      exact heq ▸ hsound

/-- After every sequence of calls whose requests can be passed to `sbrk`: the list and the blocks are
in order, every call returns, and none writes into a block that stays allocated. -/
theorem heap_integrity {base : Nat} {ptr size : Nat → Nat} {s : Heap}
    (hrun : machine.Path (fun _ c _ => c.Fits) (Heap.boot base ptr size) s) :
    Sound s ∧ (∀ (nbytes : UInt32) (ans : Option Nat), Fits nbytes.toNat →
        ∃ t, s.step (.malloc nbytes ans) = some t) ∧
      (∀ b ∈ s.live, ∃ t, s.step (.free (b.addr + HEADER)) = some t) ∧
      ∀ c t, c.Fits → s.step c = some t → Sound t ∧ Untouched s t := by
  have hs : Sound s :=
    hrun.invariant (sound_boot base ptr size) fun t c u ht hstep hfit => (step_sound ht hstep hfit).1
  refine ⟨hs, fun nbytes ans hfit => ?_, fun b hb => ?_, fun c t hfit hstep =>
    step_sound hs hstep hfit⟩
  · rcases malloc_step hs nbytes ans hfit with ⟨t, hstep, -⟩
    exact ⟨t, hstep⟩
  · rcases free_step hs hb with ⟨t, hstep, -⟩
    exact ⟨t, hstep⟩

/-- Two blocks, of which the first is freed. -/
theorem heap_integrity_two :
    ∃ s b, machine.Path (fun _ c _ => c.Fits) (Heap.boot 4096 id fun _ => 0) s ∧ b ∈ s.live ∧
      200 ≤ b.nbytes ∧ Sound s ∧ ∃ t, s.step (.free (b.addr + HEADER)) = some t := by
  have hrun : (machine.execBy (fun _ c _ => decide c.Fits) (Heap.boot 4096 id fun _ => 0)
      [.malloc 100 (some 0), .malloc 200 none, .free (4096 + 16 + 65536 - 128 + 16)]).any
        (fun s => s.live.any fun b => decide (200 ≤ b.nbytes)) = true := by
    decide +kernel
  rcases (Option.any_eq_true _ _).1 hrun with ⟨s, hexec, hlive⟩
  rcases List.any_eq_true.1 hlive with ⟨b, hb, hbytes⟩
  have hpath := path_of_execBy (G := fun _ (c : Call) _ => c.Fits)
    (fun _ _ _ hok => of_decide_eq_true hok) hexec
  have hall := heap_integrity hpath
  exact ⟨s, b, hpath, hb, of_decide_eq_true hbytes, hall.1, hall.2.2.1 b hb⟩

/-- A request for `2 ^ 32 - 1` bytes: `sbrk` is asked for 16 and returns them, and `malloc` returns a
block with no byte behind its header. -/
theorem malloc_truncates : ∃ s b, machine.Reaches (Heap.boot 4096 id fun _ => 0) s ∧ b ∈ s.live ∧
      b.nbytes = 2 ^ 32 - 1 ∧ s.regions = [(b.addr, HEADER)] := by
  have hrun : (machine.exec (Heap.boot 4096 id fun _ => 0)
      [.malloc 0xFFFFFFFF (some 0)]).any (fun s => s.live.any fun b =>
        decide (b.nbytes = 2 ^ 32 - 1 ∧ s.regions = [(b.addr, HEADER)])) = true := by
    decide +kernel
  rcases (Option.any_eq_true _ _).1 hrun with ⟨s, hexec, hlive⟩
  rcases List.any_eq_true.1 hlive with ⟨b, hb, hbytes⟩
  exact ⟨s, b, reaches_of_exec hexec, hb, of_decide_eq_true hbytes⟩

end Xv6Schedulers.Malloc
