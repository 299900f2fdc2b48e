import Mathlib.Data.Finset.Max
import Xv6Schedulers.Lib.Tiling
import Xv6Schedulers.Malloc.Model

/-!
# FreeList — `free` keeps the list in order and joins neighbours

* `Cut h B`: the blocks with headers at `B` are the memory obtained from `sbrk`.
* `Links h F`: from `base` the links go through `F` and back; addresses increase along `F`, so the
  circle wraps once, and no free block ends where another begins.
* `free` looks for the last list member below the block (`place_found`); then it joins the block with
  the one above (`joinUpper_spec`) and the one below (`joinLower_spec`).
-/

namespace Xv6Schedulers.Malloc

open Lib Circle Function List

variable {h h' : Heap} {B F G : List Nat} {a b p q bp fp : Nat}

/-! ## The blocks -/

/-- A byte that `sbrk` has returned. -/
def Heap.Obtained (h : Heap) (x : Nat) : Prop := ∃ r ∈ h.regions, r.1 ≤ x ∧ x < r.1 + r.2

/-- The blocks at `B` are the whole heap. -/
structure Cut (h : Heap) (B : List Nat) : Prop where
  tiling : Tiling h.len B h.Obtained
  above : ∀ a ∈ B, h.base + HEADER ≤ a
  below : ∀ a ∈ B, a + h.len a ≤ h.top
  sum : (B.map h.len).sum = h.total
  bound : h.total < 2 ^ 31
  top : h.base + HEADER ≤ h.top

/-- The parts of the heap that `free` and `malloc` leave alone. -/
structure SameMemory (h h' : Heap) : Prop where
  base : h'.base = h.base
  top : h'.top = h.top
  regions : h'.regions = h.regions
  live : h'.live = h.live

theorem SameMemory.trans {h₁ h₂ h₃ : Heap} (h₁₂ : SameMemory h₁ h₂) (h₂₃ : SameMemory h₂ h₃) :
    SameMemory h₁ h₃ :=
  ⟨h₂₃.base.trans h₁₂.base, h₂₃.top.trans h₁₂.top, h₂₃.regions.trans h₁₂.regions,
    h₂₃.live.trans h₁₂.live⟩

theorem len_eq (hsize : h'.size a = h.size a) : h'.len a = h.len a := congrArg (HEADER * ·) hsize

namespace Cut

theorem perm (hc : Cut h B) {B' : List Nat} (hB : B.Perm B') : Cut h B' where
  tiling := hc.tiling.perm hB
  above a ha := hc.above a (hB.mem_iff.2 ha)
  below a ha := hc.below a (hB.mem_iff.2 ha)
  sum := by
    rw [← hc.sum]
    exact (hB.map h.len).symm.sum_eq
  bound := hc.bound
  top := hc.top

theorem recut (hc : Cut h B) (hm : SameMemory h h') {B' : List Nat}
    (htiling : Tiling h'.len B' h.Obtained) (habove : ∀ a ∈ B', h.base + HEADER ≤ a)
    (hbelow : ∀ a ∈ B', a + h'.len a ≤ h.top)
    (hsum : (B'.map h'.len).sum = (B.map h.len).sum) : Cut h' B' := by
  have hobt : h'.Obtained = h.Obtained := by
    funext x
    rw [Heap.Obtained, Heap.Obtained, hm.regions]
  have htot : h'.total = h.total := by rw [Heap.total, Heap.total, hm.regions]
  refine ⟨hobt ▸ htiling, ?_, ?_, ?_, htot ▸ hc.bound, by rw [hm.base, hm.top]; exact hc.top⟩
  · rw [hm.base]
    exact habove
  · rw [hm.top]
    exact hbelow
  · rw [htot, ← hc.sum, hsum]

theorem congr (hc : Cut h B) (hm : SameMemory h h') (hsize : ∀ a ∈ B, h'.size a = h.size a) :
    Cut h' B := by
  have hlen : ∀ a ∈ B, h'.len a = h.len a := fun a ha => len_eq (hsize a ha)
  refine hc.recut hm (hc.tiling.congr hlen) hc.above (fun a ha => ?_) ?_
  · rw [hlen a ha]
    exact hc.below a ha
  · exact congrArg List.sum (List.map_congr_left hlen)

theorem not_mem_base (hc : Cut h B) : h.base ∉ B := by
  intro hmem
  have habove := hc.above _ hmem
  simp only [HEADER] at habove
  omega

theorem size_add_lt (hc : Cut h (a :: b :: B)) : h.size a + h.size b < 2 ^ 32 := by
  have hsum := hc.sum
  have hbound := hc.bound
  simp only [map_cons, sum_cons, Heap.len, HEADER] at hsum
  omega

theorem merge (hc : Cut h (a :: b :: B)) (hm : SameMemory h h') (hab : a + h.len a = b)
    (ha : h'.size a = (h.size a + h.size b) % 2 ^ 32)
    (hrest : ∀ c ∈ B, h'.size c = h.size c) : Cut h' (a :: B) := by
  rw [Nat.mod_eq_of_lt hc.size_add_lt] at ha
  have hlen : h'.len a = h.len a + h.len b := by
    rw [Heap.len, ha, Nat.mul_add]
    rfl
  have hlens : ∀ c ∈ B, h'.len c = h.len c := fun c hcB => len_eq (hrest c hcB)
  have hkeep : ∀ c ∈ B, c ∈ a :: b :: B := fun c hcB =>
    mem_cons_of_mem _ (mem_cons_of_mem _ hcB)
  refine hc.recut hm (hc.tiling.merge hab hlen hlens) (fun c hcB => ?_) (fun c hcB => ?_) ?_
  · rcases mem_cons.1 hcB with rfl | hcB
    · exact hc.above c mem_cons_self
    · exact hc.above c (hkeep c hcB)
  · rcases mem_cons.1 hcB with rfl | hcB
    · rw [hlen, ← Nat.add_assoc, hab]
      exact hc.below b (mem_cons_of_mem _ mem_cons_self)
    · rw [hlens c hcB]
      exact hc.below c (hkeep c hcB)
  · rw [map_cons, map_cons, map_cons, sum_cons, sum_cons, sum_cons,
      hlen, map_congr_left hlens, Nat.add_assoc]

theorem split (hc : Cut h (a :: B)) (hm : SameMemory h h') {k : Nat} (hk : 0 < k)
    (hlt : k < h.size a) (ha : h'.size a = h.size a - k) (hq : q = a + h'.len a)
    (hqk : h'.size q = k) (hrest : ∀ c ∈ B, h'.size c = h.size c) : Cut h' (q :: a :: B) := by
  have hlen : h'.len a + HEADER * k = h.len a := by
    rw [Heap.len, Heap.len, ha, ← Nat.mul_add, Nat.sub_add_cancel hlt.le]
  have hqlen : h'.len q = HEADER * k := by rw [Heap.len, hqk]
  have hpos : 0 < h'.len a := by
    rw [Heap.len, ha]
    simp only [HEADER]
    omega
  have hpos' : 0 < HEADER * k := by
    simp only [HEADER]
    omega
  have hlens : ∀ c ∈ B, h'.len c = h.len c := fun c hcB => len_eq (hrest c hcB)
  have habove := hc.above a mem_cons_self
  have hbelow := hc.below a mem_cons_self
  refine hc.recut hm (hc.tiling.split hlen hq hqlen hpos hpos' hlens) (fun c hcB => ?_)
    (fun c hcB => ?_) ?_
  · rcases mem_cons.1 hcB with rfl | hcB
    · omega
    · exact hc.above c hcB
  · rcases mem_cons.1 hcB with rfl | hcB
    · omega
    · rcases mem_cons.1 hcB with rfl | hcB
      · omega
      · rw [hlens c hcB]
        exact hc.below c (mem_cons_of_mem _ hcB)
  · rw [map_cons, map_cons, map_cons, sum_cons, sum_cons, sum_cons,
      hqlen, map_congr_left hlens]
    omega

end Cut

/-! ## The circle -/

/-- The free list from `base` on. -/
structure Links (h : Heap) (F : List Nat) : Prop where
  ring : Leads h.ptr h.base F h.base
  sorted : (h.base :: F).Pairwise (· < ·)
  joined : ∀ a ∈ F, ∀ b ∈ F, a + h.len a ≠ b
  empty : h.size h.base = 0

theorem before_greatest {next : Nat → Nat} {l : List Nat} (hb : Before next a l p)
    (hs : (a :: l).Pairwise (· < ·)) {x : Nat} (hx : x ∈ a :: l) : x ≤ p := by
  rcases hb with ⟨rfl, rfl⟩ | ⟨l', rfl, -⟩
  · rw [mem_singleton.1 hx]
  · rw [← cons_append] at hs hx
    rcases mem_append.1 hx with hx | hx
    · exact Nat.le_of_lt ((pairwise_append.1 hs).2.2 x hx p (mem_singleton_self p))
    · rw [mem_singleton.1 hx]

namespace Links

theorem nodup (hl : Links h F) : (h.base :: F).Nodup := hl.sorted.imp Nat.ne_of_lt

theorem base_lt (hl : Links h F) (ha : a ∈ F) : h.base < a :=
  (pairwise_cons.1 hl.sorted).1 a ha

theorem next (hl : Links h F) (hp : p ∈ h.base :: F) :
    (h.ptr p ∈ F ∧ p < h.ptr p ∧ ∀ x ∈ F, p < x → h.ptr p ≤ x) ∨
      (h.ptr p = h.base ∧ ∀ x ∈ F, x ≤ p) := by
  rcases Before.of_mem hl.ring hp with ⟨L, R, rfl, hb⟩
  have hsorted := hl.sorted
  rw [← cons_append, pairwise_append] at hsorted
  rcases hsorted with ⟨hL, hR, hLR⟩
  have hlead := hb.leads_iff.1 hl.ring
  cases R with
  | nil =>
    refine Or.inr ⟨hlead, fun x hx => ?_⟩
    rw [append_nil] at hx
    exact before_greatest hb hL (mem_cons_of_mem _ hx)
  | cons r R =>
    have hlink : h.ptr p = r := hlead.1
    rw [hlink]
    refine Or.inl ⟨by simp, hLR p hb.mem r mem_cons_self, fun x hx hlt => ?_⟩
    rcases mem_append.1 hx with hx | hx
    · exact absurd (before_greatest hb hL (mem_cons_of_mem _ hx)) (Nat.not_le.2 hlt)
    · rcases mem_cons.1 hx with rfl | hx
      · exact Nat.le_refl x
      · exact Nat.le_of_lt ((pairwise_cons.1 hR).1 x hx)

theorem place_found (hl : Links h F) (hfp : fp ∈ h.base :: F) (hbase : h.base < bp)
    (hbp : bp ∉ F) (hk : F.length < h.rounds) :
    ∃ p ∈ h.base :: F, seek h.ptr (h.stops bp) h.rounds fp = some p ∧ p < bp ∧
      ∀ x ∈ F, x < bp → x ≤ p := by
  have hne : ((h.base :: F).filter (· < bp)).toFinset.Nonempty := ⟨h.base, by simp [hbase]⟩
  rcases Finset.exists_max_image _ id hne with ⟨p, hp, hmax⟩
  rw [mem_toFinset, mem_filter, decide_eq_true_eq] at hp
  rcases hp with ⟨hp, hlt⟩
  have hgreatest : ∀ x ∈ F, x < bp → x ≤ p := by
    intro x hx hxlt
    apply hmax x
    rw [mem_toFinset, mem_filter, decide_eq_true_eq]
    exact ⟨mem_cons_of_mem _ hx, hxlt⟩
  rcases hl.ring.rotate hfp with ⟨l, hleads, hperm⟩
  refine ⟨p, hp, hleads.seek_eq (hperm.mem_iff.2 hp) ?_ (fun y hy hstop => ?_) ?_, hlt, hgreatest⟩
  · rw [Heap.stops, decide_eq_true_eq]
    rcases hl.next hp with ⟨hmem, hgt, -⟩ | ⟨heq, -⟩
    · have hle : ¬ h.ptr p < bp := fun hlt' => Nat.not_le.2 hgt (hgreatest _ hmem hlt')
      have hne' : h.ptr p ≠ bp := fun heq => hbp (heq ▸ hmem)
      exact Or.inl ⟨hlt, by omega⟩
    · have hge : h.base ≤ p := by
        rcases mem_cons.1 hp with rfl | hmem
        · exact Nat.le_refl _
        · exact Nat.le_of_lt (hl.base_lt hmem)
      exact Or.inr ⟨by omega, Or.inl hlt⟩
  · -- a member where the loop stops is below `bp`, and no member is between them
    have hy' := hperm.mem_iff.1 hy
    rw [Heap.stops, decide_eq_true_eq] at hstop
    have hpy : p ≤ y ∧ y < bp := by
      rcases hl.next hy' with ⟨hmem, hgt, hleast⟩ | ⟨heq, hall⟩
      · have hyb : y < bp ∧ bp < h.ptr y := by omega
        refine ⟨Nat.not_lt.1 fun hyp => ?_, hyb.1⟩
        have hpF : p ∈ F := by
          rcases mem_cons.1 hp with rfl | hmem'
          · rcases mem_cons.1 hy' with rfl | hyF
            · exact absurd hyp (Nat.lt_irrefl _)
            · exact absurd (hl.base_lt hyF) (Nat.not_lt.2 (Nat.le_of_lt hyp))
          · exact hmem'
        have hpge := hleast p hpF hyp
        omega
      · have hyb : y < bp := by omega
        refine ⟨?_, hyb⟩
        rcases mem_cons.1 hp with rfl | hpF
        · rcases mem_cons.1 hy' with rfl | hyF
          · exact Nat.le_refl _
          · exact Nat.le_of_lt (hl.base_lt hyF)
        · exact hall p hpF
    rcases mem_cons.1 hy' with rfl | hyF
    · rcases mem_cons.1 hp with rfl | hpF
      · rfl
      · exact absurd (hl.base_lt hpF) (Nat.not_lt.2 hpy.1)
    · exact Nat.le_antisymm (hgreatest y hyF hpy.2) hpy.1
  · have hlen := hperm.length_eq
    simp only [length_cons] at hlen
    omega

end Links

/-! ## Joining neighbours -/

section Join

variable {L R R₁ : List Nat}

/-- What the place that `free` has found is like: the list splits there. -/
structure Place (h : Heap) (L R : List Nat) (p bp : Nat) : Prop where
  before : Before h.ptr h.base L p
  lt : p < bp
  low : ∀ x ∈ L, x < bp
  high : ∀ x ∈ R, bp < x

theorem Links.place (hl : Links h F) (hp : p ∈ h.base :: F) (hlt : p < bp) (hbp : bp ∉ F)
    (hall : ∀ x ∈ F, x < bp → x ≤ p) : ∃ L R, F = L ++ R ∧ Place h L R p bp := by
  rcases Before.of_mem hl.ring hp with ⟨L, R, rfl, hb⟩
  have hsorted := hl.sorted
  rw [← cons_append, pairwise_append] at hsorted
  rcases hsorted with ⟨hL, hR, hLR⟩
  refine ⟨L, R, rfl, hb, hlt, fun x hx => ?_, fun x hx => ?_⟩
  · exact Nat.lt_of_le_of_lt (before_greatest hb hL (mem_cons_of_mem _ hx)) hlt
  · have hgt := hLR p hb.mem x hx
    have hle := hall x (mem_append_right _ hx)
    have hne : x ≠ bp := fun heq => hbp (heq ▸ mem_append_right _ hx)
    omega

/-- After the first `if` of `free`: the block leads on to the rest of the list. -/
structure Upper (h h' : Heap) (L R₁ G : List Nat) (bp : Nat) : Prop where
  leads : Leads h'.ptr bp R₁ h'.base
  cut : Cut h' (bp :: (L ++ R₁ ++ G))
  ptr : ∀ y, y ≠ bp → h'.ptr y = h.ptr y
  size : ∀ y, y ≠ bp → h'.size y = h.size y
  grown : h.size bp ≤ h'.size bp
  joined : ∀ a ∈ L ++ R₁, bp + h'.len bp ≠ a
  same : SameMemory h h'
  touched : ∀ x ∈ h'.touched, x = bp ∨ x ∈ h.touched

theorem joinUpper_spec (hl : Links h (L ++ R)) (hp : Place h L R p bp)
    (hc : Cut h (bp :: (L ++ R ++ G))) :
    ∃ R₁, (R₁ = R ∨ ∃ r, R = r :: R₁) ∧ Upper h (h.joinUpper bp p) L R₁ G bp := by
  have hlead := hp.before.leads_iff.1 hl.ring
  have hbase := hc.above bp mem_cons_self
  have hother : ∀ (q y : Nat), y ≠ bp → update h.ptr bp q y = h.ptr y :=
    fun q y hy => update_of_ne hy q h.ptr
  have hR : ∀ x ∈ R, x ≠ bp := fun x hx => Nat.ne_of_gt (hp.high x hx)
  unfold Heap.joinUpper
  by_cases hjoin : bp + h.len bp = h.ptr p
  · rw [if_pos hjoin]
    cases R with
    | nil =>
      -- the block does not end at `base`, which is below it
      have hlink : h.ptr p = h.base := hlead
      simp only [HEADER] at hbase
      omega
    | cons r R =>
      have hlink : h.ptr p = r := hlead.1
      have hsize : ∀ y, y ≠ bp → update h.size bp
          ((h.size bp + h.size (h.ptr p)) % 2 ^ 32) y = h.size y :=
        fun y hy => update_of_ne hy _ h.size
      have hperm : (bp :: (L ++ r :: R ++ G)).Perm (bp :: r :: (L ++ R ++ G)) := by
        apply Perm.cons
        rw [append_assoc, append_assoc, cons_append]
        exact perm_middle
      have hcut := hc.perm hperm
      have hnodup := nodup_cons.1 hcut.tiling.nodup
      have hlt := hcut.size_add_lt
      rw [hlink] at hjoin hsize ⊢
      refine ⟨R, Or.inr ⟨r, rfl⟩, ?_, ?_, hother _, hsize, ?_, ?_, ⟨rfl, rfl, rfl, rfl⟩, ?_⟩
      · refine hlead.2.replace ?_ fun y hy => hother _ y (hR y (mem_cons_of_mem _ hy))
        show update h.ptr bp (h.ptr (h.ptr p)) bp = h.ptr r
        rw [update_self, hlink]
      · refine hcut.merge ⟨rfl, rfl, rfl, rfl⟩ hjoin (update_self _ _ _) fun c hmem => ?_
        refine hsize c fun heq => hnodup.1 ?_
        rw [← heq]
        exact mem_cons_of_mem _ hmem
      · show h.size bp ≤ update h.size bp _ bp
        rw [update_self, Nat.mod_eq_of_lt hlt]
        exact Nat.le_add_right _ _
      · intro a ha heq
        refine hl.joined r (by simp) a ?_ ?_
        · rcases mem_append.1 ha with ha | ha
          · exact mem_append_left _ ha
          · exact mem_append_right _ (mem_cons_of_mem _ ha)
        · rw [← heq]
          show r + h.len r = bp + HEADER * update h.size bp _ bp
          rw [update_self, Nat.mod_eq_of_lt hlt, Nat.mul_add]
          show r + h.len r = bp + (h.len bp + h.len r)
          omega
      · intro x hx
        simp only [Heap.setPtr, Heap.setSize, mem_cons] at hx
        tauto
  · rw [if_neg hjoin]
    refine ⟨R, Or.inl rfl, ?_, ?_, hother _, fun y _ => rfl, Nat.le_refl _, ?_,
      ⟨rfl, rfl, rfl, rfl⟩, ?_⟩
    · refine hlead.replace (update_self _ _ _) fun y hy => hother _ y (hR y hy)
    · exact hc.congr ⟨rfl, rfl, rfl, rfl⟩ fun a _ => rfl
    · intro a ha heq
      have hlen : bp + h.len bp = a := heq
      rcases mem_append.1 ha with ha | ha
      · have hlow := hp.low a ha
        omega
      · cases R with
        | nil => cases ha
        | cons r R =>
          have hlink : h.ptr p = r := hlead.1
          rcases mem_cons.1 ha with rfl | haR
          · exact hjoin (hlen.trans hlink.symm)
          · -- the next list member is between the block and `a`
            have hra : r < a := by
              have hsorted := (pairwise_cons.1 hl.sorted).2
              rw [pairwise_append] at hsorted
              exact (pairwise_cons.1 hsorted.2.1).1 a haR
            have hbr := hp.high r mem_cons_self
            have hapart := hc.tiling.apart bp mem_cons_self r (by simp) (Nat.ne_of_lt hbr)
            omega
    · intro x hx
      simpa [Heap.setPtr] using hx

/-- After the second `if` of `free`. -/
structure Lower (h h' : Heap) (F F' G : List Nat) (p bp : Nat) : Prop where
  links : Links h' F'
  cut : Cut h' (F' ++ G)
  mem : p ∈ h'.base :: F'
  size : ∀ y, y ≠ p → h'.size y = h.size y
  room : ∃ a ∈ F', h.size bp ≤ h'.size a
  length : F'.length ≤ F.length + 1
  same : SameMemory h h'
  touched : ∀ x ∈ h'.touched, x = p ∨ x ∈ h.touched

theorem joinLower_spec (hb : Before h.ptr h.base L p) (hlt : p < bp)
    (hsorted : (h.base :: (L ++ bp :: R)).Pairwise (· < ·)) (hleads : Leads h.ptr bp R h.base)
    (hc : Cut h (bp :: (L ++ R ++ G))) (hempty : h.size h.base = 0)
    (hjoined : ∀ a ∈ L ++ R, ∀ b ∈ L ++ R, a + h.len a ≠ b)
    (hup : ∀ a ∈ L ++ R, bp + h.len bp ≠ a) :
    ∃ F', Lower h (h.joinLower bp p) (L ++ R) F' G p bp := by
  have hnodup : (h.base :: (L ++ bp :: R)).Nodup := hsorted.imp Nat.ne_of_lt
  have hsub : (h.base :: L).Sublist (h.base :: (L ++ bp :: R)) :=
    (sublist_append_left L _).cons₂ _
  have hLnodup : (h.base :: L).Nodup := hnodup.sublist hsub
  have hLsorted : (h.base :: L).Pairwise (· < ·) := hsorted.sublist hsub
  have hpR : ∀ y ∈ bp :: R, y ≠ p := by
    intro y hy
    rw [← cons_append, pairwise_append] at hsorted
    exact Nat.ne_of_gt (hsorted.2.2 p hb.mem y hy)
  have hother : ∀ (v y : Nat), y ≠ p → update h.ptr p v y = h.ptr y :=
    fun v y hy => update_of_ne hy v h.ptr
  unfold Heap.joinLower
  by_cases hjoin : p + h.len p = bp
  · rw [if_pos hjoin]
    rcases hb with ⟨rfl, rfl⟩ | ⟨L', rfl, hto⟩
    · -- `base` has no length
      rw [Heap.len, hempty] at hjoin
      omega
    have hb : Before h.ptr h.base (L' ++ [p]) p := Or.inr ⟨L', rfl, hto⟩
    have hperm : (bp :: (L' ++ [p] ++ R ++ G)).Perm (p :: bp :: (L' ++ R ++ G)) := by
      refine Perm.trans (Perm.cons bp ?_) (Perm.swap p bp _)
      simp only [append_assoc, singleton_append]
      exact perm_middle
    have hcut := hc.perm hperm
    have hpnotin := (nodup_cons.1 hcut.tiling.nodup).1
    have hsum := hcut.size_add_lt
    have hsize : ∀ y, y ≠ p → update h.size p ((h.size p + h.size bp) % 2 ^ 32) y =
        h.size y := fun y hy => update_of_ne hy _ h.size
    have hlenp : p + HEADER * update h.size p ((h.size p + h.size bp) % 2 ^ 32) p =
        bp + h.len bp := by
      rw [update_self, Nat.mod_eq_of_lt hsum, Nat.mul_add, ← Nat.add_assoc]
      exact congrArg (· + h.len bp) hjoin
    refine ⟨L' ++ [p] ++ R, ⟨?_, ?_, ?_, ?_⟩, ?_, ?_, hsize, ?_, ?_, ⟨rfl, rfl, rfl, rfl⟩, ?_⟩
    · have hb' := hb.congr hLnodup fun y _ hy => hother (h.ptr bp) y hy
      refine hb'.leads_iff.2 (hleads.replace (update_self _ _ _) fun y hy => ?_)
      exact hother _ y (hpR y (mem_cons_of_mem _ hy))
    · refine hsorted.sublist (Sublist.cons₂ _ ?_)
      exact (Sublist.refl _).append (sublist_cons_self _ _)
    · intro a ha b hb'
      by_cases hap : a = p
      · subst hap
        intro heq
        exact hup b hb' (hlenp.symm.trans heq)
      · intro heq
        apply hjoined a ha b hb'
        rw [← heq]
        exact congrArg (fun k => a + HEADER * k) (hsize a hap).symm
    · show update h.size p _ h.base = 0
      rw [hsize h.base, hempty]
      intro heq
      exact (nodup_cons.1 hLnodup).1 (by rw [heq]; simp)
    · have hone : Cut ((h.setSize p ((h.size p + h.size bp) % 2 ^ 32)).setPtr p (h.ptr bp))
          (p :: (L' ++ R ++ G)) := by
        refine hcut.merge ⟨rfl, rfl, rfl, rfl⟩ hjoin (update_self _ _ _) fun c hmem => ?_
        refine hsize c fun heq => hpnotin ?_
        rw [← heq]
        exact mem_cons_of_mem _ hmem
      apply hone.perm
      simp only [append_assoc, singleton_append]
      exact perm_middle.symm
    · simp
    · refine ⟨p, by simp, ?_⟩
      show h.size bp ≤ update h.size p _ p
      rw [update_self, Nat.mod_eq_of_lt hsum]
      exact Nat.le_add_left _ _
    · exact Nat.le_succ _
    · intro x hx
      simp only [Heap.setPtr, Heap.setSize, mem_cons] at hx
      tauto
  · rw [if_neg hjoin]
    have hperm : (bp :: (L ++ R ++ G)).Perm (L ++ bp :: R ++ G) := by
      rw [append_assoc, append_assoc, cons_append]
      exact perm_middle.symm
    refine ⟨L ++ bp :: R, ⟨?_, hsorted, ?_, hempty⟩, ?_, ?_, fun y _ => rfl, ?_, ?_,
      ⟨rfl, rfl, rfl, rfl⟩, ?_⟩
    · have hb' := hb.congr hLnodup fun y _ hy => hother bp y hy
      exact hb'.leads_iff.2 ⟨update_self _ _ _, hleads.congr fun y hy =>
        hother _ y (hpR y hy)⟩
    · have hmem : ∀ a, a ∈ L ++ bp :: R → a = bp ∨ a ∈ L ++ R := by
        intro a ha
        simp only [mem_append, mem_cons] at ha ⊢
        tauto
      have hin : ∀ a ∈ L ++ R, a ∈ bp :: (L ++ R ++ G) := fun a ha =>
        mem_cons_of_mem _ (mem_append_left _ ha)
      -- of the blocks below, only the last list member could end at the block
      have hlow : ∀ a ∈ L ++ R, a + h.len a ≠ bp := by
        intro a ha heq
        have hpos := hc.tiling.pos a (hin a ha)
        rw [← cons_append, pairwise_append] at hsorted
        rcases mem_append.1 ha with haL | haR
        · have hle := before_greatest hb hLsorted (mem_cons_of_mem _ haL)
          rcases mem_cons.1 hb.mem with hpb | hpL
          · have hgt := (pairwise_cons.1 hLsorted).1 a haL
            omega
          · have hne : a ≠ p := by
              rintro rfl
              exact hjoin heq
            have hapart := hc.tiling.apart a (hin a ha) p
              (hin p (mem_append_left _ hpL)) hne
            have hppos := hc.tiling.pos p (hin p (mem_append_left _ hpL))
            omega
        · have hgt := (pairwise_cons.1 hsorted.2.1).1 a haR
          omega
      intro a ha b hb'
      rcases hmem a ha with rfl | haLR
      · rcases hmem b hb' with rfl | hbLR
        · have hpos := hc.tiling.pos b mem_cons_self
          intro heq
          have hlen : b + h.len b = b := heq
          omega
        · exact hup b hbLR
      · rcases hmem b hb' with rfl | hbLR
        · exact hlow a haLR
        · exact hjoined a haLR b hbLR
    · have hsame : Cut (h.setPtr p bp) (bp :: (L ++ R ++ G)) :=
        hc.congr ⟨rfl, rfl, rfl, rfl⟩ fun a _ => rfl
      exact hsame.perm hperm
    · rcases mem_cons.1 hb.mem with hpb | hpL
      · rw [hpb]
        exact mem_cons_self
      · exact mem_cons_of_mem _ (mem_append_left _ hpL)
    · exact ⟨bp, by simp, Nat.le_refl _⟩
    · simp only [length_append, length_cons]
      omega
    · intro x hx
      simpa [Heap.setPtr] using hx

end Join

/-! ## `free` -/

/-- What `free` of the block `bp` does to the free list `F`, beside other blocks `G`. -/
structure Freed (h h' : Heap) (F F' G : List Nat) (bp : Nat) : Prop where
  links : Links h' F'
  cut : Cut h' (F' ++ G)
  freep : ∃ p ∈ h'.base :: F', h'.freep = some p
  kept : ∀ a ∈ G, h'.size a = h.size a
  room : ∃ a ∈ F', h.size bp ≤ h'.size a
  length : F'.length ≤ F.length + 1
  same : SameMemory h h'
  touched : ∀ x ∈ h'.touched, x = bp ∨ x ∈ h.base :: F ∨ x ∈ h.touched

theorem Cut.length_lt_rounds (hc : Cut h (F ++ G)) : F.length + 1 < h.rounds := by
  have hle : ∀ l : List Nat, (∀ a ∈ l, 0 < h.len a) → HEADER * l.length ≤ (l.map h.len).sum := by
    intro l hl
    induction l with
    | nil => exact Nat.le_refl 0
    | cons a l ih =>
      have hpos := hl a mem_cons_self
      have hrest := ih fun b hb => hl b (mem_cons_of_mem _ hb)
      rw [map_cons, sum_cons, length_cons]
      simp only [Heap.len, HEADER] at hpos hrest ⊢
      omega
  have hF := hle F fun a ha => hc.tiling.pos a (mem_append_left _ ha)
  have hsum := hc.sum
  rw [map_append, sum_append] at hsum
  rw [Heap.rounds]
  simp only [HEADER] at hF ⊢
  omega

/-- `free` returns, and the block is part of the list. -/
theorem free_spec (hl : Links h F) (hc : Cut h (bp :: (F ++ G))) (hfp : fp ∈ h.base :: F)
    (hfreep : h.freep = some fp) : ∃ h' F', h.free bp = some h' ∧ Freed h h' F F' G bp := by
  have hnodup := hc.tiling.nodup
  rw [nodup_cons, mem_append, not_or] at hnodup
  have hbase : h.base < bp := by
    have habove := hc.above bp mem_cons_self
    simp only [HEADER] at habove
    omega
  have hrounds : F.length < h.rounds := by
    have hperm : (bp :: (F ++ G)).Perm (F ++ bp :: G) := perm_middle.symm
    exact Nat.lt_of_succ_lt (hc.perm hperm).length_lt_rounds
  rcases hl.place_found hfp hbase hnodup.1.1 hrounds with ⟨p, hp, hseek, hlt, hall⟩
  rcases hl.place hp hlt hnodup.1.1 hall with ⟨L, R, rfl, hplace⟩
  rcases joinUpper_spec hl hplace hc with ⟨R₁, hR₁, hu⟩
  have hsubR : R₁.Sublist R := by
    rcases hR₁ with rfl | ⟨r, rfl⟩
    · exact Sublist.refl _
    · exact sublist_cons_self _ _
  have hmem : ∀ a ∈ L ++ R₁, a ∈ L ++ R := fun a ha => (hsubR.append_left L).subset ha
  have hne : ∀ a ∈ h.base :: (L ++ R), a ≠ bp := by
    intro a ha
    rcases mem_cons.1 ha with rfl | ha
    · exact Nat.ne_of_lt hbase
    · rintro rfl
      exact hnodup.1.1 ha
  have hneL : ∀ y ∈ h.base :: L, y ≠ bp := fun y hy =>
    hne y ((sublist_append_left L R).cons₂ _ |>.subset hy)
  -- the list up to `p`, and the order with the block in its place
  have hLnodup : (h.base :: L).Nodup := hl.nodup.sublist ((sublist_append_left L R).cons₂ _)
  have hb : Before (h.joinUpper bp p).ptr (h.joinUpper bp p).base L p := by
    rw [hu.same.base]
    exact hplace.before.congr hLnodup fun y hy _ => hu.ptr y (hneL y hy)
  have hsorted : ((h.joinUpper bp p).base :: (L ++ bp :: R₁)).Pairwise (· < ·) := by
    rw [hu.same.base]
    have hs := hl.sorted.sublist ((hsubR.append_left L).cons₂ _)
    rw [← cons_append, pairwise_append] at hs ⊢
    refine ⟨hs.1, pairwise_cons.2 ⟨fun x hx => hplace.high x (hsubR.subset hx), hs.2.1⟩, ?_⟩
    intro x hx y hy
    rcases mem_cons.1 hy with rfl | hy
    · rcases mem_cons.1 hx with rfl | hx
      · exact hbase
      · exact hplace.low x hx
    · exact hs.2.2 x hx y hy
  have hsizes : ∀ a ∈ L ++ R₁, (h.joinUpper bp p).size a = h.size a := fun a ha =>
    hu.size a (hne a (mem_cons_of_mem _ (hmem a ha)))
  have hempty : (h.joinUpper bp p).size (h.joinUpper bp p).base = 0 := by
    rw [hu.same.base, hu.size _ (Nat.ne_of_lt hbase)]
    exact hl.empty
  have hjoined : ∀ a ∈ L ++ R₁, ∀ b ∈ L ++ R₁, a + (h.joinUpper bp p).len a ≠ b := by
    intro a ha b hb'
    rw [len_eq (hsizes a ha)]
    exact hl.joined a (hmem a ha) b (hmem b hb')
  rcases joinLower_spec hb hlt hsorted hu.leads hu.cut hempty hjoined hu.joined with ⟨F', hlow⟩
  refine ⟨{ (h.joinUpper bp p).joinLower bp p with freep := some p }, F', ?_, ?_⟩
  · simp only [Heap.free, hfreep, Option.bind_eq_bind, Option.bind_some, hseek]
  · have hkept : ∀ a ∈ G, ((h.joinUpper bp p).joinLower bp p).size a = h.size a := by
      intro a ha
      have hap : a ≠ p := by
        rintro rfl
        rcases mem_cons.1 hp with rfl | hpF
        · exact hc.not_mem_base (mem_cons_of_mem _ (mem_append_right _ ha))
        · exact (nodup_append.1 hnodup.2).2.2 a hpF a ha rfl
      have habp : a ≠ bp := by
        rintro rfl
        exact hnodup.1.2 ha
      rw [hlow.size a hap, hu.size a habp]
    rcases hlow.room with ⟨a, ha, hroom⟩
    refine ⟨{ hlow.links with },
      hlow.cut.congr ⟨rfl, rfl, rfl, rfl⟩ fun _ _ => rfl, ⟨p, hlow.mem, rfl⟩, hkept,
      ⟨a, ha, hu.grown.trans hroom⟩, ?_, ?_, ?_⟩
    · have hlen := hlow.length
      have hle := (hsubR.append_left L).length_le
      omega
    · exact { hu.same.trans hlow.same with }
    · intro x hx
      rcases hlow.touched x hx with rfl | hx
      · exact Or.inr (Or.inl hp)
      · rcases hu.touched x hx with rfl | hx
        · exact Or.inl rfl
        · exact Or.inr (Or.inr hx)

end Xv6Schedulers.Malloc
