import Mathlib.Data.Fintype.Card
import Xv6Schedulers.Bio.Cache

/-!
# Lru — the shape of the buffer list and the order of reuse

One invariant ties the list, its order and the reference counts together:

* `Ordered s l`: the pointers form the list `l` of all buffers, and a buffer stands before another
  that `brelse` freed less recently.
* `Inv`: there is such a list, no two assigned buffers hold the same block, and a reference count is
  the number of outstanding gets and pins.
-/

namespace Xv6Schedulers.Bio

open Lib Function List

variable {s t : Cache} {a : Act} {b : Buf} {l : List Buf}

/-- `brelse` freed `c` after it last freed `b`, if it ever freed `b`. -/
def Newer (s : Cache) (c b : Buf) : Prop :=
  ∀ k, s.freedAt b = some k → ∃ k', s.freedAt c = some k' ∧ k < k'

structure Ordered (s : Cache) (l : List Buf) : Prop where
  linked : s.links.Linked none (l.map some)
  all : ∀ b, b ∈ l
  recent : l.Pairwise (Newer s)
  past : ∀ b k, s.freedAt b = some k → k < s.clock

structure Inv (s : Cache) : Prop where
  order : ∃ l, Ordered s l
  distinct : ∀ b b', s.assigned b = true → s.assigned b' = true → s.dev b = s.dev b' →
    s.blockno b = s.blockno b' → b = b'
  count : ∀ b, s.refcnt b = s.gets b + s.pins b

/-! ## The loops of `bget` follow the list -/

theorem Ordered.nodup (h : Ordered s l) : l.Nodup :=
  Nodup.of_map some (nodup_cons.1 h.linked.nodup).2

theorem Ordered.length (h : Ordered s l) : (l.map some).length ≤ NBUF := by
  rw [length_map]
  exact h.nodup.length_le_card.trans_eq (Fintype.card_fin NBUF)

theorem Ordered.perm (h : Ordered s l) : l.Perm (finRange NBUF) :=
  (perm_ext_iff_of_nodup h.nodup (nodup_finRange NBUF)).2 fun b =>
    iff_of_true (h.all b) (mem_finRange b)

theorem Ordered.forward (h : Ordered s l) : s.forward = l := by
  rw [Cache.forward, h.linked.walk_next h.length, filterMap_map]
  exact filterMap_some

theorem Ordered.backward (h : Ordered s l) : s.backward = l.reverse := by
  rw [Cache.backward, h.linked.walk_prev h.length, ← map_reverse, filterMap_map]
  exact filterMap_some

theorem Inv.not_cached (h : Inv s) {dev blockno : UInt32} (hnone : s.cached dev blockno = none)
    (b : Buf) : ¬ (s.dev b = dev ∧ s.blockno b = blockno) := by
  rcases h.order with ⟨l, hl⟩
  rw [Cache.cached, hl.forward, find?_eq_none] at hnone
  simpa using hnone b (hl.all b)

theorem unused_refcnt (hb : s.unused = some b) : s.refcnt b = 0 := by
  simpa using find?_some hb

theorem Inv.least_recent (h : Inv s) (hb : s.unused = some b) {b' : Buf}
    (hfree : s.refcnt b' = 0) (hne : b' ≠ b) : Newer s b' b := by
  rcases h.order with ⟨l, hl⟩
  rw [Cache.unused, hl.backward, find?_eq_some_iff_append] at hb
  rcases hb with ⟨-, before, after, hsplit, hskip⟩
  have hl' : l = after.reverse ++ b :: before.reverse := by
    rw [← reverse_reverse l, hsplit, reverse_append, reverse_cons,
      append_assoc, singleton_append]
  -- the buffers behind `b` are in use
  have hmem : b' ∈ after.reverse := by
    have hin := hl.all b'
    rw [hl', mem_append, mem_cons] at hin
    rcases hin with hin | hin | hin
    · exact hin
    · exact absurd hin hne
    · have hused := hskip b' (mem_reverse.1 hin)
      simp [hfree] at hused
  have hrecent := hl.recent
  rw [hl'] at hrecent
  exact (pairwise_append.1 hrecent).2.2 b' hmem b mem_cons_self

/-! ## The invariant survives -/

theorem Ordered.of_eq (h : Ordered s l) (hlinks : t.links = s.links) (hclock : t.clock = s.clock)
    (hfreed : t.freedAt = s.freedAt) : Ordered t l := by
  refine ⟨?_, h.all, ?_, ?_⟩
  · rw [hlinks]
    exact h.linked
  · refine h.recent.imp fun {c b} hnewer => ?_
    rw [Newer, hfreed]
    exact hnewer
  · rw [hfreed, hclock]
    exact h.past

theorem Ordered.toFront (h : Ordered s l) (b : Buf) : ∃ l', Ordered (s.toFront b) l' := by
  rcases append_of_mem (h.all b) with ⟨l₁, l₂, rfl⟩
  have hlinked := h.linked
  rw [map_append, map_cons] at hlinked
  have hnd := h.nodup
  have hmid : b ∉ l₁ ++ l₂ := (nodup_cons.1 (nodup_middle.1 hnd)).1
  have hrest : (l₁ ++ l₂).Pairwise (Newer s) :=
    h.recent.sublist (Sublist.append_left (sublist_cons_self b l₂) l₁)
  have hother : ∀ c ∈ l₁ ++ l₂, (s.toFront b).freedAt c = s.freedAt c := by
    intro c hc
    refine update_of_ne ?_ _ _
    rintro rfl
    exact hmid hc
  have hself : (s.toFront b).freedAt b = some s.clock := update_self _ _ _
  refine ⟨b :: (l₁ ++ l₂), ?_, ?_, ?_, ?_⟩
  · have hout : some b ∉ none :: (l₁.map some ++ l₂.map some) := by
      rw [← map_append, mem_cons, mem_map, not_or]
      refine ⟨Option.some_ne_none b, ?_⟩
      rintro ⟨c, hc, heq⟩
      exact hmid (Option.some.inj heq ▸ hc)
    have hfront := hlinked.unlink.pushFront hout
    rwa [← map_append, ← map_cons] at hfront
  · intro c
    have hc := h.all c
    rw [mem_append, mem_cons] at hc
    rw [mem_cons, mem_append]
    exact or_left_comm.1 hc
  · refine pairwise_cons.2 ⟨fun c hc k hk => ?_, ?_⟩
    · rw [hother c hc] at hk
      exact ⟨s.clock, hself, h.past c k hk⟩
    · refine hrest.imp_of_mem fun {c d} hc hd hnewer k hk => ?_
      rw [hother d hd] at hk
      rw [hother c hc]
      exact hnewer k hk
  · intro c k hk
    by_cases hcb : c = b
    · rw [hcb, hself] at hk
      exact Nat.lt_succ_of_le (Option.some.inj hk).ge
    · rw [show (s.toFront b).freedAt c = s.freedAt c from update_of_ne hcb _ _] at hk
      exact Nat.lt_succ_of_lt (h.past c k hk)

theorem count_update {r g q : Buf → Nat} (h : ∀ b, r b = g b + q b) (b : Buf) {x y : Nat}
    (hx : x = y + q b) (c : Buf) :
    update r b x c = update g b y c + q c := by
  by_cases hcb : c = b
  · subst hcb
    rw [update_self, update_self, hx]
  · rw [update_of_ne hcb, update_of_ne hcb, h c]

theorem Inv.recycle_distinct (h : Inv s) {dev blockno : UInt32}
    (hnone : s.cached dev blockno = none) (b c d : Buf)
    (hc : (s.recycle b dev blockno).assigned c = true)
    (hd : (s.recycle b dev blockno).assigned d = true)
    (hdev : (s.recycle b dev blockno).dev c = (s.recycle b dev blockno).dev d)
    (hblock : (s.recycle b dev blockno).blockno c = (s.recycle b dev blockno).blockno d) :
    c = d := by
  have hself : (s.recycle b dev blockno).dev b = dev ∧ (s.recycle b dev blockno).blockno b = blockno :=
    ⟨update_self _ _ _, update_self _ _ _⟩
  have hother : ∀ x, x ≠ b → (s.recycle b dev blockno).dev x = s.dev x ∧
      (s.recycle b dev blockno).blockno x = s.blockno x ∧
      (s.recycle b dev blockno).assigned x = s.assigned x := fun x hx =>
    ⟨update_of_ne hx _ _, update_of_ne hx _ _, update_of_ne hx _ _⟩
  by_cases hcb : c = b
  · by_cases hdb : d = b
    · rw [hcb, hdb]
    · rw [hcb, hself.1, (hother d hdb).1] at hdev
      rw [hcb, hself.2, (hother d hdb).2.1] at hblock
      exact absurd ⟨hdev.symm, hblock.symm⟩ (h.not_cached hnone d)
  · rcases hother c hcb with ⟨hcdev, hcblock, hcassigned⟩
    rw [hcdev] at hdev
    rw [hcblock] at hblock
    by_cases hdb : d = b
    · rw [hdb, hself.1] at hdev
      rw [hdb, hself.2] at hblock
      exact absurd ⟨hdev, hblock⟩ (h.not_cached hnone c)
    · rcases hother d hdb with ⟨hddev, hdblock, hdassigned⟩
      exact h.distinct c d (hcassigned ▸ hc) (hdassigned ▸ hd) (hdev.trans hddev)
        (hblock.trans hdblock)

theorem inv_step (h : Inv s) (hstep : Step s a t) : Inv t := by
  rcases h.order with ⟨l, hl⟩
  cases hstep with
  | @hit dev blockno b hb =>
    refine ⟨⟨l, hl.of_eq rfl rfl rfl⟩, h.distinct, count_update h.count b ?_⟩
    rw [h.count b, Nat.add_right_comm]
  | @recycle dev blockno b hnone hb =>
    have hzero := unused_refcnt hb
    rw [h.count b, Nat.add_eq_zero_iff] at hzero
    refine ⟨⟨l, hl.of_eq rfl rfl rfl⟩, ?_, count_update h.count b ?_⟩
    · exact h.recycle_distinct hnone b
    · rw [hzero.1, hzero.2]
  | dry _ _ => exact ⟨⟨l, hl.of_eq rfl rfl rfl⟩, h.distinct, h.count⟩
  | @release b hget hlast =>
    have hdrop : Ordered (s.drop b) l := hl.of_eq rfl rfl rfl
    refine ⟨hdrop.toFront b, h.distinct, count_update h.count b ?_⟩
    have hcount := h.count b
    omega
  | @drop b hget hmore =>
    refine ⟨⟨l, hl.of_eq rfl rfl rfl⟩, h.distinct, count_update h.count b ?_⟩
    have hcount := h.count b
    omega
  | bpin b =>
    refine ⟨⟨l, hl.of_eq rfl rfl rfl⟩, h.distinct, fun c => ?_⟩
    rw [Nat.add_comm]
    refine count_update (fun c => (h.count c).trans (Nat.add_comm _ _)) b ?_ c
    rw [h.count b, Nat.add_assoc, Nat.add_comm]
  | @bunpin b hpin =>
    refine ⟨⟨l, hl.of_eq rfl rfl rfl⟩, h.distinct, fun c => ?_⟩
    rw [Nat.add_comm]
    refine count_update (fun c => (h.count c).trans (Nat.add_comm _ _)) b ?_ c
    have hcount := h.count b
    omega

/-! ## Every run -/

theorem foldl_pushFront (bs l : List Buf) {L : Links (Option Buf)}
    (h : L.Linked none (l.map some)) (hnd : (bs.reverse ++ l).Nodup) :
    (bs.foldl (fun L b => L.pushFront none (some b)) L).Linked none
      ((bs.reverse ++ l).map some) := by
  induction bs generalizing l L with
  | nil => exact h
  | cons b bs ih =>
    rw [reverse_cons, append_assoc, singleton_append] at hnd ⊢
    refine ih (b :: l) (h.pushFront ?_) hnd
    rw [mem_cons, mem_map, not_or]
    refine ⟨Option.some_ne_none b, ?_⟩
    rintro ⟨c, hc, heq⟩
    cases heq
    exact (nodup_cons.1 (nodup_append.1 hnd).2.1).1 hc

theorem inv_boot : Inv Cache.boot := by
  have hempty : Links.Linked (⟨fun _ => none, fun _ => none⟩ : Links (Option Buf)) none
      (([] : List Buf).map some) := ⟨⟨rfl, rfl⟩, nodup_singleton none⟩
  have hnd : ((finRange NBUF).reverse ++ []).Nodup := by
    rw [append_nil, nodup_reverse]
    exact nodup_finRange NBUF
  refine ⟨⟨_, foldl_pushFront (finRange NBUF) [] hempty hnd, fun b => ?_, ?_, ?_⟩, ?_, ?_⟩
  · rw [append_nil, mem_reverse]
    exact mem_finRange b
  · exact pairwise_of_forall fun c b k hk => by cases hk
  · intro b k hk
    cases hk
  · intro b b' hb
    cases hb
  · intro b
    rfl

theorem reachable_inv (h : machine.Reaches .boot s) : Inv s := by
  refine h.invariant inv_boot ?_
  intro s a t hinv hstep
  exact inv_step hinv (step_cases hstep).2

theorem step_keeps_block (hstep : Step s a t) (hb : 0 < s.refcnt b) :
    t.dev b = s.dev b ∧ t.blockno b = s.blockno b := by
  cases hstep with
  | @recycle dev blockno c hnone hc =>
    have hne : b ≠ c := by
      rintro rfl
      exact Nat.ne_of_gt hb (unused_refcnt hc)
    exact ⟨update_of_ne hne _ _, update_of_ne hne _ _⟩
  | _ => exact ⟨rfl, rfl⟩

end Xv6Schedulers.Bio
