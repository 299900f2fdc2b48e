import Mathlib.Data.List.Nodup
import Mathlib.Logic.Function.Basic
import Mathlib.Tactic.Common

/-!
# DList — circular doubly linked lists spliced in place

Nodes carry `next` and `prev` pointers; a list hangs off a distinguished node.

* `Chain L a l b`: from `a` the `next` pointers lead through the nodes `l` to `b`, and the `prev`
  pointers lead back.
* `Linked L h l`: the circle through `h` has the nodes `l` besides `h`, each once.
* `unlink` and `pushFront` are the pointer assignments for taking a node out of a list and for putting
  it in front.
* `walk` follows pointers back to `h`; `walk_next` and `walk_prev` say which nodes it meets.
-/

namespace Xv6Schedulers.Lib

open Function List

universe u

/-- The pointers of all nodes. -/
structure Links (N : Type u) where
  next : N → N
  prev : N → N

namespace Links

variable {N : Type u} [DecidableEq N]

def setNext (L : Links N) (x y : N) : Links N := { L with next := update L.next x y }

def setPrev (L : Links N) (x y : N) : Links N := { L with prev := update L.prev x y }

/-- `b->next->prev = b->prev; b->prev->next = b->next`. -/
def unlink (L : Links N) (b : N) : Links N :=
  let L := L.setPrev (L.next b) (L.prev b)
  L.setNext (L.prev b) (L.next b)

/-- `b->next = h->next; b->prev = h; h->next->prev = b; h->next = b`. -/
def pushFront (L : Links N) (h b : N) : Links N :=
  let L := L.setNext b (L.next h)
  let L := L.setPrev b h
  let L := L.setPrev (L.next h) b
  L.setNext h b

def Chain (L : Links N) : N → List N → N → Prop
  | a, [], b => L.next a = b ∧ L.prev b = a
  | a, x :: l, b => L.next a = x ∧ L.prev x = a ∧ Chain L x l b

structure Linked (L : Links N) (h : N) (l : List N) : Prop where
  chain : L.Chain h l h
  nodup : (h :: l).Nodup

/-- Follow pointers until `h` is met. -/
def walk (f : N → N) (h : N) : Nat → N → List N
  | 0, _ => []
  | k + 1, x => if x = h then [] else x :: walk f h k (f x)

variable {L K : Links N} {a b c h x : N} {l l₁ l₂ : List N}

/-! ## Chains -/

theorem chain_append : L.Chain a (l₁ ++ x :: l₂) b ↔ L.Chain a l₁ x ∧ L.Chain x l₂ b := by
  induction l₁ generalizing a with
  | nil =>
    rw [nil_append, Chain, Chain, and_assoc]
  | cons y l₁ ih =>
    rw [cons_append, Chain, Chain, ih, and_assoc, and_assoc]

theorem Chain.congr (hc : L.Chain a l b) (hnext : ∀ y ∈ a :: l, K.next y = L.next y)
    (hprev : ∀ y, y ∈ l ∨ y = b → K.prev y = L.prev y) : K.Chain a l b := by
  induction l generalizing a with
  | nil =>
    rcases hc with ⟨hn, hp⟩
    refine ⟨?_, ?_⟩
    · rw [hnext a mem_cons_self, hn]
    · rw [hprev b (.inr rfl), hp]
  | cons y l ih =>
    rcases hc with ⟨hn, hp, hrest⟩
    refine ⟨?_, ?_, ih hrest (fun z hz => hnext z (mem_cons_of_mem a hz)) fun z hz => ?_⟩
    · rw [hnext a mem_cons_self, hn]
    · rw [hprev y (.inl mem_cons_self), hp]
    · exact hprev z (hz.imp_left (mem_cons_of_mem y))

theorem Chain.next_mem (hc : L.Chain a l b) : L.next a ∈ l ∨ L.next a = b := by
  cases l with
  | nil => exact .inr hc.1
  | cons y l => exact .inl (by rw [hc.1]; exact mem_cons_self)

theorem Chain.prev_mem (hc : L.Chain a l b) : L.prev b ∈ a :: l := by
  induction l generalizing a with
  | nil => rw [hc.2]; exact mem_cons_self
  | cons y l ih => exact mem_cons_of_mem a (ih hc.2.2)

theorem Chain.prev_next (hc : L.Chain a l b) : L.prev (L.next a) = a := by
  cases l with
  | nil => rw [hc.1, hc.2]
  | cons y l => rw [hc.1, hc.2.1]

theorem Chain.next_prev (hc : L.Chain a l b) : L.next (L.prev b) = b := by
  induction l generalizing a with
  | nil => rw [hc.2, hc.1]
  | cons y l ih => exact ih hc.2.2

/-! ## Splicing -/

theorem Chain.skip (hc : L.Chain a (x :: l) b)
    (hnext : ∀ y ∈ l, K.next y = L.next y) (hfirst : K.next a = L.next x)
    (hprev : ∀ y, y ∈ l ∨ y = b → y ≠ L.next x → K.prev y = L.prev y)
    (hback : K.prev (L.next x) = a) (hnd : (l ++ [b]).Nodup) : K.Chain a l b := by
  rcases hc with ⟨-, -, hrest⟩
  cases l with
  | nil =>
    rw [hrest.1] at hfirst hback
    exact ⟨hfirst, hback⟩
  | cons y l =>
    rcases hrest with ⟨hy, -, hrest⟩
    rw [hy] at hfirst hback hprev
    refine ⟨hfirst, hback, hrest.congr hnext fun z hz => ?_⟩
    refine hprev z (hz.imp_left (mem_cons_of_mem y)) ?_
    rintro rfl
    rw [cons_append, nodup_cons] at hnd
    apply hnd.1
    rw [mem_append, mem_singleton]
    exact hz

theorem Chain.splice (hc : L.Chain a (l₁ ++ x :: l₂) b)
    (hnext : ∀ y, y ≠ L.prev x → K.next y = L.next y) (hfirst : K.next (L.prev x) = L.next x)
    (hprev : ∀ y, y ≠ L.next x → K.prev y = L.prev y) (hback : K.prev (L.next x) = L.prev x)
    (hnd : (a :: (l₁ ++ x :: l₂)).Nodup) (hnd' : (l₁ ++ x :: (l₂ ++ [b])).Nodup) :
    K.Chain a (l₁ ++ l₂) b := by
  induction l₁ generalizing a with
  | nil =>
    have hx : L.prev x = a := hc.2.1
    rw [hx] at hnext hfirst hback
    rw [nil_append, nodup_cons] at hnd hnd'
    refine hc.skip (fun y hy => hnext y ?_) hfirst (fun y _ => hprev y) hback hnd'.2
    rintro rfl
    exact hnd.1 (mem_cons_of_mem x hy)
  | cons y l₁ ih =>
    rcases hc with ⟨hn, hp, hrest⟩
    rcases chain_append.1 hrest with ⟨hbefore, hafter⟩
    rw [cons_append] at hnd hnd'
    refine ⟨?_, ?_, ih hrest (nodup_cons.1 hnd).2 (nodup_cons.1 hnd').2⟩
    · rw [hnext a ?_, hn]
      rintro rfl
      refine (nodup_cons.1 hnd).1 ?_
      rw [← cons_append]
      exact mem_append_left _ hbefore.prev_mem
    · rw [hprev y ?_, hp]
      rintro rfl
      refine (nodup_cons.1 hnd').1 (mem_append_right _ (mem_cons_of_mem x ?_))
      rw [mem_append, mem_singleton]
      exact hafter.next_mem

theorem unlink_next (h : L.next b ≠ b) :
    (L.unlink b).next = update L.next (L.prev b) (L.next b) := by
  have hprev : (L.setPrev (L.next b) (L.prev b)).prev b = L.prev b := update_of_ne h.symm _ _
  exact congrArg (fun p => update L.next p (L.next b)) hprev

theorem unlink_prev (L : Links N) (b : N) :
    (L.unlink b).prev = update L.prev (L.next b) (L.prev b) := rfl

theorem Linked.nodup_rotate (hl : L.Linked h (l₁ ++ b :: l₂)) : (l₁ ++ b :: (l₂ ++ [h])).Nodup := by
  have hperm := perm_append_singleton h (l₁ ++ b :: l₂)
  rw [append_assoc, cons_append] at hperm
  exact hperm.nodup_iff.2 hl.nodup

theorem Linked.unlink (hl : L.Linked h (l₁ ++ b :: l₂)) : (L.unlink b).Linked h (l₁ ++ l₂) := by
  have hnd := hl.nodup_rotate
  have hself : L.next b ≠ b := by
    intro heq
    have hmem := (chain_append.1 hl.chain).2.next_mem
    rw [heq] at hmem
    refine (nodup_cons.1 (nodup_append.1 hnd).2.1).1 ?_
    rw [mem_append, mem_singleton]
    exact hmem
  refine ⟨?_, ?_⟩
  · refine hl.chain.splice ?_ ?_ ?_ ?_ hl.nodup hnd
    · intro y hy
      rw [unlink_next hself, update_of_ne hy]
    · rw [unlink_next hself, update_self]
    · intro y hy
      rw [unlink_prev, update_of_ne hy]
    · rw [unlink_prev, update_self]
  · refine hl.nodup.sublist (Sublist.cons_cons h ?_)
    exact Sublist.append_left (sublist_cons_self b l₂) l₁

theorem Linked.pushFront (hl : L.Linked h l) (hb : b ∉ h :: l) :
    (L.pushFront h b).Linked h (b :: l) := by
  have hbh : b ≠ h := fun heq => hb (by rw [heq]; exact mem_cons_self)
  have hbl : b ∉ l := fun hm => hb (mem_cons_of_mem h hm)
  have hhl : h ∉ l := (nodup_cons.1 hl.nodup).1
  have hnext : (L.pushFront h b).next = update (update L.next b (L.next h)) h b := rfl
  have hfirst : update L.next b (L.next h) h = L.next h := update_of_ne hbh.symm _ _
  have hprev : (L.pushFront h b).prev = update (update L.prev b h) (L.next h) b :=
    congrArg (fun y => update (update L.prev b h) y b) hfirst
  -- the old first node is not `b`
  have hne : L.next h ≠ b := by
    rintro rfl
    rcases hl.chain.next_mem with hm | hm
    · exact hbl hm
    · exact hbh hm
  refine ⟨⟨?_, ?_, ?_⟩, ?_⟩
  · rw [hnext, update_self]
  · rw [hprev, update_of_ne hne.symm, update_self]
  · have hb' : (L.pushFront h b).next b = L.next h := by
      rw [hnext, update_of_ne hbh, update_self]
    have hback : (L.pushFront h b).prev (L.next h) = b := by
      rw [hprev, update_self]
    have hkeep : ∀ y, y ≠ b → y ≠ L.next h → (L.pushFront h b).prev y = L.prev y := by
      intro y hy hy'
      rw [hprev, update_of_ne hy', update_of_ne hy]
    cases l with
    | nil =>
      rw [hl.chain.1] at hb' hback
      exact ⟨hb', hback⟩
    | cons y l =>
      rcases hl.chain with ⟨hy, -, hrest⟩
      rw [hy] at hb' hback hkeep
      refine ⟨hb', hback, hrest.congr (fun z hz => ?_) fun z hz => ?_⟩
      · have hzb : z ≠ b := by
          rintro rfl
          exact hbl hz
        have hzh : z ≠ h := by
          rintro rfl
          exact hhl hz
        rw [hnext, update_of_ne hzh, update_of_ne hzb]
      · have hmem : z ∈ h :: (y :: l) ∧ z ≠ y := by
          rcases hz with hz | rfl
          · refine ⟨mem_cons_of_mem h (mem_cons_of_mem y hz), ?_⟩
            rintro rfl
            exact (nodup_cons.1 (nodup_cons.1 hl.nodup).2).1 hz
          · refine ⟨mem_cons_self, ?_⟩
            rintro rfl
            exact hhl mem_cons_self
        refine hkeep z ?_ hmem.2
        rintro rfl
        exact hb hmem.1
  · refine nodup_cons.2 ⟨?_, nodup_cons.2 ⟨hbl, (nodup_cons.1 hl.nodup).2⟩⟩
    rw [mem_cons, not_or]
    exact ⟨hbh.symm, hhl⟩

/-! ## Following the pointers -/

theorem Chain.walk_next (hc : L.Chain a l h) (hh : h ∉ l) {k : Nat} (hk : l.length ≤ k) :
    walk L.next h k (L.next a) = l := by
  induction l generalizing a k with
  | nil =>
    cases k with
    | zero => rfl
    | succ k => rw [walk, if_pos hc.1]
  | cons y l ih =>
    cases k with
    | zero => cases hk
    | succ k =>
      have hy : y ≠ h := fun heq => hh (by rw [heq]; exact mem_cons_self)
      rw [hc.1, walk, if_neg hy, ih hc.2.2 (fun hm => hh (mem_cons_of_mem y hm))
        (Nat.le_of_succ_le_succ hk)]

theorem Chain.reverse (hc : L.Chain a l b) : Chain ⟨L.prev, L.next⟩ b l.reverse a := by
  induction l generalizing a with
  | nil => exact ⟨hc.2, hc.1⟩
  | cons y l ih =>
    rw [reverse_cons, chain_append]
    exact ⟨ih hc.2.2, hc.2.1, hc.1⟩

theorem Linked.walk_next (hl : L.Linked h l) {k : Nat} (hk : l.length ≤ k) :
    walk L.next h k (L.next h) = l :=
  hl.chain.walk_next (nodup_cons.1 hl.nodup).1 hk

theorem Linked.walk_prev (hl : L.Linked h l) {k : Nat} (hk : l.length ≤ k) :
    walk L.prev h k (L.prev h) = l.reverse := by
  refine hl.chain.reverse.walk_next ?_ ?_
  · rw [mem_reverse]
    exact (nodup_cons.1 hl.nodup).1
  · rw [length_reverse]
    exact hk

theorem Linked.inverse (hl : L.Linked h l) (hx : x ∈ h :: l) :
    L.prev (L.next x) = x ∧ L.next (L.prev x) = x := by
  rcases mem_cons.1 hx with rfl | hm
  · exact ⟨hl.chain.prev_next, hl.chain.next_prev⟩
  · rcases append_of_mem hm with ⟨l₁, l₂, rfl⟩
    rcases chain_append.1 hl.chain with ⟨hbefore, hafter⟩
    exact ⟨hafter.prev_next, hbefore.next_prev⟩

end Links

end Xv6Schedulers.Lib
