import Mathlib.Data.List.Basic
import Mathlib.Logic.Function.Basic

/-!
# Circle — circular lists given by a link function

* `Leads next a l b`: the links go from `a` through `l` to `b`.  A circle is `Leads next a l a`.
* `Before next a l p`: from `a` through `l`, the last one being `p`; it says nothing about the link
  of `p`, so that `p` can be linked anew.
* `seek next stop k p`: follow the links from `p` until `stop` holds, for at most `k` nodes.
-/

namespace Xv6Schedulers.Lib
namespace Circle

open List

universe u

variable {α : Type u}

/-- From `a` the links lead through `l` to `b`. -/
def Leads (next : α → α) : α → List α → α → Prop
  | a, [], b => next a = b
  | a, x :: l, b => next a = x ∧ Leads next x l b

/-- The links lead from `a` through `l`, where they have come to `p`. -/
def Before (next : α → α) (a : α) (l : List α) (p : α) : Prop :=
  (l = [] ∧ p = a) ∨ ∃ l', l = l' ++ [p] ∧ Leads next a l' p

def seek (next : α → α) (stop : α → Bool) : Nat → α → Option α
  | 0, _ => none
  | k + 1, p => if stop p then some p else seek next stop k (next p)

variable {next next' : α → α} {a b p x : α} {l l₁ l₂ r : List α}

theorem leads_append : Leads next a (l₁ ++ x :: l₂) b ↔ Leads next a l₁ x ∧ Leads next x l₂ b := by
  induction l₁ generalizing a with
  | nil => rfl
  | cons y l₁ ih =>
    show next a = y ∧ Leads next y (l₁ ++ x :: l₂) b ↔ (next a = y ∧ Leads next y l₁ x) ∧ _
    rw [ih, and_assoc]

namespace Leads

theorem congr (h : Leads next a l b) (heq : ∀ y ∈ a :: l, next' y = next y) :
    Leads next' a l b := by
  induction l generalizing a with
  | nil =>
    have hlink : next a = b := h
    exact (heq a (mem_singleton_self a)).trans hlink
  | cons y l ih =>
    refine ⟨(heq a mem_cons_self).trans h.1, ih h.2 fun z hz => ?_⟩
    exact heq z (mem_cons_of_mem a hz)

theorem replace (h : Leads next a l b) (ha : next' x = next a)
    (heq : ∀ y ∈ l, next' y = next y) : Leads next' x l b := by
  cases l with
  | nil => exact ha.trans h
  | cons y l => exact ⟨ha.trans h.1, h.2.congr heq⟩

theorem rotate (h : Leads next a l a) (hx : x ∈ a :: l) :
    ∃ l', Leads next x l' x ∧ (x :: l').Perm (a :: l) := by
  rcases mem_cons.1 hx with rfl | hx
  · exact ⟨l, h, Perm.refl _⟩
  · rcases append_of_mem hx with ⟨l₁, l₂, rfl⟩
    rcases leads_append.1 h with ⟨hto, hback⟩
    refine ⟨l₂ ++ a :: l₁, leads_append.2 ⟨hback, hto⟩, ?_⟩
    rw [← cons_append, ← cons_append]
    exact perm_append_comm

theorem seek_eq (h : Leads next a l b) {stop : α → Bool} {t : α} (ht : t ∈ a :: l)
    (hstop : stop t = true) (honly : ∀ y ∈ a :: l, stop y = true → y = t) {k : Nat}
    (hk : l.length < k) : seek next stop k a = some t := by
  induction l generalizing a k with
  | nil =>
    rcases k with _ | k
    · exact absurd hk (Nat.not_lt_zero _)
    · rw [mem_singleton.1 ht] at hstop
      rw [seek, if_pos hstop, mem_singleton.1 ht]
  | cons y l ih =>
    rcases k with _ | k
    · exact absurd hk (Nat.not_lt_zero _)
    · rw [seek]
      by_cases ha : stop a = true
      · rw [if_pos ha, honly a mem_cons_self ha]
      · rw [if_neg ha, h.1]
        have hta : t ≠ a := by
          rintro rfl
          exact ha hstop
        refine ih h.2 (mem_of_ne_of_mem hta ht)
          (fun z hz => honly z (mem_cons_of_mem a hz)) ?_
        rw [length_cons] at hk
        omega

end Leads

namespace Before

theorem mem (h : Before next a l p) : p ∈ a :: l := by
  rcases h with ⟨-, rfl⟩ | ⟨l', rfl, -⟩
  · exact mem_cons_self
  · simp

theorem leads_iff (h : Before next a l p) : Leads next a (l ++ r) b ↔ Leads next p r b := by
  rcases h with ⟨rfl, rfl⟩ | ⟨l', rfl, hto⟩
  · rfl
  · rw [append_assoc, singleton_append, leads_append, and_iff_right hto]

theorem congr (h : Before next a l p) (hnodup : (a :: l).Nodup)
    (heq : ∀ y ∈ a :: l, y ≠ p → next' y = next y) : Before next' a l p := by
  rcases h with ⟨rfl, rfl⟩ | ⟨l', rfl, hto⟩
  · exact Or.inl ⟨rfl, rfl⟩
  · refine Or.inr ⟨l', rfl, hto.congr fun y hy => heq y ?_ ?_⟩
    · rw [← cons_append]
      exact mem_append_left _ hy
    · rintro rfl
      rw [← cons_append, nodup_append] at hnodup
      exact hnodup.2.2 y hy y (mem_singleton_self y) rfl

theorem of_mem (h : Leads next a l b) (hp : p ∈ a :: l) :
    ∃ l₁ l₂, l = l₁ ++ l₂ ∧ Before next a l₁ p := by
  rcases mem_cons.1 hp with rfl | hp
  · exact ⟨[], l, rfl, Or.inl ⟨rfl, rfl⟩⟩
  · rcases append_of_mem hp with ⟨l₁, l₂, rfl⟩
    refine ⟨l₁ ++ [p], l₂, by simp, Or.inr ⟨l₁, rfl, ?_⟩⟩
    exact (leads_append.1 h).1

end Before

end Circle
end Xv6Schedulers.Lib
