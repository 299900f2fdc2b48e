import Mathlib.Data.Fintype.BigOperators
import Xv6Schedulers.Lib.Tally

/-!
# Radix — tables of tables, kept in pages

A tree of depth `n` is a page whose entries lead to trees of depth `n - 1`; at depth 0 the entries are
the data.  A path names an index for every level.

* `get`, `set`: the entry that a path leads to, as a map from paths.
* `slot`: the page and the index where that entry is kept.
* `holds q`: in how many places of the tree the page `q` is.
* `Stored word enc`: the words of the pages are the entries of the tree.
-/

namespace Xv6Schedulers.Lib

open Function

universe u v

inductive Radix (ι : Type u) (ω : Type v) : Nat → Type (max u v)
  | absent {n : Nat} : Radix ι ω n
  | leaf (page : Nat) (entry : ι → ω) : Radix ι ω 0
  | node {n : Nat} (page : Nat) (child : ι → Radix ι ω n) : Radix ι ω (n + 1)

namespace Radix

variable {ι : Type u} {ω : Type v} {n : Nat}

/-- An index for every level. -/
abbrev Path (ι : Type u) := Nat → ι

def page? : Radix ι ω n → Option Nat
  | absent => none
  | leaf p _ => some p
  | node p _ => some p

theorem page?_eq_none {t : Radix ι ω n} (h : t.page? = none) : t = absent := by
  cases t with
  | absent => rfl
  | leaf p e => cases h
  | node p c => cases h

/-- The entry at the end of a path; `z` where there is no table. -/
def get (z : ω) (π : Path ι) : {n : Nat} → Radix ι ω n → ω
  | _, absent => z
  | _, leaf _ e => e (π 0)
  | _, node (n := n) _ c => (c (π (n + 1))).get z π

/-- Where the entry at the end of a path is kept. -/
def slot (π : Path ι) : {n : Nat} → Radix ι ω n → Option (Nat × ι)
  | _, absent => none
  | _, leaf p _ => some (p, π 0)
  | _, node (n := n) _ c => (c (π (n + 1))).slot π

theorem get_of_slot_none (z : ω) {π : Path ι} {t : Radix ι ω n} (h : t.slot π = none) :
    t.get z π = z := by
  induction t with
  | absent => rfl
  | leaf p e => cases h
  | node p c ih => exact ih _ h

/-- A table without entries. -/
def blank (z : ω) : (n page : Nat) → Radix ι ω n
  | 0, p => leaf p fun _ => z
  | _ + 1, p => node p fun _ => absent

/-- Two paths agree on the levels of a tree of depth `n`. -/
def Agree (n : Nat) (π ρ : Path ι) : Prop := ∀ l ≤ n, π l = ρ l

theorem get_of_agree (z : ω) {π ρ : Path ι} (t : Radix ι ω n) (h : Agree n π ρ) :
    t.get z π = t.get z ρ := by
  induction t with
  | absent => rfl
  | leaf p e => rw [get, get, h 0 (Nat.le_refl 0)]
  | node p c ih =>
    rw [get, get, h _ (Nat.le_refl _)]
    exact ih _ fun l hl => h l (Nat.le_succ_of_le hl)

theorem get_blank (z : ω) (π : Path ι) (n p : Nat) : (blank z n p).get z π = z := by
  cases n with
  | zero => rfl
  | succ n => rfl

@[simp] theorem page?_blank (z : ω) (n p : Nat) : (blank z n p : Radix ι ω n).page? = some p := by
  cases n with
  | zero => rfl
  | succ n => rfl

section Update

variable [DecidableEq ι]

/-- Replace the entry at the end of a path. -/
def set (π : Path ι) (w : ω) : {n : Nat} → Radix ι ω n → Radix ι ω n
  | _, absent => absent
  | _, leaf p e => leaf p (update e (π 0) w)
  | _, node (n := n) p c => node p (update c (π (n + 1)) ((c (π (n + 1))).set π w))

@[simp] theorem page?_set (π : Path ι) (w : ω) (t : Radix ι ω n) : (t.set π w).page? = t.page? := by
  cases t <;> rfl

@[simp] theorem slot_set (π ρ : Path ι) (w : ω) (t : Radix ι ω n) :
    (t.set π w).slot ρ = t.slot ρ := by
  induction t with
  | absent => rfl
  | leaf p e => rfl
  | @node n p c ih =>
    rw [set, slot, slot]
    by_cases h : ρ (n + 1) = π (n + 1)
    · rw [h, update_self, ih]
    · rw [update_of_ne h]

theorem get_set_self (z : ω) (π : Path ι) (w : ω) (t : Radix ι ω n) (h : t.slot π ≠ none) :
    (t.set π w).get z π = w := by
  induction t with
  | absent => exact absurd rfl h
  | leaf p e =>
    rw [set, get]
    exact update_self _ _ _
  | node p c ih =>
    rw [set, get, update_self]
    exact ih _ h

theorem get_set_of_ne (z : ω) {π ρ : Path ι} (w : ω) (t : Radix ι ω n) (h : ¬ Agree n π ρ) :
    (t.set π w).get z ρ = t.get z ρ := by
  induction t with
  | absent => rfl
  | leaf p e =>
    have hne : ρ 0 ≠ π 0 := by
      intro heq
      refine h fun l hl => ?_
      rw [Nat.le_zero.1 hl, heq]
    rw [set, get, get]
    exact update_of_ne hne _ _
  | @node n p c ih =>
    rw [set, get, get]
    by_cases heq : ρ (n + 1) = π (n + 1)
    · rw [heq, update_self]
      refine ih _ fun hagree => h fun l hl => ?_
      rcases Nat.lt_or_ge l (n + 1) with hlt | hge
      · exact hagree l (Nat.le_of_lt_succ hlt)
      · rw [Nat.le_antisymm hl hge, heq]
    · rw [update_of_ne heq]

end Update

/-! ## The pages of a tree -/

section Pages

variable [Fintype ι]

/-- How often the page `q` occurs in the tree. -/
def holds (q : Nat) : {n : Nat} → Radix ι ω n → Nat
  | _, absent => 0
  | _, leaf p _ => if p = q then 1 else 0
  | _, node p c => (if p = q then 1 else 0) + ∑ i, (c i).holds q

@[simp] theorem holds_absent (q : Nat) : (absent : Radix ι ω n).holds q = 0 := rfl

theorem holds_blank (z : ω) (n p q : Nat) :
    (blank z n p : Radix ι ω n).holds q = if p = q then 1 else 0 := by
  cases n with
  | zero => rfl
  | succ n => simp [blank, holds]

theorem holds_child {c : ι → Radix ι ω n} (p q : Nat) (i : ι) :
    (c i).holds q ≤ (node p c).holds q := by
  have hle : (c i).holds q ≤ ∑ j, (c j).holds q :=
    Finset.single_le_sum (f := fun j => (c j).holds q) (fun _ _ => Nat.zero_le _) (Finset.mem_univ i)
  rw [holds]
  omega

theorem holds_page_child {c : ι → Radix ι ω n} (p : Nat) (i : ι) :
    (c i).holds p + 1 ≤ (node p c).holds p := by
  have hle : (c i).holds p ≤ ∑ j, (c j).holds p :=
    Finset.single_le_sum (f := fun j => (c j).holds p) (fun _ _ => Nat.zero_le _) (Finset.mem_univ i)
  rw [holds, if_pos rfl]
  omega

theorem holds_page {t : Radix ι ω n} {p : Nat} (h : t.page? = some p) : 0 < t.holds p := by
  cases t with
  | absent => cases h
  | leaf q e =>
    cases h
    simp [holds]
  | node q c =>
    cases h
    simp [holds]

theorem holds_slot {π : Path ι} {t : Radix ι ω n} {p : Nat} {i : ι} (h : t.slot π = some (p, i)) :
    0 < t.holds p := by
  induction t with
  | absent => cases h
  | leaf q e =>
    cases h
    simp [holds]
  | node q c ih =>
    have hchild := ih _ h
    exact hchild.trans_le (holds_child q p _)

variable [DecidableEq ι]

theorem holds_children {c : ι → Radix ι ω n} (p q : Nat) {i j : ι} (h : j ≠ i) :
    (c j).holds q + (c i).holds q ≤ (node p c).holds q := by
  have hle : (c j).holds q + (c i).holds q ≤ ∑ k, (c k).holds q := by
    rw [← Finset.sum_pair (f := fun k => (c k).holds q) h]
    exact Finset.sum_le_sum_of_subset (Finset.subset_univ _)
  rw [holds]
  omega

theorem holds_update (p q : Nat) (c : ι → Radix ι ω n) (i : ι) (t : Radix ι ω n) :
    (node p (update c i t)).holds q + (c i).holds q = (node p c).holds q + t.holds q := by
  have hsum := Tally.nat_sum_of_eq_off (f := fun j => (c j).holds q)
    (g := fun j => (update c i t j).holds q) i
    (fun j hj => by rw [update_of_ne hj])
  rw [update_self] at hsum
  rw [holds, holds]
  omega

@[simp] theorem holds_set (π : Path ι) (w : ω) (t : Radix ι ω n) (q : Nat) :
    (t.set π w).holds q = t.holds q := by
  induction t with
  | absent => rfl
  | leaf p e => rfl
  | @node n p c ih =>
    have hupdate := holds_update p q c (π (n + 1)) ((c (π (n + 1))).set π w)
    have hchild := ih (π (n + 1))
    rw [set]
    omega

end Pages

/-! ## Trees in memory -/

section Stored

variable {word word' : Nat → ι → ω} {enc : Option Nat → ω}

/-- The words of the pages are the entries of the tree; `enc` is the entry that leads to a page. -/
def Stored (word : Nat → ι → ω) (enc : Option Nat → ω) : {n : Nat} → Radix ι ω n → Prop
  | _, absent => True
  | _, leaf p e => word p = e
  | _, node p c => (∀ i, word p i = enc (c i).page?) ∧ ∀ i, (c i).Stored word enc

theorem Stored.word_slot (z : ω) {π : Path ι} {t : Radix ι ω n} (h : t.Stored word enc) {p : Nat}
    {i : ι} (hslot : t.slot π = some (p, i)) : word p i = t.get z π := by
  induction t with
  | absent => cases hslot
  | leaf q e =>
    cases hslot
    rw [get, h]
  | node q c ih => exact ih _ (h.2 _) hslot

variable [Fintype ι]

theorem Stored.congr {t : Radix ι ω n} (h : t.Stored word enc)
    (hword : ∀ q, 0 < t.holds q → word' q = word q) : t.Stored word' enc := by
  induction t with
  | absent => trivial
  | leaf p e => exact (hword p (holds_page rfl)).trans h
  | node p c ih =>
    have hself := hword p (holds_page rfl)
    refine ⟨fun i => ?_, fun i => ih i (h.2 i) fun q hq => hword q (hq.trans_le (holds_child p q i))⟩
    rw [hself]
    exact h.1 i

variable [DecidableEq ι]

omit [Fintype ι] [DecidableEq ι] in
theorem stored_blank {z : ω} (henc : enc none = z) {p : Nat} (hword : word p = fun _ => z) (n : Nat) :
    (blank z n p).Stored word enc := by
  cases n with
  | zero => exact hword
  | succ n =>
    refine ⟨fun i => ?_, fun _ => trivial⟩
    rw [hword]
    exact henc.symm

theorem Stored.set {π : Path ι} {t : Radix ι ω n} (h : t.Stored word enc)
    (hone : ∀ q, t.holds q ≤ 1) {p : Nat} {i : ι} (hslot : t.slot π = some (p, i)) (w : ω) :
    (t.set π w).Stored (update word p (update (word p) i w)) enc := by
  induction t with
  | absent => cases hslot
  | leaf q e =>
    cases hslot
    have hword : word p = e := h
    rw [Radix.set, Stored, update_self, hword]
  | @node n q c ih =>
    -- the page of the slot is in one child only, so it is neither this page nor in the others
    have hchild : 0 < (c (π (n + 1))).holds p := holds_slot hslot
    have hq : q ≠ p := by
      rintro rfl
      have hself := hone q
      have hle := holds_page_child (c := c) q (π (n + 1))
      omega
    have hother : ∀ j, j ≠ π (n + 1) → (c j).holds p = 0 := by
      intro j hj
      have hself := hone p
      have hle := holds_children (c := c) q p hj
      omega
    refine ⟨fun j => ?_, fun j => ?_⟩
    · rw [update_of_ne hq, h.1 j]
      by_cases hj : j = π (n + 1)
      · rw [hj, update_self, page?_set]
      · rw [update_of_ne hj]
    · by_cases hj : j = π (n + 1)
      · rw [hj, update_self]
        exact ih _ (h.2 _) (fun q => (holds_child _ q _).trans (hone q)) hslot
      · rw [update_of_ne hj]
        refine (h.2 j).congr fun r hr => update_of_ne (fun heq => ?_) _ _
        rw [heq, hother j hj] at hr
        exact Nat.lt_irrefl 0 hr

end Stored

end Radix

end Xv6Schedulers.Lib
