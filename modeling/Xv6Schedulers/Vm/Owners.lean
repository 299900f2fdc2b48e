import Xv6Schedulers.Vm.Memory

/-!
# Owners — who holds a page

Every page is on the free list, held by something (a table, an address space, a process), or neither.

* `Owners`: in how many places each page is held.
* `Apart m own`: no page is in two places of the free list and of `own`.
* `Moves m own m' own'`: pages went from the free list to the owners or back, and pages that were in
  neither have the contents they had.
-/

namespace Xv6Schedulers.Vm

open Lib Exec Function

/-- In how many places a page is held. -/
abbrev Owners := Nat → Nat

/-- One place holds the page `p`. -/
def single (p : Nat) : Owners := fun q => if p = q then 1 else 0

@[simp] theorem single_self (p : Nat) : single p p = 1 := if_pos rfl

/-- The pages that are held and the pages that are free are different pages of the memory for them. -/
structure Apart (m : Memory) (own : Owners) : Prop where
  one : ∀ q, m.freelist.count q + own q ≤ 1
  real : ∀ q, 0 < m.freelist.count q + own q → m.kernelEnd ≤ q ∧ q < PHYSTOP

structure Moves (m : Memory) (own : Owners) (m' : Memory) (own' : Owners) : Prop where
  count : ∀ q, m'.freelist.count q + own' q = m.freelist.count q + own q
  frame : ∀ q, m.freelist.count q + own q = 0 → m'.page q = m.page q
  kernelEnd : m'.kernelEnd = m.kernelEnd
  trampoline : m'.trampoline = m.trampoline

section Owners

variable {m m' m'' : Memory} {own own' own'' : Owners} {p : Nat}

theorem Apart.mono (h : Apart m own) (hle : ∀ q, own' q ≤ own q) : Apart m own' where
  one q := by
    have hone := h.one q
    have hq := hle q
    omega
  real q hq := by
    have hle := hle q
    exact h.real q (by omega)

theorem Apart.moves (h : Apart m own) (hm : Moves m own m' own') : Apart m' own' where
  one q := by
    rw [hm.count q]
    exact h.one q
  real q := by
    rw [hm.count q, hm.kernelEnd]
    exact h.real q

theorem Apart.lt (h : Apart m own) {q : Nat} (hq : 0 < m.freelist.count q + own q) : q < 2 ^ 52 :=
  Nat.lt_trans (h.real q hq).2 (by decide)

namespace Moves

theorem refl (m : Memory) (own : Owners) : Moves m own m own :=
  ⟨fun _ => rfl, fun _ _ => rfl, rfl, rfl⟩

theorem trans (h₁ : Moves m own m' own') (h₂ : Moves m' own' m'' own'') :
    Moves m own m'' own'' where
  count q := (h₂.count q).trans (h₁.count q)
  frame q hq := by
    have hq' : m'.freelist.count q + own' q = 0 := by
      rw [h₁.count q]
      exact hq
    rw [h₂.frame q hq', h₁.frame q hq]
  kernelEnd := h₂.kernelEnd.trans h₁.kernelEnd
  trampoline := h₂.trampoline.trans h₁.trampoline

theorem congr {own₁ own₁' : Owners} (h : Moves m own m' own') (hown : ∀ q, own₁ q = own q)
    (hown' : ∀ q, own₁' q = own' q) : Moves m own₁ m' own₁' := by
  rw [funext hown, funext hown']
  exact h

theorem extend (h : Moves m own m' own') (r : Owners) :
    Moves m (fun q => own q + r q) m' fun q => own' q + r q where
  count q := by
    have hcount := h.count q
    omega
  frame q hq := h.frame q (by omega)
  kernelEnd := h.kernelEnd
  trampoline := h.trampoline

theorem keeps (h : Moves m own m' own') {r : Owners} (ha : Apart m fun q => own q + r q) {q : Nat}
    (hq : 0 < r q) : m'.page q = m.page q := by
  refine h.frame q ?_
  have hone := ha.one q
  omega

theorem setPage (h : 0 < m.freelist.count p + own p) (v : Page) : Moves m own (m.setPage p v) own where
  count _ := rfl
  frame q hq := by
    have hne : q ≠ p := by
      rintro rfl
      omega
    exact update_of_ne hne v m.page
  kernelEnd := rfl
  trampoline := rfl

end Moves

/-! ## `kalloc` and `kfree` -/

/-- The memory after `kalloc` took `p`. -/
def Memory.taken (m : Memory) (p : Nat) (rest : List Nat) : Memory :=
  (m.setFreelist rest).setPage p fun _ => junk

theorem kalloc_nil (h : m.freelist = []) : kalloc m = .ok (none, m) := by
  rw [kalloc, h]

theorem kalloc_cons {rest : List Nat} (h : m.freelist = p :: rest) :
    kalloc m = .ok (some p, m.taken p rest) := by
  rw [kalloc, h]
  rfl

theorem Moves.taken {rest : List Nat} (h : m.freelist = p :: rest) (own : Owners) :
    Moves m own (m.taken p rest) fun q => own q + single p q where
  count q := by
    show rest.count q + _ = _
    rw [h, List.count_cons, single]
    simp only [beq_iff_eq]
    omega
  frame q hq := by
    have hne : q ≠ p := by
      rintro rfl
      rw [h, List.count_cons_self] at hq
      omega
    exact update_of_ne hne _ _
  kernelEnd := rfl
  trampoline := rfl

/-- A page is taken and its contents are set. -/
def Memory.filled (m : Memory) (p : Nat) (rest : List Nat) (v : Page) : Memory :=
  (m.taken p rest).setPage p v

theorem filled_page (m : Memory) (p : Nat) (rest : List Nat) (v : Page) :
    (m.filled p rest v).page p = v := by
  show update (m.taken p rest).page p v p = v
  rw [update_self]

theorem Moves.filled {rest : List Nat} (h : m.freelist = p :: rest) (v : Page) (own : Owners) :
    Moves m own (m.filled p rest v) fun q => own q + single p q := by
  refine (Moves.taken h own).trans (Moves.setPage ?_ _)
  rw [single_self]
  omega

/-- The memory after `kfree` took `p` back. -/
def Memory.freed (m : Memory) (p : Nat) : Memory :=
  (m.setPage p fun _ => dangling).setFreelist (p :: m.freelist)

theorem kfree_eq (h : m.kernelEnd ≤ p ∧ p < PHYSTOP) : kfree p m = .ok ((), m.freed p) :=
  if_neg (by omega)

theorem Moves.freed (m : Memory) (p : Nat) (own : Owners) :
    Moves m (fun q => own q + single p q) (m.freed p) own where
  count q := by
    show (p :: m.freelist).count q + _ = _
    rw [List.count_cons, single]
    simp only [beq_iff_eq]
    omega
  frame q hq := by
    have hne : q ≠ p := by
      rintro rfl
      rw [single_self] at hq
      omega
    exact update_of_ne hne _ _
  kernelEnd := rfl
  trampoline := rfl

end Owners

end Xv6Schedulers.Vm
