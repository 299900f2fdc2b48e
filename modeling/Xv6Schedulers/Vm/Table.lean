import Mathlib.Algebra.BigOperators.Fin
import Xv6Schedulers.Lib.Radix
import Xv6Schedulers.Vm.Owners
import Xv6Schedulers.Vm.PageTable

/-!
# Table — page tables as trees

A page table is a `Radix` tree of depth 2 whose pages are kept in physical memory.

* `Kept m t`: the words of memory are the entries of the tree `t`.
* `Grows m t m' t'`: tables were added to the tree; its entries and all other pages are as before.
* `walkFrom_spec`: `walk` leads to the slot of an address, and grows the tree where it must.
* `leafPte`, `tables`: the entry of an address and the pages of a table, read off the words of memory.
-/

namespace Xv6Schedulers.Vm

open Lib Exec Function

/-! ## Entries -/

section Bits

variable {p : Nat} {f : UInt64}

theorem toNat_pa2pte (h : p < 2 ^ 52) : (pa2pte p).toNat = p <<< 10 := by
  have hp : (UInt64.ofNat p).toNat = p := UInt64.toNat_ofNat_of_lt' (by
    show p < 2 ^ 64
    omega)
  rw [pa2pte, UInt64.toNat_shiftLeft, hp]
  show p <<< 10 % 2 ^ 64 = p <<< 10
  rw [Nat.shiftLeft_eq]
  omega

theorem toNat_entry (h : p < 2 ^ 52) (hf : f.toNat < 1024) :
    (pa2pte p ||| f).toNat = p * 1024 + f.toNat := by
  rw [UInt64.toNat_or, toNat_pa2pte h, ← Nat.shiftLeft_add_eq_or_of_lt hf, Nat.shiftLeft_eq]

theorem pte2pa_entry (h : p < 2 ^ 52) (hf : f.toNat < 1024) : pte2pa (pa2pte p ||| f) = p := by
  rw [pte2pa, UInt64.toNat_shiftRight, toNat_entry h hf]
  show (p * 1024 + f.toNat) >>> (10 % 64) % 2 ^ 52 = p
  rw [Nat.shiftRight_eq_div_pow]
  show (p * 1024 + f.toNat) / 1024 % 2 ^ 52 = p
  omega

theorem pteFlags_pa2pte (p : Nat) : pteFlags (pa2pte p) = 0 := by
  refine UInt64.toNat_inj.1 ?_
  rw [pteFlags, UInt64.toNat_and, pa2pte, UInt64.toNat_shiftLeft]
  show (UInt64.ofNat p).toNat <<< 10 % 2 ^ 64 &&& (2 ^ 10 - 1) = 0
  rw [Nat.and_two_pow_sub_one_eq_mod, Nat.shiftLeft_eq]
  omega

theorem pteFlags_entry (p : Nat) (hf : f.toNat < 1024) : pteFlags (pa2pte p ||| f) = f := by
  have hlow : f.toNat &&& (2 ^ 10 - 1) = f.toNat := by
    rw [Nat.and_two_pow_sub_one_eq_mod]
    exact Nat.mod_eq_of_lt hf
  have hzero : (pa2pte p).toNat &&& (2 ^ 10 - 1) = 0 := by
    have hflags := congrArg UInt64.toNat (pteFlags_pa2pte p)
    rwa [pteFlags, UInt64.toNat_and] at hflags
  refine UInt64.toNat_inj.1 ?_
  rw [pteFlags, UInt64.toNat_and, UInt64.toNat_or]
  show ((pa2pte p).toNat ||| f.toNat) &&& (2 ^ 10 - 1) = f.toNat
  rw [Nat.and_or_distrib_right, hzero, hlow, Nat.zero_or]

theorem or_valid (w : UInt64) : (w ||| PTE_V) &&& PTE_V ≠ 0 := by
  intro h
  have hbit := congrArg (fun x : UInt64 => x.toNat.testBit 0) h
  simp [PTE_V, UInt64.toNat_and, UInt64.toNat_or] at hbit

end Bits

/-! ## Tables -/

abbrev Table (n : Nat) := Radix (Fin 512) UInt64 n

/-- The entry that leads to a table. -/
def enc : Option Nat → UInt64
  | none => 0
  | some p => pa2pte p ||| PTE_V

theorem enc_valid (q : Nat) : enc (some q) &&& PTE_V ≠ 0 := or_valid _

theorem enc_invalid : ¬ (enc none &&& PTE_V ≠ 0) := by decide

theorem pte2pa_enc {q : Nat} (h : q < 2 ^ 52) : pte2pa (enc (some q)) = q :=
  pte2pa_entry h (by decide)

def path (va : Nat) : Radix.Path (Fin 512) := fun l => px l va

def Kept (m : Memory) {n : Nat} (t : Table n) : Prop := t.Stored m.page enc

/-- Tables were added to a tree. -/
structure Grows (m : Memory) {n : Nat} (t : Table n) (m' : Memory) (t' : Table n) : Prop
    extends Moves m (fun q => t.holds q) m' fun q => t'.holds q where
  kept : Kept m' t'
  page : t'.page? = t.page?
  get : ∀ π, t'.get 0 π = t.get 0 π

section Grows

variable {m m' m'' : Memory} {n p p' : Nat} {t t' t'' : Table n} {c : Fin 512 → Table n}
  {i : Fin 512} {rest : List Nat}

theorem Grows.refl (h : Kept m t) : Grows m t m t := ⟨Moves.refl m _, h, rfl, fun _ => rfl⟩

theorem Grows.trans (h₁ : Grows m t m' t') (h₂ : Grows m' t' m'' t'') : Grows m t m'' t'' where
  toMoves := h₁.toMoves.trans h₂.toMoves
  kept := h₂.kept
  page := h₂.page.trans h₁.page
  get π := (h₂.get π).trans (h₁.get π)

theorem Apart.child
    (h : Apart m fun q => (Radix.node p c).holds q) (i : Fin 512) : Apart m fun q => (c i).holds q :=
  h.mono fun q => Radix.holds_child p q i

theorem Grows.child (hk : Kept m (.node p c))
    (ha : Apart m fun q => (Radix.node p c).holds q) (h : Grows m (c i) m' t') :
    Grows m (.node p c) m' (.node p (update c i t')) := by
  have hself : m'.page p = m.page p := by
    refine h.frame p ?_
    have hone := ha.one p
    have hle := Radix.holds_page_child (c := c) p i
    omega
  refine ⟨⟨fun q => ?_, fun q hq => ?_, h.kernelEnd, h.trampoline⟩, ⟨fun j => ?_, fun j => ?_⟩, rfl,
    fun π => ?_⟩
  · have hcount := h.count q
    have hupdate := Radix.holds_update p q c i t'
    omega
  · have hle := Radix.holds_child (c := c) p q i
    exact h.frame q (by omega)
  · rw [hself, hk.1 j]
    by_cases hj : j = i
    · rw [hj, update_self, h.page]
    · rw [update_of_ne hj]
  · by_cases hj : j = i
    · rw [hj, update_self]
      exact h.kept
    · -- a page elsewhere in the tree is neither free nor below this entry
      rw [update_of_ne hj]
      refine (hk.2 j).congr fun q hq => h.frame q ?_
      have hone := ha.one q
      have hle := Radix.holds_children (c := c) p q hj
      omega
  · show (update c i t' (π (n + 1))).get 0 π = (c (π (n + 1))).get 0 π
    by_cases hi : π (n + 1) = i
    · rw [hi, update_self]
      exact h.get π
    · rw [update_of_ne hi]

/-! ## A new table -/

/-- A page from the free list is cleared and becomes the table below entry `i` of `p`. -/
def Memory.graft (m : Memory) (rest : List Nat) (p' p : Nat) (i : Fin 512) : Memory :=
  ((m.taken p' rest).setPage p' fun _ => 0).setWord p i (enc (some p'))

theorem page_graft (rest : List Nat) (p p' : Nat) (i : Fin 512) : (m.graft rest p' p i).page =
      update (update m.page p' fun _ => 0) p
        (update (update m.page p' (fun _ => 0) p) i (enc (some p'))) := by
  show update (update (update m.page p' fun _ => junk) p' fun _ => 0) p
    (update (update (update m.page p' fun _ => junk) p' (fun _ => 0) p) i _) =
    _
  rw [update_idem]

theorem graft_page_self (hne : p ≠ p') (i : Fin 512) :
    (m.graft rest p' p i).page p = update (m.page p) i (enc (some p')) := by
  rw [page_graft, update_self, update_of_ne hne]

theorem graft_page_new (hne : p ≠ p') (i : Fin 512) :
    (m.graft rest p' p i).page p' = fun _ => 0 := by
  rw [page_graft, update_of_ne hne.symm, update_self]

theorem graft_page_of_ne {p p' q : Nat} (hp : q ≠ p) (hp' : q ≠ p') (i : Fin 512) :
    (m.graft rest p' p i).page q = m.page q := by
  rw [page_graft, update_of_ne hp, update_of_ne hp']

theorem Grows.graft (hk : Kept m (.node p c)) (ha : Apart m fun q => (Radix.node p c).holds q)
    (hfree : m.freelist = p' :: rest) (hc : c i = .absent) :
    Grows m (.node p c) (m.graft rest p' p i)
      (.node p (update c i (Radix.blank 0 n p'))) := by
  have hself : 0 < (Radix.node p c).holds p := Radix.holds_page rfl
  have htaken := Moves.taken hfree fun q => (Radix.node p c).holds q
  have happ := ha.moves htaken
  -- the new page is not in the tree
  have hnew : (Radix.node p c).holds p' = 0 := by
    have hone := happ.one p'
    rw [single_self] at hone
    omega
  have hne : p ≠ p' := by
    rintro rfl
    omega
  have hholds : ∀ q, (Radix.node p (update c i (Radix.blank 0 n p'))).holds q =
      (Radix.node p c).holds q + single p' q := by
    intro q
    have hupdate := Radix.holds_update p q c i (Radix.blank 0 n p')
    rw [hc, Radix.holds_blank, Radix.holds_absent, Nat.add_zero] at hupdate
    exact hupdate
  have hmoves : Moves m (fun q => (Radix.node p c).holds q) (m.graft rest p' p i)
      fun q => (Radix.node p c).holds q + single p' q := by
    refine (htaken.trans (Moves.setPage ?_ _)).trans (Moves.setPage ?_ _)
    · rw [single_self]
      omega
    · omega
  refine ⟨?_, ⟨fun j => ?_, fun j => ?_⟩, rfl, fun π => ?_⟩
  · rw [funext hholds]
    exact hmoves
  · rw [graft_page_self hne]
    by_cases hj : j = i
    · rw [hj, update_self, update_self, Radix.page?_blank]
    · rw [update_of_ne hj, update_of_ne hj]
      exact hk.1 j
  · by_cases hj : j = i
    · rw [hj, update_self]
      exact Radix.stored_blank rfl (graft_page_new hne i) n
    · rw [update_of_ne hj]
      refine (hk.2 j).congr fun q hq => graft_page_of_ne ?_ ?_ i
      · rintro rfl
        have hle := Radix.holds_page_child (c := c) q j
        have hone := ha.one q
        omega
      · rintro rfl
        have hle := Radix.holds_child (c := c) p q j
        omega
  · show (update c i _ (π (n + 1))).get 0 π = (c (π (n + 1))).get 0 π
    by_cases hi : π (n + 1) = i
    · rw [hi, update_self, hc]
      exact Radix.get_blank 0 π n p'
    · rw [update_of_ne hi]

/-! ## `walk` -/

/-- What `walk` does: it leads to the slot of `va`, or there is no page for a table. -/
structure Walks (m : Memory) {n : Nat} (t : Table n) (va : Nat) (alloc : Bool) (r : Option PteRef)
    (m' : Memory) (t' : Table n) : Prop extends Grows m t m' t' where
  found : ∀ ref, r = some ref → t'.slot (path va) = some (ref.page, ref.idx)
  missing : r = none → alloc = true ∧ m'.freelist = [] ∨ alloc = false ∧ t'.slot (path va) = none
  dry : alloc = false → m' = m ∧ t' = t

theorem Walks.child {p va : Nat} {alloc : Bool} {r : Option PteRef}
    (hk : Kept m (.node p c)) (ha : Apart m fun q => (Radix.node p c).holds q)
    (h : Walks m (c (px (n + 1) va)) va alloc r m' t') :
    Walks m (.node p c) va alloc r m' (.node p (update c (px (n + 1) va) t')) := by
  have hslot : (Radix.node p (update c (px (n + 1) va) t')).slot (path va) = t'.slot (path va) := by
    show (update c (px (n + 1) va) t' (path va (n + 1))).slot (path va) = _
    rw [show path va (n + 1) = px (n + 1) va from rfl, update_self]
  refine ⟨h.toGrows.child hk ha, fun ref href => ?_, fun hnone => ?_, fun hdry => ?_⟩
  · rw [hslot]
    exact h.found ref href
  · rw [hslot]
    exact h.missing hnone
  · obtain ⟨hm, ht⟩ := h.dry hdry
    refine ⟨hm, ?_⟩
    rw [ht, update_eq_self]

theorem walkFrom_spec {E : Prop} (va : Nat) (alloc : Bool) {table : Nat} (hp : t.page? = some table)
    (hk : Kept m t) (ha : Apart m fun q => t.holds q) :
    Ends E (walkFrom va alloc n table) (fun r m' => ∃ t', Walks m t va alloc r m' t') m := by
  -- by induction on the level: the table below the entry is there, or a new one is put there
  induction n generalizing m table with
  | zero =>
    cases t with
    | absent => cases hp
    | leaf p e =>
      cases hp
      refine Ends.ret ⟨.leaf table e, Grows.refl hk, ?_, nofun, fun _ => ⟨rfl, rfl⟩⟩
      rintro _ ⟨⟩
      rfl
  | succ n ih =>
    cases t with
    | absent => cases hp
    | node p c =>
      cases hp
      have hread : getWord table (px (n + 1) va) m = .ok (enc (c (px (n + 1) va)).page?, m) := by
        rw [getWord, read_apply, hk.1]
      unfold walkFrom
      refine Ends.step hread ?_
      cases hc : (c (px (n + 1) va)).page? with
      | some q =>
        have hq : q < 2 ^ 52 := by
          have hpos := Radix.holds_page hc
          exact (ha.child (px (n + 1) va)).lt (by omega)
        rw [if_pos (enc_valid q), pte2pa_enc hq]
        refine (ih hc (hk.2 _) (ha.child _)).mono ?_
        rintro r m' ⟨t', ht'⟩
        exact ⟨_, ht'.child hk ha⟩
      | none =>
        have habsent := Radix.page?_eq_none hc
        rw [if_neg enc_invalid]
        cases alloc with
        | false =>
          refine Ends.ret ⟨.node table c, Grows.refl hk, nofun, fun _ => Or.inr ⟨rfl, ?_⟩,
            fun _ => ⟨rfl, rfl⟩⟩
          show (c (px (n + 1) va)).slot (path va) = none
          rw [habsent]
          rfl
        | true =>
          cases hfree : m.freelist with
          | nil =>
            refine Ends.step (kalloc_nil hfree) (Ends.ret ⟨.node table c, Grows.refl hk,
              nofun, fun _ => Or.inl ⟨rfl, hfree⟩, nofun⟩)
          | cons p' rest =>
            have hgraft := Grows.graft hk ha hfree habsent
            have hkept := hgraft.kept
            have happ := ha.moves hgraft.toMoves
            refine Ends.step (kalloc_cons hfree) (Ends.step (modify_apply _ _)
              (Ends.step (modify_apply _ _) ?_))
            have hnew : (update c (px (n + 1) va) (Radix.blank 0 n p')
                (px (n + 1) va)) = Radix.blank 0 n p' := update_self _ _ _
            refine (ih (t := Radix.blank 0 n p') (Radix.page?_blank 0 n p') ?_ ?_).mono ?_
            · have hchild := hkept.2 (px (n + 1) va)
              rw [hnew] at hchild
              exact hchild
            · have hchild := happ.child (px (n + 1) va)
              rw [hnew] at hchild
              exact hchild
            · rintro r m' ⟨t', ht'⟩
              rw [← hnew] at ht'
              have hw := Walks.child hkept happ ht'
              exact ⟨_, hgraft.trans hw.toGrows, hw.found, hw.missing, nofun⟩

end Grows

/-! ## Reading a table off memory -/

/-- The entry that the hardware finds for `va` from a table of this level; 0 if a table is missing. -/
def leafFrom (m : Memory) (va : Nat) : (level table : Nat) → UInt64
  | 0, table => m.page table (px 0 va)
  | level + 1, table =>
      let pte := m.page table (px (level + 1) va)
      if pte &&& PTE_V ≠ 0 then leafFrom m va level (pte2pa pte) else 0

def leafPte (m : Memory) (pagetable va : Nat) : UInt64 := leafFrom m va 2 pagetable

/-- The pages of a table of this level and of the tables below it. -/
def tablesFrom (m : Memory) : (level table : Nat) → List Nat
  | 0, table => [table]
  | level + 1, table =>
      table :: (List.finRange 512).flatMap fun i =>
        if m.page table i &&& PTE_V ≠ 0 then tablesFrom m level (pte2pa (m.page table i)) else []

def tables (m : Memory) (pagetable : Nat) : List Nat := tablesFrom m 2 pagetable

section Reading

variable {m : Memory} {n : Nat} {t : Table n}

theorem leafFrom_eq (va : Nat) {table : Nat} (hp : t.page? = some table) (hk : Kept m t)
    (hlt : ∀ q, 0 < t.holds q → q < 2 ^ 52) : leafFrom m va n table = t.get 0 (path va) := by
  induction t generalizing table with
  | absent => cases hp
  | leaf p e =>
    cases hp
    have hword : m.page p = e := hk
    rw [leafFrom, hword]
    rfl
  | @node n p c ih =>
    cases hp
    rw [leafFrom, hk.1]
    show _ = (c (px (n + 1) va)).get 0 (path va)
    cases hc : (c (px (n + 1) va)).page? with
    | none =>
      rw [if_neg enc_invalid, Radix.page?_eq_none hc]
      rfl
    | some q =>
      have hchild : ∀ q, 0 < (c (px (n + 1) va)).holds q → q < 2 ^ 52 := fun q hq =>
        hlt q (Nat.lt_of_lt_of_le hq (Radix.holds_child p q _))
      rw [if_pos (enc_valid q), pte2pa_enc (hchild q (Radix.holds_page hc))]
      exact ih _ hc (hk.2 _) hchild

theorem tablesFrom_count {table : Nat} (hp : t.page? = some table) (hk : Kept m t)
    (hlt : ∀ q, 0 < t.holds q → q < 2 ^ 52) (q : Nat) :
    (tablesFrom m n table).count q = t.holds q := by
  induction t generalizing table with
  | absent => cases hp
  | leaf p e =>
    cases hp
    rw [tablesFrom, List.count_singleton, Radix.holds]
    simp only [beq_iff_eq]
  | @node n p c ih =>
    cases hp
    have hentry : (List.count q ∘ fun i =>
        if m.page p i &&& PTE_V ≠ 0 then tablesFrom m n (pte2pa (m.page p i)) else []) =
          fun i => (c i).holds q := by
      funext i
      rw [comp_apply, hk.1 i]
      cases hc : (c i).page? with
      | none =>
        rw [if_neg enc_invalid, Radix.page?_eq_none hc]
        rfl
      | some r =>
        have hchild : ∀ q, 0 < (c i).holds q → q < 2 ^ 52 := fun q hq =>
          hlt q (Nat.lt_of_lt_of_le hq (Radix.holds_child p q _))
        rw [if_pos (enc_valid r), pte2pa_enc (hchild r (Radix.holds_page hc))]
        exact ih _ hc (hk.2 _) hchild
    have hself : (if p == q then 1 else 0) = if p = q then 1 else 0 := by
      simp only [beq_iff_eq]
    rw [tablesFrom, List.count_cons, List.count_flatMap, Radix.holds, Fin.sum_univ_def, hself,
      Nat.add_comm, hentry]

end Reading

end Xv6Schedulers.Vm
