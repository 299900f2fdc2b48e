import Xv6Schedulers.Vm.Map

/-!
# Translate — the three-level table is a map of addresses

What `mappages`, `uvmunmap` and `walk` do to the translation of every address, for any table that was
built by them.

* `translate m pagetable va`: the page and the flags that the table gives for an address.
* `Built pagetable m`: the table came from an empty root by calls of `vm.c`, while the rest of the
  kernel used other pages.
* `page_table_is_map`: each call changes exactly the translations it is asked to change.
-/

namespace Xv6Schedulers.Vm

open Lib Exec Function

/-- What an entry translates to. -/
def view (w : UInt64) : Option (Nat × UInt64) :=
  if w &&& PTE_V ≠ 0 then some (pte2pa w, pteFlags w) else none

def translate (m : Memory) (pagetable va : Nat) : Option (Nat × UInt64) :=
  view (leafPte m pagetable va)

/-- The frames that the table gives for `n` pages from `va` on. -/
def framesAt (m : Memory) (pagetable va n : Nat) : List Nat :=
  (List.range n).map fun k => pte2pa (leafPte m pagetable (va + k * PGSIZE))

/-- The frames of a range belong to the owner of the table, who may free them. -/
structure Freeable (m : Memory) (pagetable va n : Nat) : Prop where
  nodup : (framesAt m pagetable va n).Nodup
  table : ∀ f ∈ framesAt m pagetable va n, f ∉ tables m pagetable
  used : ∀ f ∈ framesAt m pagetable va n, f ∉ m.freelist
  real : ∀ f ∈ framesAt m pagetable va n, m.kernelEnd ≤ f ∧ f < PHYSTOP

/-- A free list as `kinit` leaves it. -/
structure FreeList (m : Memory) : Prop where
  nodup : m.freelist.Nodup
  real : ∀ p ∈ m.freelist, m.kernelEnd ≤ p ∧ p < PHYSTOP

/-- The table with this root was built from an empty one. -/
inductive Built (pagetable : Nat) : Memory → Prop
  | create {m m' : Memory} (hfree : FreeList m) (h : uvmcreate m = .ok (some pagetable, m')) :
      Built pagetable m'
  | walk {m m' : Memory} {va : Nat} {r : Option PteRef} (hb : Built pagetable m)
      (h : walk pagetable va true m = .ok (r, m')) : Built pagetable m'
  | mappages {m m' : Memory} {va size p : Nat} {perm : UInt64} {b : Bool} (hb : Built pagetable m)
      (h : mappages pagetable va size p perm m = .ok (b, m')) : Built pagetable m'
  | uvmunmap {m m' : Memory} {va n : Nat} {doFree : Bool} (hb : Built pagetable m)
      (hown : doFree = true → Freeable m pagetable va n)
      (h : uvmunmap pagetable va n doFree m = .ok ((), m')) : Built pagetable m'
  /-- pages outside the table are taken, freed and written -/
  | other {m m' : Memory} (hb : Built pagetable m)
      (hpage : ∀ p ∈ tables m pagetable, m'.page p = m.page p) (hfree : FreeList m')
      (hapart : ∀ p ∈ m'.freelist, p ∉ tables m pagetable) (hend : m'.kernelEnd = m.kernelEnd) :
      Built pagetable m'

section Tree

variable {m m' : Memory} {root : Nat} {t t' : Table 2} {E : Prop}

theorem translate_eq (h : Tree m root t) (ha : Apart m fun q => t.holds q) (va : Nat) :
    translate m root va = view (entry t (va / PGSIZE)) := by
  rw [translate, leafPte_eq h ha]

theorem mem_tables (h : Tree m root t) (ha : Apart m fun q => t.holds q) (q : Nat) :
    q ∈ tables m root ↔ 0 < t.holds q := by
  rw [← List.count_pos_iff, tables, tablesFrom_count h.root h.kept fun q hq => ha.lt (by omega)]

theorem mem_range_iff (v n a : Nat) : v * PGSIZE ≤ a ∧ a < v * PGSIZE + n * PGSIZE ↔
    v ≤ a / PGSIZE ∧ a / PGSIZE < v + n := by
  simp only [PGSIZE]
  omega

theorem framesAt_eq (h : Tree m root t) (ha : Apart m fun q => t.holds q) (v n : Nat) :
    framesAt m root (v * PGSIZE) n = frames t v n := by
  rw [framesAt, frames, List.range'_eq_map_range, List.map_map]
  refine List.map_congr_left fun k _ => ?_
  rw [leafPte_eq h ha, ← Nat.add_mul, Nat.mul_div_cancel _ (by decide), comp_apply]

theorem Freeable.apart (h : Tree m root t) (ha : Apart m fun q => t.holds q) {v n : Nat}
    {doFree : Bool} (hown : doFree = true → Freeable m root (v * PGSIZE) n) :
    Apart m fun q => t.holds q + gone doFree (frames t v n) q := by
  cases doFree with
  | false => exact ha
  | true =>
    have hf := hown rfl
    rcases hf with ⟨hnodup, htable, hused, hreal⟩
    rw [framesAt_eq h ha] at hnodup htable hused hreal
    refine ⟨fun q => ?_, fun q hq => ?_⟩
    · have hone := ha.one q
      rw [gone_true]
      by_cases hmem : q ∈ frames t v n
      · have hcount := List.nodup_iff_count_le_one.1 hnodup q
        have hfree := List.count_eq_zero.2 (hused q hmem)
        have hhold : ¬ 0 < t.holds q := fun hpos => htable q hmem ((mem_tables h ha q).2 hpos)
        omega
      · rw [List.count_eq_zero.2 hmem]
        exact hone
    · by_cases hmem : q ∈ frames t v n
      · exact hreal q hmem
      · rw [gone_true, List.count_eq_zero.2 hmem] at hq
        exact ha.real q hq

theorem aligned {va : Nat} (h : va % PGSIZE = 0) : ∃ v, va = v * PGSIZE :=
  ⟨va / PGSIZE, (Nat.div_mul_cancel (Nat.dvd_of_mod_eq_zero h)).symm⟩

theorem mappages_eq {v n : Nat} (hn : 0 < n) (p : Nat) (perm : UInt64) :
    mappages root (v * PGSIZE) (n * PGSIZE) p perm = mapPages root perm n (v * PGSIZE) p := by
  have hsize : n * PGSIZE ≠ 0 := Nat.mul_ne_zero (Nat.ne_of_gt hn) (by decide)
  have hv : v * PGSIZE % PGSIZE = 0 := Nat.mul_mod_left v PGSIZE
  have hmod : n * PGSIZE % PGSIZE = 0 := Nat.mul_mod_left n PGSIZE
  rw [mappages, if_neg (fun h => h hv), if_neg (fun h => h hmod), if_neg hsize,
    Nat.mul_div_cancel _ (by decide)]

theorem mappages_aligned {va size p : Nat} {perm : UInt64} {b : Bool}
    (h : mappages root va size p perm m = .ok (b, m')) :
    ∃ v n, 0 < n ∧ va = v * PGSIZE ∧ size = n * PGSIZE := by
  unfold mappages at h
  split at h
  · cases h
  split at h
  · cases h
  split at h
  · cases h
  · rename_i hva hsize hpos
    obtain ⟨v, hv⟩ := aligned (not_not.1 hva)
    obtain ⟨n, hn⟩ := aligned (not_not.1 hsize)
    refine ⟨v, n, Nat.pos_of_ne_zero ?_, hv, hn⟩
    rintro rfl
    exact hpos (hn.trans (Nat.zero_mul PGSIZE))

theorem uvmunmap_aligned {va n : Nat} {doFree : Bool} (h : uvmunmap root va n doFree m = .ok ((), m')) :
    ∃ v, va = v * PGSIZE := by
  unfold uvmunmap at h
  split at h
  · cases h
  · rename_i hva
    exact aligned (not_not.1 hva)

theorem FreeList.apart (h : FreeList m) : Apart m fun _ => 0 where
  one q := List.nodup_iff_count_le_one.1 h.nodup q
  real q hq := h.real q (List.count_pos_iff.1 hq)

end Tree

theorem Built.tree {root : Nat} {m : Memory} (h : Built root m) :
    ∃ t, Tree m root t ∧ Apart m fun q => t.holds q := by
  induction h with
  | @create m m' hfree h =>
    cases hlist : m.freelist with
    | nil =>
      rw [uvmcreate, bind_ok (kalloc_nil hlist)] at h
      cases h
    | cons p rest =>
      rw [uvmcreate, bind_ok (kalloc_cons hlist)] at h
      cases h
      have hzero : (fun q => 0 + single root q) = fun q =>
          (Radix.blank (0 : UInt64) 2 root : Table 2).holds q := by
        funext q
        rw [Radix.holds_blank, Nat.zero_add]
        rfl
      have hmoves : Moves m (fun _ => 0) _ _ :=
        (Moves.taken hlist fun _ => 0).trans
          (Moves.setPage (p := root) (by rw [single_self]; omega) fun _ => 0)
      rw [hzero] at hmoves
      refine ⟨Radix.blank 0 2 root, ⟨Radix.stored_blank rfl ?_ 2, rfl⟩, hfree.apart.moves hmoves⟩
      exact update_self _ _ _
  | @walk m m' va r hb h ih =>
    obtain ⟨t, htree, happ⟩ := ih
    have hspec : Ends True _ _ m := walk_spec htree happ va true fun _ => trivial
    obtain ⟨t', hw⟩ := hspec.of_ok h
    exact ⟨t', htree.grows hw.toGrows, happ.moves hw.toMoves⟩
  | @mappages m m' va size p perm b hb h ih =>
    obtain ⟨t, htree, happ⟩ := ih
    obtain ⟨v, n, hn, rfl, rfl⟩ := mappages_aligned h
    rw [mappages_eq hn] at h
    have hspec : Ends True _ _ m :=
      mapPages_spec (v := v) (n := n) htree happ perm p fun _ _ _ _ => trivial
    obtain ⟨t', j, htree', hmoves, -⟩ := hspec.of_ok h
    exact ⟨t', htree', happ.moves hmoves⟩
  | @uvmunmap m m' va n doFree hb hown h ih =>
    obtain ⟨t, htree, happ⟩ := ih
    obtain ⟨v, rfl⟩ := uvmunmap_aligned h
    have hfree := Freeable.apart htree happ hown
    have hspec : Ends True _ _ m := uvmunmap_spec htree v n doFree hfree fun _ _ _ _ => trivial
    obtain ⟨t', htree', hmoves, -⟩ := hspec.of_ok h
    exact ⟨t', htree', hfree.moves hmoves⟩
  | @other m m' hb hpage hfree hapart hend ih =>
    obtain ⟨t, htree, happ⟩ := ih
    refine ⟨t, htree.congr fun q hq => hpage q ((mem_tables htree happ q).2 hq), ?_, ?_⟩
    · intro q
      have hone := happ.one q
      have hcount := hfree.apart.one q
      by_cases hq : q ∈ m'.freelist
      · have hno : ¬ 0 < t.holds q := fun hpos => hapart q hq ((mem_tables htree happ q).2 hpos)
        omega
      · rw [List.count_eq_zero.2 hq]
        omega
    · intro q hq
      by_cases hmem : q ∈ m'.freelist
      · exact hfree.real q hmem
      · rw [List.count_eq_zero.2 hmem] at hq
        rw [hend]
        exact happ.real q (by omega)

/-! ## The calls on the map -/

section Calls

variable {m m' : Memory} {root va size n p : Nat} {t : Table 2} {perm : UInt64} {b doFree : Bool}

theorem view_entry (hp : p < 2 ^ 52) (hperm : perm.toNat < 1024) :
    view (pa2pte p ||| perm ||| PTE_V) = some (p, perm ||| PTE_V) := by
  have hflags : (perm ||| PTE_V).toNat < 1024 := by
    rw [UInt64.toNat_or]
    exact Nat.or_lt_two_pow (n := 10) hperm (by decide)
  rw [view, if_pos (or_valid _), UInt64.or_assoc, pte2pa_entry hp hflags, pteFlags_entry p hflags]

theorem view_eq_none {w : UInt64} : view w = none ↔ w &&& PTE_V = 0 := by
  unfold view
  by_cases h : w &&& PTE_V = 0
  · rw [if_neg (not_not.2 h)]
    exact ⟨fun _ => h, fun _ => rfl⟩
  · rw [if_pos h]
    exact ⟨nofun, fun hw => absurd hw h⟩

theorem unmapped (h : Tree m root t) (ha : Apart m fun q => t.holds q) {v n : Nat}
    (hmax : v * PGSIZE + n * PGSIZE ≤ MAXVA)
    (hnone : ∀ a, v * PGSIZE ≤ a → a < v * PGSIZE + n * PGSIZE → translate m root a = none) {u : Nat}
    (hle : v ≤ u) (hlt : u < v + n) : u < VPAGES ∧ entry t u &&& PTE_V = 0 := by
  refine ⟨?_, ?_⟩
  · simp only [MAXVA, PGSIZE] at hmax
    simp only [VPAGES]
    omega
  · have hu := hnone (u * PGSIZE) (Nat.mul_le_mul_right _ hle)
      (by rw [← Nat.add_mul]; exact Nat.mul_lt_mul_of_pos_right hlt (by decide))
    rw [translate_eq h ha, Nat.mul_div_cancel _ (by decide)] at hu
    exact view_eq_none.1 hu

theorem mappages_translate (hb : Built root m) (hp : p < 2 ^ 44) (hperm : perm.toNat < 1024)
    (h : mappages root va size p perm m = .ok (b, m')) :
    (b = true → ∀ a < MAXVA, translate m' root a = if va ≤ a ∧ a < va + size then
      some (p + (a - va) / PGSIZE, perm ||| PTE_V) else translate m root a) ∧
    (b = false → size = PGSIZE → ∀ a < MAXVA, translate m' root a = translate m root a) := by
  obtain ⟨t, htree, happ⟩ := hb.tree
  obtain ⟨v, n, hn, rfl, rfl⟩ := mappages_aligned h
  rw [mappages_eq hn] at h
  have hspec : Ends True _ _ m :=
    mapPages_spec (v := v) (n := n) htree happ perm p fun _ _ _ _ => trivial
  obtain ⟨t', j, htree', hmoves, hmap⟩ := hspec.of_ok h
  have hold := translate_eq htree happ
  have hnew := translate_eq htree' (happ.moves hmoves)
  refine ⟨fun hb a ha => ?_, fun hb hsize a ha => ?_⟩
  · rw [hold, hnew, hmap.entries _ (page_lt ha), hmap.done hb]
    by_cases hin : v ≤ a / PGSIZE ∧ a / PGSIZE < v + n
    · have hpage : p + (a / PGSIZE - v) < 2 ^ 52 := by
        simp only [MAXVA] at ha
        simp only [PGSIZE]
        omega
      have hoff : (a - v * PGSIZE) / PGSIZE = a / PGSIZE - v := by
        simp only [PGSIZE]
        omega
      rw [if_pos hin, if_pos ((mem_range_iff v n a).2 hin), view_entry hpage hperm, hoff]
    · rw [if_neg hin, if_neg fun hr => hin ((mem_range_iff v n a).1 hr)]
  · -- the one page that was asked for is not mapped
    have hone : n = 1 := by
      simp only [PGSIZE] at hsize
      omega
    have hj := (hmap.short hb).1
    rw [hold, hnew, hmap.entries _ (page_lt ha), if_neg (by omega)]

theorem mappages_returns (hb : Built root m) (p : Nat) (perm : UInt64)
    (hva : va % PGSIZE = 0) (hsize : size % PGSIZE = 0) (hmax : va + size ≤ MAXVA) (hpos : 0 < size)
    (hnone : ∀ a, va ≤ a → a < va + size → translate m root a = none) :
    ∃ b m', mappages root va size p perm m = .ok (b, m') := by
  obtain ⟨t, htree, happ⟩ := hb.tree
  obtain ⟨v, rfl⟩ := aligned hva
  obtain ⟨n, rfl⟩ := aligned hsize
  have hn : 0 < n := Nat.pos_of_mul_pos_right hpos
  have hspec : Ends False _ _ m := mapPages_spec (v := v) (n := n) htree happ perm p
    fun u hle hlt hbad => hbad (unmapped htree happ hmax hnone hle hlt)
  obtain ⟨b, m', hret, -⟩ := hspec.returns
  rw [mappages_eq hn]
  exact ⟨b, m', hret⟩

theorem uvmunmap_translate (hb : Built root m) (hown : doFree = true → Freeable m root va n)
    (h : uvmunmap root va n doFree m = .ok ((), m')) {a : Nat} (ha : a < MAXVA) :
    translate m' root a = if va ≤ a ∧ a < va + n * PGSIZE then none else translate m root a := by
  obtain ⟨t, htree, happ⟩ := hb.tree
  obtain ⟨v, rfl⟩ := uvmunmap_aligned h
  have hfree := Freeable.apart htree happ hown
  have hspec : Ends True _ _ m := uvmunmap_spec htree v n doFree hfree fun _ _ _ _ => trivial
  obtain ⟨t', htree', hmoves, -, hentry⟩ := hspec.of_ok h
  rw [translate_eq htree happ, translate_eq htree' (hfree.moves hmoves), hentry _ (page_lt ha)]
  by_cases hin : v ≤ a / PGSIZE ∧ a / PGSIZE < v + n
  · rw [if_pos hin, if_pos ((mem_range_iff v n a).2 hin)]
    rfl
  · rw [if_neg hin, if_neg fun hr => hin ((mem_range_iff v n a).1 hr)]

theorem uvmunmap_returns (hb : Built root m)
    (hown : doFree = true → Freeable m root va n) (hva : va % PGSIZE = 0)
    (hmax : va + n * PGSIZE ≤ MAXVA)
    (hmapped : ∀ a, va ≤ a → a < va + n * PGSIZE → ∃ f w, translate m root a = some (f, w) ∧ w ≠ PTE_V) :
    ∃ m', uvmunmap root va n doFree m = .ok ((), m') := by
  obtain ⟨t, htree, happ⟩ := hb.tree
  obtain ⟨v, rfl⟩ := aligned hva
  have hspec : Ends False _ _ m := uvmunmap_spec htree v n doFree (Freeable.apart htree happ hown) ?_
  · obtain ⟨_, m', hret, -⟩ := hspec.returns
    exact ⟨m', hret⟩
  · intro u hle hlt hbad
    refine hbad ⟨?_, ?_⟩
    · simp only [MAXVA, PGSIZE] at hmax
      simp only [VPAGES]
      omega
    · obtain ⟨f, w, htrans, hw⟩ := hmapped (u * PGSIZE) (Nat.mul_le_mul_right _ hle)
        (by rw [← Nat.add_mul]; exact Nat.mul_lt_mul_of_pos_right hlt (by decide))
      rw [translate_eq htree happ, Nat.mul_div_cancel _ (by decide), view] at htrans
      split at htrans
      · rename_i hvalid
        cases htrans
        exact ⟨hvalid, hw⟩
      · cases htrans

theorem walk_translate (hb : Built root m) (hva : va < MAXVA) :
    ∃ r, walk root va false m = .ok (r, m) ∧
      ((∃ ref, r = some ref ∧ m.page ref.page ref.idx &&& PTE_V ≠ 0) ↔ translate m root va ≠ none) := by
  obtain ⟨t, htree, happ⟩ := hb.tree
  refine ⟨_, walk_dry htree happ hva, ?_⟩
  rw [translate_eq htree happ, ne_eq, view_eq_none, ← get_path]
  cases hslot : t.slot (path va) with
  | none =>
    rw [Radix.get_of_slot_none 0 hslot]
    exact ⟨nofun, fun hne => absurd rfl hne⟩
  | some s =>
    rw [← htree.kept.word_slot 0 hslot]
    constructor
    · rintro ⟨_, ⟨⟩, hvalid⟩
      exact hvalid
    · exact fun hvalid => ⟨_, rfl, hvalid⟩

end Calls

/-- Each call changes exactly the translations it is asked to change, whatever memory is free. -/
theorem page_table_is_map {root : Nat} {m : Memory} (hb : Built root m) :
    (∀ va size p perm, va % PGSIZE = 0 → size % PGSIZE = 0 → va + size ≤ MAXVA → p < 2 ^ 44 →
      perm.toNat < 1024 → (∀ a, va ≤ a → a < va + size → translate m root a = none) →
      (0 < size → ∃ b m', mappages root va size p perm m = .ok (b, m')) ∧
      ∀ b m', mappages root va size p perm m = .ok (b, m') →
        (b = true → ∀ a < MAXVA, translate m' root a = if va ≤ a ∧ a < va + size then
          some (p + (a - va) / PGSIZE, perm ||| PTE_V) else translate m root a) ∧
        (b = false → size = PGSIZE → ∀ a < MAXVA, translate m' root a = translate m root a)) ∧
    (∀ va n doFree, (doFree = true → Freeable m root va n) →
      (va % PGSIZE = 0 → va + n * PGSIZE ≤ MAXVA →
        (∀ a, va ≤ a → a < va + n * PGSIZE → ∃ f w, translate m root a = some (f, w) ∧ w ≠ PTE_V) →
        ∃ m', uvmunmap root va n doFree m = .ok ((), m')) ∧
      ∀ m', uvmunmap root va n doFree m = .ok ((), m') → ∀ a < MAXVA,
        translate m' root a = if va ≤ a ∧ a < va + n * PGSIZE then none else translate m root a) ∧
    ∀ va < MAXVA, ∃ r, walk root va false m = .ok (r, m) ∧
      ((∃ ref, r = some ref ∧ m.page ref.page ref.idx &&& PTE_V ≠ 0) ↔ translate m root va ≠ none) := by
  refine ⟨fun va size p perm hva hsize hmax hp hperm hnone => ⟨fun hpos => ?_, fun b m' h => ?_⟩,
    fun va n doFree hown => ⟨fun hva hmax hmapped => ?_, fun m' h a ha => ?_⟩, fun va hva => ?_⟩
  · exact mappages_returns hb p perm hva hsize hmax hpos hnone
  · exact mappages_translate hb hp hperm h
  · exact uvmunmap_returns hb hown hva hmax hmapped
  · exact uvmunmap_translate hb hown h ha
  · exact walk_translate hb hva

/-- A memory with three free pages. -/
def fewPages : Memory where
  page := fun _ _ => 0
  freelist := [KERNBASE + 2, KERNBASE + 1, KERNBASE]
  kernelEnd := KERNBASE
  trampoline := 0

/-- `fewPages` after `uvmcreate`. -/
def emptyTable : Memory :=
  (fewPages.taken (KERNBASE + 2) [KERNBASE + 1, KERNBASE]).setPage (KERNBASE + 2) fun _ => 0

theorem built_emptyTable : Built (KERNBASE + 2) emptyTable := by
  refine Built.create (m := fewPages) ⟨by decide, by decide⟩ ?_
  rfl

theorem translate_emptyTable (a : Nat) : translate emptyTable (KERNBASE + 2) a = none := by
  have hpage : emptyTable.page (KERNBASE + 2) = fun _ => 0 :=
    update_self (KERNBASE + 2) _ (fewPages.taken (KERNBASE + 2) [KERNBASE + 1, KERNBASE]).page
  have hzero : ¬ ((0 : UInt64) &&& PTE_V ≠ 0) := by decide
  rw [translate, leafPte, leafFrom, hpage]
  show view (if (0 : UInt64) &&& PTE_V ≠ 0 then _ else 0) = none
  rw [if_neg hzero]
  exact view_eq_none.2 (by decide)

/-- One page is mapped in an empty table. -/
theorem page_table_is_map_one : ∃ b m',
    mappages (KERNBASE + 2) 0 PGSIZE 7 PTE_R emptyTable = .ok (b, m') ∧
      (b = true → translate m' (KERNBASE + 2) 5 = some (7, PTE_R ||| PTE_V)) ∧
      (b = false → translate m' (KERNBASE + 2) 5 = none) := by
  have hmap := (page_table_is_map built_emptyTable).1 0 PGSIZE 7 PTE_R (by decide) (by decide)
    (by decide) (by decide) (by decide) fun a _ _ => translate_emptyTable a
  obtain ⟨b, m', hret⟩ := hmap.1 (by decide)
  have hresult := hmap.2 b m' hret
  refine ⟨b, m', hret, fun hb => ?_, fun hb => ?_⟩
  · rw [hresult.1 hb 5 (by decide), if_pos (by decide)]
    rfl
  · rw [hresult.2 hb rfl 5 (by decide)]
    exact translate_emptyTable 5

end Xv6Schedulers.Vm
