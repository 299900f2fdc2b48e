import Mathlib.Tactic.IntervalCases
import Xv6Schedulers.Vm.Table

/-!
# Map — page tables as maps from page numbers

A three-level table has an entry for each of `2 ^ 27` pages, of which those below `MAXVA` are used.
Walking, mapping and unmapping are edits of that map.

* `entry t v`: the entry of the page with number `v`.
* `Tree m root t`: memory holds the table with root `root` as the tree `t`.
* `mapPages_spec`: mapping sets the entries of a run of pages, up to the page where tables ran out.
* `uvmunmap_spec`: unmapping clears the entries of a run of pages.
* `freewalk_spec`: a table without entries gives all its pages back.
-/

namespace Xv6Schedulers.Vm

open Lib Exec Function

/-! ## Page numbers -/

/-- The number of pages below `MAXVA`. -/
def VPAGES : Nat := 2 ^ 26

/-- The number of entries of a table with three levels. -/
def SLOTS : Nat := 2 ^ 27

theorem lt_slots {v : Nat} (h : v < VPAGES) : v < SLOTS := Nat.lt_trans h (by decide)

theorem lt_maxva {v : Nat} (h : v < VPAGES) : v * PGSIZE < MAXVA := by
  simp only [VPAGES] at h
  simp only [MAXVA, PGSIZE]
  omega

theorem maxva_le {v : Nat} (h : ¬ v < VPAGES) : MAXVA ≤ v * PGSIZE := by
  simp only [VPAGES] at h
  simp only [MAXVA, PGSIZE]
  omega

theorem page_lt {a : Nat} (h : a < MAXVA) : a / PGSIZE < SLOTS := by
  simp only [MAXVA] at h
  simp only [PGSIZE, SLOTS]
  omega

theorem walk_stops {m : Memory} {pagetable va : Nat} (h : MAXVA ≤ va) (alloc : Bool) :
    walk pagetable va alloc m = .error .walk := by
  rw [walk, if_pos h]
  rfl

/-- The entry for the page with number `v`. -/
def entry (t : Table 2) (v : Nat) : UInt64 := t.get 0 (path (v * PGSIZE))

theorem px_page (l va : Nat) : px l va = px l (va / PGSIZE * PGSIZE) := by
  have hdiv : ∀ x, x / 2 ^ (12 + 9 * l) = x / PGSIZE / 2 ^ (9 * l) := fun x => by
    rw [pow_add, ← Nat.div_div_eq_div_mul]
    rfl
  have hback : va / PGSIZE * PGSIZE / PGSIZE = va / PGSIZE := Nat.mul_div_cancel _ (by decide)
  refine Fin.ext ?_
  show va / 2 ^ (12 + 9 * l) % 512 = va / PGSIZE * PGSIZE / 2 ^ (12 + 9 * l) % 512
  rw [hdiv, hdiv, hback]

theorem path_page (va : Nat) : path va = path (va / PGSIZE * PGSIZE) := funext fun l => px_page l va

theorem get_path (t : Table 2) (va : Nat) : t.get 0 (path va) = entry t (va / PGSIZE) := by
  rw [path_page]
  rfl

theorem path_val (v l : Nat) : (path (v * PGSIZE) l).val = v / 2 ^ (9 * l) % 512 := by
  show v * 2 ^ 12 / 2 ^ (12 + 9 * l) % 512 = _
  rw [pow_add, ← Nat.div_div_eq_div_mul, Nat.mul_div_cancel _ (by decide)]

theorem page_of_agree {u v : Nat} (hu : u < SLOTS) (hv : v < SLOTS)
    (h : Radix.Agree 2 (path (u * PGSIZE)) (path (v * PGSIZE))) : u = v := by
  have hval : ∀ l ≤ 2, u / 2 ^ (9 * l) % 512 = v / 2 ^ (9 * l) % 512 := by
    intro l hl
    rw [← path_val, ← path_val, h l hl]
  have h0 := hval 0 (by decide)
  have h1 := hval 1 (by decide)
  have h2 := hval 2 (by decide)
  simp only [SLOTS] at hu hv
  omega

theorem exists_page (π : Radix.Path (Fin 512)) :
    ∃ v < SLOTS, Radix.Agree 2 π (path (v * PGSIZE)) := by
  have h0 := (π 0).isLt
  have h1 := (π 1).isLt
  have h2 := (π 2).isLt
  refine ⟨(π 2).val * 2 ^ 18 + (π 1).val * 2 ^ 9 + (π 0).val, ?_, fun l hl => ?_⟩
  · simp only [SLOTS]
    omega
  · refine Fin.ext ?_
    rw [path_val]
    interval_cases l <;> simp only [Nat.reduceMul, Nat.reducePow] <;> omega

theorem entry_set {t : Table 2} {v : Nat} (hv : v < SLOTS) (hslot : t.slot (path (v * PGSIZE)) ≠ none)
    (w : UInt64) {u : Nat} (hu : u < SLOTS) :
    entry (t.set (path (v * PGSIZE)) w) u = if u = v then w else entry t u := by
  unfold entry
  by_cases h : u = v
  · rw [if_pos h, h]
    exact Radix.get_set_self 0 _ w t hslot
  · rw [if_neg h]
    exact Radix.get_set_of_ne 0 w t fun hagree => h (page_of_agree hv hu hagree).symm

/-! ## Tables in memory -/

structure Tree (m : Memory) (root : Nat) (t : Table 2) : Prop where
  kept : Kept m t
  root : t.page? = some root

section Tree

variable {m m' : Memory} {root : Nat} {t t' : Table 2} {E : Prop}

theorem Tree.grows (h : Tree m root t) (hg : Grows m t m' t') : Tree m' root t' :=
  ⟨hg.kept, hg.page.trans h.root⟩

theorem Tree.congr (h : Tree m root t) (hpage : ∀ q, 0 < t.holds q → m'.page q = m.page q) :
    Tree m' root t :=
  ⟨h.kept.congr hpage, h.root⟩

theorem entry_grows (hg : Grows m t m' t') (u : Nat) : entry t' u = entry t u := hg.get _

theorem Tree.set (h : Tree m root t) (hone : ∀ q, t.holds q ≤ 1) {π : Radix.Path (Fin 512)} {p : Nat}
    {i : Fin 512} (hslot : t.slot π = some (p, i)) (w : UInt64) :
    Tree (m.setWord p i w) root (t.set π w) :=
  ⟨h.kept.set hone hslot w, (Radix.page?_set π w t).trans h.root⟩

theorem Moves.setWord {π : Radix.Path (Fin 512)} {p : Nat} {i : Fin 512}
    (hslot : t.slot π = some (p, i)) (w : UInt64) :
    Moves m (fun q => t.holds q) (m.setWord p i w) fun q => (t.set π w).holds q := by
  have hpos := Radix.holds_slot hslot
  have hsame : (fun q => (t.set π w).holds q) = fun q => t.holds q :=
    funext fun q => Radix.holds_set π w t q
  rw [hsame]
  exact Moves.setPage (by omega) _

theorem Tree.get_slot (h : Tree m root t) {va p : Nat} {i : Fin 512}
    (hslot : t.slot (path va) = some (p, i)) :
    PteRef.get ⟨p, i⟩ m = .ok (entry t (va / PGSIZE), m) := by
  have hword : m.page p i = t.get 0 (path va) := h.kept.word_slot 0 hslot
  rw [PteRef.get, getWord, read_apply, hword, get_path]

theorem walk_spec (h : Tree m root t) (ha : Apart m fun q => t.holds q) (va : Nat) (alloc : Bool)
    (hE : MAXVA ≤ va → E) :
    Ends E (walk root va alloc) (fun r m' => ∃ t', Walks m t va alloc r m' t') m := by
  unfold walk
  split
  · rename_i hva
    exact Ends.throws (hE hva)
  · exact walkFrom_spec va alloc h.root h.kept ha

theorem walk_dry (h : Tree m root t) (ha : Apart m fun q => t.holds q) {va : Nat} (hva : va < MAXVA) :
    walk root va false m = .ok ((t.slot (path va)).map fun s => ⟨s.1, s.2⟩, m) := by
  have hspec : Ends False _ _ m := walk_spec h ha va false fun hle => Nat.not_lt.2 hle hva
  obtain ⟨r, m', hwalk, t', ht'⟩ := hspec.returns
  obtain ⟨rfl, rfl⟩ := ht'.dry rfl
  rw [hwalk]
  cases r with
  | some ref => rw [ht'.found ref rfl, Option.map_some]
  | none =>
    rcases ht'.missing rfl with ⟨hno, -⟩ | ⟨-, hslot⟩
    · cases hno
    · rw [hslot, Option.map_none]

theorem slot_of_entry {v : Nat} (h : entry t v ≠ 0) :
    ∃ p i, t.slot (path (v * PGSIZE)) = some (p, i) := by
  cases hslot : t.slot (path (v * PGSIZE)) with
  | some s => exact ⟨s.1, s.2, rfl⟩
  | none => exact absurd (Radix.get_of_slot_none 0 hslot) h

theorem leafPte_eq (h : Tree m root t) (ha : Apart m fun q => t.holds q) (va : Nat) :
    leafPte m root va = entry t (va / PGSIZE) := by
  rw [← get_path]
  exact leafFrom_eq va h.root h.kept fun q hq => ha.lt (by omega)

/-! ## Mapping -/

/-- What the loop of `mappages` does: `j` of the `n` pages from `v` on are mapped. -/
structure Mapped (t : Table 2) (perm : UInt64) (v n p : Nat) (b : Bool) (m' : Memory)
    (t' : Table 2) (j : Nat) : Prop where
  le : j ≤ n
  done : b = true → j = n
  short : b = false → j < n ∧ m'.freelist = []
  entries : ∀ u < SLOTS, entry t' u =
    if v ≤ u ∧ u < v + j then pa2pte (p + (u - v)) ||| perm ||| PTE_V else entry t u

theorem mapPages_spec (h : Tree m root t) (ha : Apart m fun q => t.holds q) (perm : UInt64)
    {n v : Nat} (p : Nat)
    (hE : ∀ u, v ≤ u → u < v + n → ¬ (u < VPAGES ∧ entry t u &&& PTE_V = 0) → E) :
    Ends E (mapPages root perm n (v * PGSIZE) p) (fun b m' => ∃ t' j, Tree m' root t' ∧
      Moves m (fun q => t.holds q) m' (fun q => t'.holds q) ∧ Mapped t perm v n p b m' t' j) m := by
  induction n generalizing v p m t with
  | zero =>
    refine Ends.ret ⟨t, 0, h, Moves.refl m _, Nat.le_refl 0, fun _ => rfl, nofun, fun u _ => ?_⟩
    rw [if_neg (by omega)]
  | succ n ih =>
    have hback : v * PGSIZE / PGSIZE = v := Nat.mul_div_cancel _ (by decide)
    have hself : ¬ (v < VPAGES ∧ entry t v &&& PTE_V = 0) → E := hE v (Nat.le_refl v) (by omega)
    by_cases hv : v < VPAGES
    swap
    · exact Ends.stop (walk_stops (maxva_le hv) true) (hself fun h => hv h.1)
    have hmax : ¬ MAXVA ≤ v * PGSIZE := Nat.not_le.2 (lt_maxva hv)
    refine (walk_spec h ha (v * PGSIZE) true fun hle => absurd hle hmax).seq ?_
    rintro r m₁ ⟨t₁, hw⟩
    cases r with
    | none =>
      -- there is no page for a table
      rcases hw.missing rfl with ⟨-, hdry⟩ | ⟨hno, -⟩
      · refine Ends.ret ⟨t₁, 0, h.grows hw.toGrows, hw.toMoves, Nat.zero_le _, nofun,
          fun _ => ⟨Nat.succ_pos n, hdry⟩, fun u _ => ?_⟩
        rw [if_neg (by omega)]
        exact entry_grows hw.toGrows u
      · cases hno
    | some ref =>
      have hslot := hw.found ref rfl
      have htree := h.grows hw.toGrows
      have happ := ha.moves hw.toMoves
      have hone : ∀ q, t₁.holds q ≤ 1 := fun q =>
        Nat.le_trans (Nat.le_add_left _ _) (happ.one q)
      have hget := htree.get_slot hslot
      rw [hback, entry_grows hw.toGrows v] at hget
      refine Ends.step hget ?_
      by_cases hvalid : entry t v &&& PTE_V ≠ 0
      · rw [if_pos hvalid]
        exact Ends.throws (hself fun hv => hvalid hv.2)
      rw [if_neg hvalid]
      refine Ends.step (modify_apply _ _) ?_
      have hset := Moves.setWord (m := m₁) hslot (pa2pte p ||| perm ||| PTE_V)
      have hentry : ∀ u < SLOTS,
          entry (t₁.set (path (v * PGSIZE)) (pa2pte p ||| perm ||| PTE_V)) u =
            if u = v then pa2pte p ||| perm ||| PTE_V else entry t u := by
        intro u hu
        rw [entry_set (lt_slots hv) (by rw [hslot]; nofun) _ hu, entry_grows hw.toGrows u]
      have hnext : v * PGSIZE + PGSIZE = (v + 1) * PGSIZE := (Nat.succ_mul v PGSIZE).symm
      rw [hnext]
      refine (ih (htree.set hone hslot _) (happ.moves hset) (p + 1) ?_).mono ?_
      · intro u hle hlt hbad
        refine hE u (by omega) (by omega) ?_
        rintro ⟨hu, hnone⟩
        refine hbad ⟨hu, ?_⟩
        rw [hentry u (lt_slots hu), if_neg (by omega)]
        exact hnone
      · rintro b m' ⟨t', j, htree', hmoves, hmap⟩
        refine ⟨t', j + 1, htree', (hw.toMoves.trans hset).trans hmoves, ?_, ?_, ?_, ?_⟩
        · exact Nat.succ_le_succ hmap.le
        · intro hb
          rw [hmap.done hb]
        · intro hb
          exact ⟨Nat.succ_lt_succ (hmap.short hb).1, (hmap.short hb).2⟩
        · intro u hu
          rw [hmap.entries u hu, hentry u hu]
          by_cases hself : u = v
          · rw [if_neg (by omega), if_pos hself, if_pos (by omega), hself, Nat.sub_self]
            rfl
          · rw [if_neg hself]
            by_cases hin : v + 1 ≤ u ∧ u < v + 1 + j
            · have hp : p + 1 + (u - (v + 1)) = p + (u - v) := by omega
              rw [if_pos hin, if_pos (by omega), hp]
            · rw [if_neg hin, if_neg (by omega)]

/-! ## Unmapping -/

/-- An entry that `uvmunmap` takes for a mapping. -/
def Leaf (w : UInt64) : Prop := w &&& PTE_V ≠ 0 ∧ pteFlags w ≠ PTE_V

instance (w : UInt64) : Decidable (Leaf w) := inferInstanceAs (Decidable (_ ∧ _))

theorem Leaf.ne_zero {w : UInt64} (h : Leaf w) : w ≠ 0 := by
  rintro rfl
  exact h.1 (by decide)

/-- The frames of the `n` pages from `v` on. -/
def frames (t : Table 2) (v n : Nat) : List Nat := (List.range' v n).map fun u => pte2pa (entry t u)

theorem frames_succ (t : Table 2) (v n : Nat) :
    frames t v (n + 1) = pte2pa (entry t v) :: frames t (v + 1) n := rfl

/-- The pages that unmapping gives back. -/
def gone (doFree : Bool) (l : List Nat) : Owners := fun q => if doFree then l.count q else 0

theorem gone_cons (doFree : Bool) (f : Nat) (l : List Nat) (q : Nat) :
    gone doFree (f :: l) q = gone doFree l q + gone doFree [f] q := by
  cases doFree with
  | false => rfl
  | true => rw [gone, gone, gone, if_pos rfl, if_pos rfl, if_pos rfl, List.count_cons, List.count_singleton]

@[simp] theorem gone_nil (doFree : Bool) (q : Nat) : gone doFree [] q = 0 := by
  cases doFree <;> rfl

@[simp] theorem gone_true (l : List Nat) (q : Nat) : gone true l q = l.count q := rfl

@[simp] theorem gone_false (l : List Nat) (q : Nat) : gone false l q = 0 := rfl

theorem gone_single (f q : Nat) : gone true [f] q = single f q := by
  rw [gone_true, List.count_singleton, single]
  simp only [beq_iff_eq]

/-- One round of `uvmunmap` on a page that is mapped. -/
theorem unmapPage_spec (h : Tree m root t) {v : Nat} (hv : v < VPAGES) (hleaf : Leaf (entry t v))
    (doFree : Bool) (ha : Apart m fun q => t.holds q + gone doFree [pte2pa (entry t v)] q) :
    Ends E (unmapPage root (v * PGSIZE) doFree) (fun _ m' => ∃ t', Tree m' root t' ∧
      Moves m (fun q => t.holds q + gone doFree [pte2pa (entry t v)] q) m' (fun q => t'.holds q) ∧
      (∀ q, t'.holds q = t.holds q) ∧
      ∀ u < SLOTS, entry t' u = if u = v then 0 else entry t u) m := by
  have hapart : Apart m fun q => t.holds q := ha.mono fun q => Nat.le_add_right _ _
  have hmax : v * PGSIZE < MAXVA := lt_maxva hv
  obtain ⟨p, i, hslot⟩ := slot_of_entry hleaf.ne_zero
  have hwalk := walk_dry h hapart hmax
  rw [hslot] at hwalk
  have hget : PteRef.get ⟨p, i⟩ m = .ok (entry t v, m) := by
    have hword := h.get_slot hslot
    rwa [Nat.mul_div_cancel _ (by decide)] at hword
  have hentry : ∀ u < SLOTS, entry (t.set (path (v * PGSIZE)) 0) u = if u = v then 0 else entry t u :=
    fun u hu => entry_set (lt_slots hv) (by rw [hslot]; nofun) 0 hu
  have hholds := Radix.holds_set (path (v * PGSIZE)) 0 t
  have hone : ∀ q, t.holds q ≤ 1 := fun q => Nat.le_trans (Nat.le_add_left _ _) (hapart.one q)
  refine Ends.step hwalk (Ends.step hget ?_)
  rw [if_neg hleaf.1, if_neg hleaf.2]
  cases doFree with
  | false =>
    exact Ends.modifies ⟨_, h.set hone hslot 0, Moves.setWord hslot 0, hholds, hentry⟩
  | true =>
    simp only [gone_single] at ha ⊢
    have hfree : 0 < single (pte2pa (entry t v)) (pte2pa (entry t v)) := by
      rw [single_self]
      exact Nat.one_pos
    have hkfree := kfree_eq (ha.real (pte2pa (entry t v)) (by omega))
    have hmoves := Moves.freed m (pte2pa (entry t v)) fun q => t.holds q
    -- the frame is not a page of the table
    have htree : Tree (m.freed (pte2pa (entry t v))) root t := by
      refine h.congr fun q hq => update_of_ne ?_ _ _
      rintro rfl
      have hone := ha.one (pte2pa (entry t v))
      omega
    refine Ends.step hkfree (Ends.modifies ⟨_, htree.set hone hslot 0, ?_, hholds, hentry⟩)
    exact hmoves.trans (Moves.setWord hslot 0)

theorem unmapPage_stops (h : Tree m root t) (ha : Apart m fun q => t.holds q) {v : Nat}
    (hbad : ¬ (v < VPAGES ∧ Leaf (entry t v))) (doFree : Bool) :
    ∃ e, unmapPage root (v * PGSIZE) doFree m = .error e := by
  by_cases hv : v < VPAGES
  · have hmax : v * PGSIZE < MAXVA := lt_maxva hv
    have hwalk := walk_dry h ha hmax
    unfold unmapPage
    cases hslot : t.slot (path (v * PGSIZE)) with
    | none =>
      rw [hslot] at hwalk
      rw [bind_ok hwalk]
      exact ⟨_, rfl⟩
    | some s =>
      rw [hslot] at hwalk
      have hget : PteRef.get ⟨s.1, s.2⟩ m = .ok (entry t v, m) := by
        have hword := h.get_slot hslot
        rwa [Nat.mul_div_cancel _ (by decide)] at hword
      rw [bind_ok hwalk]
      show ∃ e, (PteRef.get ⟨s.1, s.2⟩ >>= _) m = .error e
      rw [bind_ok hget]
      by_cases hvalid : entry t v &&& PTE_V = 0
      · rw [if_pos hvalid]
        exact ⟨_, rfl⟩
      · have hflags : pteFlags (entry t v) = PTE_V :=
          Decidable.not_not.1 fun hne => hbad ⟨hv, hvalid, hne⟩
        rw [if_neg hvalid, if_pos hflags]
        exact ⟨_, rfl⟩
  · exact ⟨.walk, bind_error (walk_stops (maxva_le hv) false)⟩

theorem uvmunmap_spec (h : Tree m root t) (v n : Nat) (doFree : Bool)
    (ha : Apart m fun q => t.holds q + gone doFree (frames t v n) q)
    (hE : ∀ u, v ≤ u → u < v + n → ¬ (u < VPAGES ∧ Leaf (entry t u)) → E) :
    Ends E (uvmunmap root (v * PGSIZE) n doFree) (fun _ m' => ∃ t', Tree m' root t' ∧
      Moves m (fun q => t.holds q + gone doFree (frames t v n) q) m' (fun q => t'.holds q) ∧
      (∀ q, t'.holds q = t.holds q) ∧
      ∀ u < SLOTS, entry t' u = if v ≤ u ∧ u < v + n then 0 else entry t u) m := by
  have halign : v * PGSIZE % PGSIZE = 0 := Nat.mul_mod_left v PGSIZE
  unfold uvmunmap
  rw [if_neg (by rw [halign]; exact fun hne => hne rfl)]
  -- after `k` rounds the first `k` entries are clear and their frames are gone
  refine Ends.each (fun k m' => ∃ t', Tree m' root t' ∧
    Moves m (fun q => t.holds q + gone doFree (frames t v n) q) m'
      (fun q => t'.holds q + gone doFree (frames t (v + k) (n - k)) q) ∧
    (∀ q, t'.holds q = t.holds q) ∧
    ∀ u < SLOTS, entry t' u = if v ≤ u ∧ u < v + k then 0 else entry t u) ?_ ?_ ?_
  · refine ⟨t, h, Moves.refl m _, fun _ => rfl, fun u _ => ?_⟩
    rw [if_neg (by omega)]
  · rintro k m₁ - hk ⟨t₁, htree, hmoves, hholds, hentry⟩
    have hn : n - k = n - (k + 1) + 1 := by omega
    have hva : v * PGSIZE + k * PGSIZE = (v + k) * PGSIZE := (Nat.add_mul v k PGSIZE).symm
    rw [hva]
    by_cases hgood : v + k < VPAGES ∧ Leaf (entry t (v + k))
    · have hself : entry t₁ (v + k) = entry t (v + k) := by
        rw [hentry (v + k) (lt_slots hgood.1), if_neg (by omega)]
      have hsplit : ∀ q, gone doFree (frames t (v + k) (n - k)) q =
          gone doFree [pte2pa (entry t₁ (v + k))] q +
            gone doFree (frames t (v + (k + 1)) (n - (k + 1))) q := by
        intro q
        rw [hn, frames_succ, gone_cons, hself, Nat.add_comm]
        rfl
      have happ : Apart m₁ fun q => t₁.holds q + gone doFree [pte2pa (entry t₁ (v + k))] q := by
        refine (ha.moves hmoves).mono fun q => ?_
        have hq := hsplit q
        omega
      refine (unmapPage_spec htree hgood.1 (hself ▸ hgood.2) doFree happ).mono ?_
      rintro - m₂ ⟨t₂, htree₂, hmoves₂, hholds₂, hentry₂⟩
      refine ⟨t₂, htree₂, ?_, fun q => (hholds₂ q).trans (hholds q), fun u hu => ?_⟩
      · have hext := hmoves₂.extend (gone doFree (frames t (v + (k + 1)) (n - (k + 1))))
        have hsame : (fun q => t₁.holds q + gone doFree (frames t (v + k) (n - k)) q) =
            fun q => t₁.holds q + gone doFree [pte2pa (entry t₁ (v + k))] q +
              gone doFree (frames t (v + (k + 1)) (n - (k + 1))) q := by
          funext q
          rw [hsplit q, Nat.add_assoc]
        rw [hsame] at hmoves
        exact hmoves.trans hext
      · rw [hentry₂ u hu, hentry u hu]
        by_cases hu' : u = v + k
        · rw [if_pos hu', if_pos (by omega)]
        · rw [if_neg hu']
          by_cases hin : v ≤ u ∧ u < v + k
          · rw [if_pos hin, if_pos (by omega)]
          · rw [if_neg hin, if_neg (by omega)]
    · have hbad : ¬ (v + k < VPAGES ∧ Leaf (entry t₁ (v + k))) := by
        rintro ⟨hlt, hleaf⟩
        rw [hentry (v + k) (lt_slots hlt), if_neg (by omega)] at hleaf
        exact hgood ⟨hlt, hleaf⟩
      have happ := (ha.moves hmoves).mono fun q => Nat.le_add_right (t₁.holds q) _
      obtain ⟨e, he⟩ := unmapPage_stops htree happ hbad doFree
      exact Ends.of_stop he (hE (v + k) (by omega) (by omega) hgood)
  · rintro m' ⟨t', htree, hmoves, hholds, hentry⟩
    rw [Nat.zero_add] at hmoves hentry
    refine ⟨t', htree, ?_, hholds, hentry⟩
    rw [Nat.sub_self] at hmoves
    simpa only [frames, List.range'_zero, List.map_nil, gone_nil, Nat.add_zero] using hmoves

end Tree

/-! ## Giving a table back -/

section Free

variable {m m' : Memory} {n : Nat} {E : Prop}

theorem enc_table (q : Nat) : enc (some q) &&& (PTE_R ||| PTE_W ||| PTE_X) = 0 := by
  have hflags : enc (some q) &&& 0x3FF = PTE_V := pteFlags_entry q (by decide)
  have hmask : (0x3FF : UInt64) &&& (PTE_R ||| PTE_W ||| PTE_X) = PTE_R ||| PTE_W ||| PTE_X := by decide
  rw [← hmask, ← UInt64.and_assoc, hflags]
  decide

theorem Kept.prune {p : Nat} {c : Fin 512 → Table n} {i : Fin 512} (hk : Kept m (.node p c))
    (ha : Apart m fun q => (Radix.node p c).holds q)
    (hm : Moves m (fun q => (c i).holds q) m' fun _ => 0) :
    Kept (m'.setWord p i 0) (.node p (update c i .absent)) := by
  have hself : m'.page p = m.page p := by
    refine hm.frame p ?_
    have hone := ha.one p
    have hle := Radix.holds_page_child (c := c) p i
    omega
  have hword : (m'.setWord p i 0).page p = update (m.page p) i 0 := by
    rw [← hself]
    exact update_self p _ m'.page
  refine ⟨fun j => ?_, fun j => ?_⟩
  · rw [hword]
    by_cases hj : j = i
    · rw [hj, update_self, update_self]
      rfl
    · rw [update_of_ne hj, update_of_ne hj]
      exact hk.1 j
  · by_cases hj : j = i
    · rw [hj, update_self]
      trivial
    · rw [update_of_ne hj]
      refine (hk.2 j).congr fun q hq => ?_
      have hne : q ≠ p := by
        rintro rfl
        have hone := ha.one q
        have hle := Radix.holds_page_child (c := c) q j
        omega
      have hset : (m'.setWord p i 0).page q = m'.page q := update_of_ne hne _ _
      rw [hset]
      refine hm.frame q ?_
      have hone := ha.one q
      have hle := Radix.holds_children (c := c) p q hj
      omega

theorem Moves.prune {p : Nat} {c : Fin 512 → Table n} {i : Fin 512}
    (hm : Moves m (fun q => (c i).holds q) m' fun _ => 0) :
    Moves m (fun q => (Radix.node p c).holds q) (m'.setWord p i 0)
      fun q => (Radix.node p (update c i .absent)).holds q := by
  have hupdate : ∀ q, (Radix.node p c).holds q =
      (c i).holds q + (Radix.node p (update c i .absent)).holds q := by
    intro q
    have hup := Radix.holds_update p q c i .absent
    rw [Radix.holds_absent] at hup
    omega
  have hext := hm.extend fun q => (Radix.node p (update c i .absent)).holds q
  have hpos : 0 < (Radix.node p (update c i .absent)).holds p := Radix.holds_page rfl
  rw [funext hupdate]
  refine hext.trans ?_
  simp only [Nat.zero_add]
  exact Moves.setPage (by omega) _

/-- `freewalk` of a table without mappings frees all its pages. -/
theorem freewalk_spec {t : Table n} {table : Nat} (hp : t.page? = some table) (hk : Kept m t)
    (ha : Apart m fun q => t.holds q) (hzero : ∀ π, t.get 0 π = 0) :
    Ends E (freewalk (n + 1) table) (fun _ m' => Moves m (fun q => t.holds q) m' fun _ => 0) m := by
  induction n generalizing m table with
  | zero =>
    cases t with
    | absent => cases hp
    | leaf p e =>
      cases hp
      have hentry : ∀ i, m.page table i = 0 := by
        intro i
        have hword : m.page table = e := hk
        rw [hword]
        exact hzero fun _ => i
      unfold freewalk
      refine Ends.seq (Ends.loop (fun _ m' => m' = m) rfl ?_) ?_
      · rintro k m₁ - - rfl
        have hread : getWord table (Fin.ofNat 512 k) m₁ = .ok (0, m₁) := by
          rw [getWord, read_apply, hentry]
        refine Ends.step hread ?_
        rw [if_neg (by decide), if_neg (by decide)]
        exact Ends.ret rfl
      · rintro - m₁ rfl
        have hpos : 0 < (Radix.leaf table e).holds table := Radix.holds_page rfl
        refine Ends.of_eq (kfree_eq (ha.real table (by omega))) ?_
        have hfreed := Moves.freed m₁ table fun _ => 0
        simp only [Nat.zero_add] at hfreed
        exact hfreed
  | succ n ih =>
    cases t with
    | absent => cases hp
    | node p c =>
      cases hp
      unfold freewalk
      -- after `k` rounds the first `k` entries have no table any more
      refine Ends.seq (Ends.loop (fun k m' => ∃ c' : Fin 512 → Table n,
        (∀ i, i.val < k → c' i = .absent) ∧ (∀ i, k ≤ i.val → c' i = c i) ∧
        Kept m' (.node table c') ∧ Moves m (fun q => (Radix.node table c).holds q) m'
          fun q => (Radix.node table c').holds q) ?_ ?_) ?_
      · exact ⟨c, fun _ hlt => absurd hlt (Nat.not_lt_zero _), fun _ _ => rfl, hk, Moves.refl m _⟩
      · rintro k m₁ - hk512 ⟨c', hdone, hrest, hkept, hmoves⟩
        have happ := ha.moves hmoves
        have hi : (Fin.ofNat 512 k).val = k := Nat.mod_eq_of_lt (by omega)
        have hsame := hrest (Fin.ofNat 512 k) (Nat.le_of_eq hi.symm)
        have hnext : ∀ i : Fin 512, i.val < k + 1 → i ≠ Fin.ofNat 512 k → i.val < k := by
          intro i hlt hne
          have hval : i.val ≠ k := fun heq => hne (Fin.ext (heq.trans hi.symm))
          omega
        have hread : getWord table (Fin.ofNat 512 k) m₁ =
            .ok (enc (c' (Fin.ofNat 512 k)).page?, m₁) := by
          rw [getWord, read_apply, hkept.1]
        refine Ends.step hread ?_
        cases hc : (c' (Fin.ofNat 512 k)).page? with
        | none =>
          rw [if_neg (fun h => enc_invalid h.1), if_neg enc_invalid]
          refine Ends.ret ⟨c', fun i hlt => ?_, fun i hle => hrest i (by omega), hkept, hmoves⟩
          by_cases hne : i = Fin.ofNat 512 k
          · rw [hne]
            exact Radix.page?_eq_none hc
          · exact hdone i (hnext i hlt hne)
        | some q =>
          have hq : q < 2 ^ 52 := by
            have hpos := Radix.holds_page hc
            exact (happ.child (Fin.ofNat 512 k)).lt (by omega)
          rw [if_pos ⟨enc_valid q, enc_table q⟩, pte2pa_enc hq]
          refine (ih hc (hkept.2 _) (happ.child _) fun π => ?_).seq ?_
          · -- a path below this entry is a path of the table
            have hpath := hzero (update π (n + 1) (Fin.ofNat 512 k))
            rw [Radix.get, update_self, ← hsame] at hpath
            refine Eq.trans (Radix.get_of_agree 0 _ fun l hl => ?_) hpath
            rw [update_of_ne (by omega)]
          · rintro - m₂ hm₂
            refine Ends.modifies ⟨update c' (Fin.ofNat 512 k) .absent, fun i hlt => ?_,
              fun i hle => ?_, hkept.prune happ hm₂, hmoves.trans hm₂.prune⟩
            · by_cases hne : i = Fin.ofNat 512 k
              · rw [hne, update_self]
              · rw [update_of_ne hne]
                exact hdone i (hnext i hlt hne)
            · have hne : i ≠ Fin.ofNat 512 k := by
                rintro rfl
                omega
              rw [update_of_ne hne]
              exact hrest i (by omega)
      · rintro - m₁ ⟨c', hdone, -, -, hmoves⟩
        have hempty : (fun q => (Radix.node table c').holds q) = fun q => 0 + single table q := by
          funext q
          have hall : ∀ i, c' i = .absent := fun i => hdone i (by omega)
          rw [Radix.holds, Finset.sum_eq_zero fun i _ => by rw [hall i, Radix.holds_absent],
            Nat.zero_add, Nat.add_zero]
          rfl
        have happ := ha.moves hmoves
        rw [hempty] at hmoves happ
        have hpos := single_self table
        refine Ends.of_eq (kfree_eq (happ.real table (by omega))) ?_
        exact hmoves.trans (Moves.freed m₁ table fun _ => 0)

end Free

end Xv6Schedulers.Vm
