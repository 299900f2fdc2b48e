import Xv6Schedulers.Vm.Copy
import Xv6Schedulers.Vm.Map

/-!
# UserMemory — copies agree with flat user memory

A page table gives some addresses a user page.  The kernel's copies walk the table page by page; what
they do is said by addresses, for any words in memory.

* `UserPage m root a`, `Writable m root a`: the page of `a` has the flags that the copies ask for.
* `UserFrames m root`: user pages have frames of their own.
* `Stores m root a src m'`: the bytes from the address `a` on are now `src`, and no other byte differs.
* `copyinFrom_spec`, `copyoutFrom_spec`: the copies proceed up to the first page they cannot use.
-/

namespace Xv6Schedulers.Vm

open Lib Exec Function List

/-! ## User pages -/

/-- The page of `a` is mapped for user code. -/
def UserPage (m : Memory) (root a : Nat) : Prop :=
  a < MAXVA ∧ leafPte m root a &&& PTE_V ≠ 0 ∧ leafPte m root a &&& PTE_U ≠ 0

/-- The page of `a` is mapped for user code, which may write it. -/
def Writable (m : Memory) (root a : Nat) : Prop :=
  UserPage m root a ∧ leafPte m root a &&& PTE_W ≠ 0

instance (m : Memory) (root a : Nat) : Decidable (UserPage m root a) :=
  inferInstanceAs (Decidable (_ ∧ _))

instance (m : Memory) (root a : Nat) : Decidable (Writable m root a) :=
  inferInstanceAs (Decidable (_ ∧ _))

def frame (m : Memory) (root a : Nat) : Nat := pte2pa (leafPte m root a)

/-- The byte at the address `a` of user memory. -/
def userByte (m : Memory) (root a : Nat) : UInt8 := byteAt (m.page (frame m root a)) (a % PGSIZE)

def bytesAt (m : Memory) (root a n : Nat) : List UInt8 :=
  (range n).map fun k => userByte m root (a + k)

/-- User pages have frames of their own: none is shared, holds a table, or is page 0. -/
structure UserFrames (m : Memory) (root : Nat) : Prop where
  inj : ∀ a b, UserPage m root a → UserPage m root b → frame m root a = frame m root b →
    a / PGSIZE = b / PGSIZE
  table : ∀ a, UserPage m root a → frame m root a ∉ tables m root
  ram : ∀ a, UserPage m root a → frame m root a ≠ 0

/-- The bytes from `a` on become `src`; nothing else changes. -/
structure Stores (m : Memory) (root a : Nat) (src : List UInt8) (m' : Memory) : Prop where
  freelist : m'.freelist = m.freelist
  kernelEnd : m'.kernelEnd = m.kernelEnd
  trampoline : m'.trampoline = m.trampoline
  byte : ∀ k < src.length, byteAt (m'.page (frame m root (a + k))) ((a + k) % PGSIZE) = src.getD k 0
  same : ∀ q i, i < PGSIZE → (∀ k < src.length, frame m root (a + k) = q → (a + k) % PGSIZE ≠ i) →
    byteAt (m'.page q) i = byteAt (m.page q) i

/-! ## Looking at a table -/

section Look

variable {m m' : Memory} {root : Nat}

theorem leafFrom_page (m : Memory) (va l table : Nat) :
    leafFrom m va l table = leafFrom m (va / PGSIZE * PGSIZE) l table := by
  induction l generalizing table with
  | zero => rw [leafFrom, leafFrom, px_page]
  | succ l ih =>
    rw [leafFrom, leafFrom, ← px_page (l + 1) va]
    simp only [← ih]

theorem leafPte_of_page {a b : Nat} (h : a / PGSIZE = b / PGSIZE) :
    leafPte m root a = leafPte m root b := by
  rw [leafPte, leafPte, leafFrom_page, h, ← leafFrom_page]

theorem lt_maxva_of_page {a b : Nat} (h : a / PGSIZE = b / PGSIZE) : a < MAXVA ↔ b < MAXVA := by
  simp only [PGSIZE] at h
  simp only [MAXVA]
  omega

theorem userPage_of_page {a b : Nat} (h : a / PGSIZE = b / PGSIZE) :
    UserPage m root a ↔ UserPage m root b := by
  rw [UserPage, UserPage, leafPte_of_page h, lt_maxva_of_page h]

theorem writable_of_page {a b : Nat} (h : a / PGSIZE = b / PGSIZE) :
    Writable m root a ↔ Writable m root b := by
  rw [Writable, Writable, userPage_of_page h, leafPte_of_page h]

theorem frame_of_page {a b : Nat} (h : a / PGSIZE = b / PGSIZE) :
    frame m root a = frame m root b := by
  rw [frame, frame, leafPte_of_page h]

theorem leafFrom_congr {va l table : Nat} (h : ∀ q ∈ tablesFrom m l table, m'.page q = m.page q) :
    leafFrom m' va l table = leafFrom m va l table := by
  induction l generalizing table with
  | zero => rw [leafFrom, leafFrom, h table (mem_singleton_self table)]
  | succ l ih =>
    rw [leafFrom, leafFrom, h table mem_cons_self]
    by_cases hvalid : m.page table (px (l + 1) va) &&& PTE_V ≠ 0
    · simp only [if_pos hvalid]
      refine ih fun q hq => h q (mem_cons_of_mem _ (mem_flatMap.2 ?_))
      refine ⟨px (l + 1) va, mem_finRange _, ?_⟩
      rw [if_pos hvalid]
      exact hq
    · simp only [if_neg hvalid]

theorem tablesFrom_congr {l table : Nat} (h : ∀ q ∈ tablesFrom m l table, m'.page q = m.page q) :
    tablesFrom m' l table = tablesFrom m l table := by
  induction l generalizing table with
  | zero => rfl
  | succ l ih =>
    have hself := h table mem_cons_self
    rw [tablesFrom, tablesFrom, hself]
    refine congrArg (cons table) (flatMap_congr fun i hi => ?_)
    by_cases hvalid : m.page table i &&& PTE_V ≠ 0
    · rw [if_pos hvalid, if_pos hvalid]
      refine ih fun q hq => h q (mem_cons_of_mem _ (mem_flatMap.2 ⟨i, hi, ?_⟩))
      rw [if_pos hvalid]
      exact hq
    · rw [if_neg hvalid, if_neg hvalid]

theorem walkFrom_look (m : Memory) (va l table : Nat) :
    ∃ r, walkFrom va false l table m = .ok (r, m) ∧
      leafFrom m va l table = r.elim 0 fun ref => m.page ref.page ref.idx := by
  induction l generalizing table with
  | zero => exact ⟨_, rfl, rfl⟩
  | succ l ih =>
    have hread : getWord table (px (l + 1) va) m = .ok (m.page table (px (l + 1) va), m) := rfl
    unfold walkFrom
    rw [bind_ok hread, leafFrom]
    by_cases hvalid : m.page table (px (l + 1) va) &&& PTE_V ≠ 0
    · simp only [if_pos hvalid]
      exact ih _
    · simp only [if_neg hvalid]
      exact ⟨none, rfl, rfl⟩

theorem walk_look (m : Memory) (root : Nat) {va : Nat} (h : va < MAXVA) :
    ∃ r, walk root va false m = .ok (r, m) ∧
      leafPte m root va = r.elim 0 fun ref => m.page ref.page ref.idx := by
  rw [walk, if_neg (Nat.not_le.2 h)]
  exact walkFrom_look m va 2 root

theorem walkaddr_eq (m : Memory) (root va : Nat) :
    walkaddr root va m = .ok (if UserPage m root va then frame m root va else 0, m) := by
  by_cases hva : va < MAXVA
  · obtain ⟨r, hwalk, hpte⟩ := walk_look m root hva
    rw [walkaddr, if_neg (Nat.not_le.2 hva), bind_ok hwalk]
    cases r with
    | none =>
      have hpage : ¬ UserPage m root va := by
        rintro ⟨-, hvalid, -⟩
        rw [hpte] at hvalid
        exact hvalid (show (0 : UInt64) &&& PTE_V = 0 by decide)
      rw [if_neg hpage]
      rfl
    | some ref =>
      have hget : ref.get m = .ok (leafPte m root va, m) := by
        rw [hpte]
        rfl
      show (ref.get >>= _) m = _
      rw [bind_ok hget]
      by_cases hvalid : leafPte m root va &&& PTE_V = 0
      · rw [if_pos hvalid, if_neg fun hpage => hpage.2.1 hvalid]
        rfl
      by_cases huser : leafPte m root va &&& PTE_U = 0
      · rw [if_neg hvalid, if_pos huser, if_neg fun hpage => hpage.2.2 huser]
        rfl
      · rw [if_neg hvalid, if_neg huser, if_pos ⟨hva, hvalid, huser⟩]
        rfl
  · rw [walkaddr, if_pos (Nat.not_lt.1 hva), if_neg fun hpage => hva hpage.1]
    rfl

end Look

/-! ## One round of a copy -/

section Round

variable {m m' : Memory} {root a n : Nat}

theorem page_rounddown (a : Nat) : PGROUNDDOWN a / PGSIZE = a / PGSIZE :=
  Nat.mul_div_cancel _ (by decide)

theorem sub_rounddown (a : Nat) : a - PGROUNDDOWN a = a % PGSIZE := by
  have hdiv := Nat.div_add_mod a PGSIZE
  rw [PGROUNDDOWN, Nat.mul_comm]
  omega

theorem round_page {k : Nat} (hn : a % PGSIZE + n ≤ PGSIZE) (hk : k < n) :
    (a + k) / PGSIZE = a / PGSIZE ∧ (a + k) % PGSIZE = a % PGSIZE + k := by
  simp only [PGSIZE] at *
  omega

/-- Where the next round starts, if there is one. -/
theorem next_round {len : Nat} (ha : PGROUNDDOWN a < MAXVA)
    (hn : n = min (PGSIZE - (a - PGROUNDDOWN a)) len) :
    (PGROUNDDOWN a + PGSIZE) % 2 ^ 64 = a + n ∨ len - n = 0 := by
  rw [sub_rounddown] at hn
  have hmod : (PGROUNDDOWN a + PGSIZE) % 2 ^ 64 = PGROUNDDOWN a + PGSIZE := by
    refine Nat.mod_eq_of_lt ?_
    simp only [MAXVA] at ha
    simp only [PGSIZE]
    omega
  rw [hmod]
  simp only [PGROUNDDOWN, PGSIZE] at *
  omega

theorem round_le (a : Nat) {len : Nat} (hn : n = min (PGSIZE - (a - PGROUNDDOWN a)) len) :
    a % PGSIZE + n ≤ PGSIZE ∧ n ≤ len := by
  have hlt : a % PGSIZE < PGSIZE := Nat.mod_lt a (by decide)
  rw [sub_rounddown] at hn
  omega

theorem round_pos {len : Nat} (hn : n = min (PGSIZE - (a - PGROUNDDOWN a)) (len + 1)) : 0 < n := by
  have hlt : a % PGSIZE < PGSIZE := Nat.mod_lt a (by decide)
  rw [sub_rounddown] at hn
  omega

theorem bytesAt_add (m : Memory) (root a n k : Nat) :
    bytesAt m root a (n + k) = bytesAt m root a n ++ bytesAt m root (a + n) k := by
  rw [bytesAt, range_add, map_append, map_map]
  refine congrArg (bytesAt m root a n ++ ·) (map_congr_left fun j _ => ?_)
  rw [comp_apply, Nat.add_assoc]

theorem bytesOf_eq (m : Memory) (root : Nat) (hn : a % PGSIZE + n ≤ PGSIZE) :
    bytesOf (m.page (frame m root a)) (a % PGSIZE) n = bytesAt m root a n := by
  refine map_congr_left fun k hk => ?_
  have hpage := round_page hn (mem_range.1 hk)
  rw [userByte, frame_of_page hpage.1, hpage.2]

end Round

/-! ## `copyin` -/

/-- `walkaddr` finds a page for `a`. -/
def Readable (m : Memory) (root a : Nat) : Prop := UserPage m root a ∧ frame m root a ≠ 0

instance (m : Memory) (root a : Nat) : Decidable (Readable m root a) :=
  inferInstanceAs (Decidable (_ ∧ _))

theorem readable_of_page {m : Memory} {root a b : Nat} (h : a / PGSIZE = b / PGSIZE) :
    Readable m root a ↔ Readable m root b := by
  rw [Readable, Readable, userPage_of_page h, frame_of_page h]

/-- `walkaddr` at the start of the page of `a`. -/
theorem walkaddr_round (m : Memory) (root a : Nat) :
    walkaddr root (PGROUNDDOWN a) m = .ok (if Readable m root a then frame m root a else 0, m) := by
  rw [walkaddr_eq, frame_of_page (page_rounddown a)]
  by_cases h : UserPage m root a
  · rw [if_pos ((userPage_of_page (page_rounddown a)).2 h)]
    by_cases hframe : frame m root a = 0
    · rw [if_neg fun hr : Readable m root a => hr.2 hframe, hframe]
    · rw [if_pos (show Readable m root a from ⟨h, hframe⟩)]
  · rw [if_neg fun hp => h ((userPage_of_page (page_rounddown a)).1 hp),
      if_neg fun hr : Readable m root a => h hr.1]

theorem rounddown_lt {m : Memory} {root a : Nat} (h : UserPage m root a) : PGROUNDDOWN a < MAXVA :=
  Nat.lt_of_le_of_lt (Nat.div_mul_le_self a PGSIZE) h.1

theorem copyinFrom_spec (m : Memory) (root srcva : Nat) {rounds len : Nat} (hr : len ≤ rounds) :
    ∃ k ≤ len, copyinFrom root rounds srcva len m =
        .ok ((decide (k = len), bytesAt m root srcva k), m) ∧
      (∀ a, srcva ≤ a → a < srcva + k → Readable m root a) ∧
      (k < len → ¬ Readable m root (srcva + k)) := by
  induction rounds generalizing srcva len with
  | zero =>
    cases Nat.le_zero.1 hr
    exact ⟨0, Nat.le_refl 0, rfl, fun a hle hlt => absurd hlt (Nat.not_lt.2 hle), nofun⟩
  | succ rounds ih =>
    cases len with
    | zero => exact ⟨0, Nat.le_refl 0, rfl, fun a hle hlt => absurd hlt (Nat.not_lt.2 hle), nofun⟩
    | succ len =>
      have hwalk := walkaddr_round m root srcva
      unfold copyinFrom
      rw [bind_ok hwalk]
      by_cases hread : Readable m root srcva
      · rw [if_pos hread, if_neg hread.2]
        obtain ⟨n, hn⟩ : ∃ n, n = min (PGSIZE - (srcva - PGROUNDDOWN srcva)) (len + 1) := ⟨_, rfl⟩
        have hround := round_le srcva hn
        have hpos := round_pos hn
        have hbytes := bytesOf_eq m root hround.1
        rw [← hn, bind_ok (read_apply _ _), sub_rounddown, hbytes]
        obtain ⟨k, hk, hrec, hgood, hbad⟩ :=
          @ih ((PGROUNDDOWN srcva + PGSIZE) % 2 ^ 64) (len + 1 - n) (by omega)
        rw [bind_ok hrec]
        -- the pages of this round are readable
        have hfirst : ∀ a, srcva ≤ a → a < srcva + n → Readable m root a := by
          intro a hle hlt
          have hpage := round_page (k := a - srcva) hround.1 (by omega)
          rw [Nat.add_sub_of_le hle] at hpage
          exact (readable_of_page hpage.1).2 hread
        rcases next_round (rounddown_lt hread.1) hn with hnext | hlast
        · rw [hnext] at hgood hbad ⊢
          refine ⟨n + k, by omega, ?_, fun a hle hlt => ?_, fun hlt => ?_⟩
          · have hdone : decide (k = len + 1 - n) = decide (n + k = len + 1) :=
              decide_eq_decide.2 (by omega)
            rw [bytesAt_add, hdone]
            rfl
          · by_cases ha : a < srcva + n
            · exact hfirst a hle ha
            · exact hgood a (by omega) (by omega)
          · rw [← Nat.add_assoc]
            exact hbad (by omega)
        · have hk0 : k = 0 := by omega
          refine ⟨n, by omega, ?_, hfirst, by omega⟩
          have hdone : decide (k = len + 1 - n) = decide (n = len + 1) :=
            decide_eq_decide.2 (by omega)
          rw [hdone, hk0]
          show Except.ok ((_, bytesAt m root srcva n ++ []), m) = _
          rw [append_nil]
      · rw [if_neg hread, if_pos rfl]
        exact ⟨0, Nat.zero_le _, rfl, fun a hle hlt => absurd hlt (Nat.not_lt.2 hle),
          fun _ => hread⟩

/-! ## `copyout` -/

section Out

variable {m m' m'' : Memory} {root a : Nat} {src src' : List UInt8}

/-- The table and what it says are as before. -/
structure SameTable (m : Memory) (root : Nat) (m' : Memory) : Prop where
  leaf : ∀ b, leafPte m' root b = leafPte m root b
  tables : tables m' root = tables m root

theorem SameTable.refl (m : Memory) (root : Nat) : SameTable m root m := ⟨fun _ => rfl, rfl⟩

theorem SameTable.trans (h₁ : SameTable m root m') (h₂ : SameTable m' root m'') :
    SameTable m root m'' :=
  ⟨fun b => (h₂.leaf b).trans (h₁.leaf b), h₂.tables.trans h₁.tables⟩

theorem SameTable.frame (h : SameTable m root m') (b : Nat) : frame m' root b = frame m root b := by
  rw [Vm.frame, Vm.frame, h.leaf]

theorem SameTable.userPage (h : SameTable m root m') (b : Nat) :
    UserPage m' root b ↔ UserPage m root b := by
  rw [UserPage, UserPage, h.leaf]

theorem SameTable.writable (h : SameTable m root m') (b : Nat) :
    Writable m' root b ↔ Writable m root b := by
  rw [Writable, Writable, h.userPage, h.leaf]

theorem SameTable.userFrames (h : SameTable m root m') (hu : UserFrames m root) :
    UserFrames m' root where
  inj a b ha hb := by
    rw [h.frame, h.frame]
    exact hu.inj a b ((h.userPage a).1 ha) ((h.userPage b).1 hb)
  table a ha := by
    rw [h.frame, h.tables]
    exact hu.table a ((h.userPage a).1 ha)
  ram a ha := by
    rw [h.frame]
    exact hu.ram a ((h.userPage a).1 ha)

theorem sameTable_setPage {p : Nat} (h : p ∉ tables m root) (v : Page) :
    SameTable m root (m.setPage p v) := by
  have hpage : ∀ q ∈ tables m root, (m.setPage p v).page q = m.page q := by
    intro q hq
    refine update_of_ne ?_ v m.page
    rintro rfl
    exact h hq
  exact ⟨fun b => leafFrom_congr hpage, tablesFrom_congr hpage⟩

theorem Stores.nil (m : Memory) (root a : Nat) : Stores m root a [] m :=
  ⟨rfl, rfl, rfl, nofun, fun _ _ _ _ => rfl⟩

/-- One `memmove` to a user page. -/
theorem stores_round (hn : a % PGSIZE + src.length ≤ PGSIZE) : Stores m root a src
      (m.setPage (frame m root a) (spliceAt (m.page (frame m root a)) (a % PGSIZE) src)) where
  freelist := rfl
  kernelEnd := rfl
  trampoline := rfl
  byte k hk := by
    have hpage := round_page hn hk
    have hself : (m.setPage (frame m root a) (spliceAt (m.page (frame m root a)) (a % PGSIZE) src)).page
        (frame m root a) = spliceAt (m.page (frame m root a)) (a % PGSIZE) src :=
      update_self (frame m root a) _ m.page
    rw [frame_of_page hpage.1, hpage.2, hself, byteAt_spliceAt _ _ _ (by omega), if_pos (by omega),
      Nat.add_sub_cancel_left]
  same q i hi hno := by
    by_cases hq : q = frame m root a
    · have hself : (m.setPage (frame m root a)
          (spliceAt (m.page (frame m root a)) (a % PGSIZE) src)).page q =
          spliceAt (m.page (frame m root a)) (a % PGSIZE) src := by
        rw [hq]
        exact update_self (frame m root a) _ m.page
      rw [hself, byteAt_spliceAt _ _ _ hi, hq]
      refine if_neg fun hin => ?_
      have hpage := round_page (k := i - a % PGSIZE) hn (by omega)
      refine hno (i - a % PGSIZE) (by omega) ?_ ?_
      · rw [frame_of_page hpage.1, hq]
      · rw [hpage.2]
        omega
    · have hother : (m.setPage (frame m root a)
          (spliceAt (m.page (frame m root a)) (a % PGSIZE) src)).page q = m.page q :=
        update_of_ne hq _ _
      rw [hother]

theorem Stores.append (hu : UserFrames m root) (h₁ : Stores m root a src m')
    (ht : SameTable m root m') (h₂ : Stores m' root (a + src.length) src' m'')
    (hpages : ∀ b, a ≤ b → b < a + src.length + src'.length → UserPage m root b) :
    Stores m root a (src ++ src') m'' where
  freelist := h₂.freelist.trans h₁.freelist
  kernelEnd := h₂.kernelEnd.trans h₁.kernelEnd
  trampoline := h₂.trampoline.trans h₁.trampoline
  byte k hk := by
    rw [length_append] at hk
    by_cases hfirst : k < src.length
    · -- the second copy does not reach this byte, as its page has a frame of its own
      have hkeep := h₂.same (frame m root (a + k)) ((a + k) % PGSIZE) (Nat.mod_lt _ (by decide)) ?_
      · rw [hkeep, h₁.byte k hfirst]
        simp only [getD_eq_getElem?_getD, getElem?_append_left hfirst]
      · intro j hj hframe hmod
        rw [ht.frame] at hframe
        have hpage := hu.inj _ _ (hpages (a + src.length + j) (by omega) (by omega))
          (hpages (a + k) (by omega) (by omega)) hframe
        have heq : a + src.length + j = a + k := by
          rw [← Nat.div_add_mod (a + src.length + j) PGSIZE, ← Nat.div_add_mod (a + k) PGSIZE, hpage,
            hmod]
        omega
    · have hsecond := h₂.byte (k - src.length) (by omega)
      have haddr : a + src.length + (k - src.length) = a + k := by omega
      rw [haddr, ht.frame] at hsecond
      rw [hsecond]
      simp only [getD_eq_getElem?_getD, getElem?_append_right (Nat.not_lt.1 hfirst)]
  same q i hi hno := by
    rw [length_append] at hno
    rw [h₂.same q i hi fun k hk hframe => ?_, h₁.same q i hi fun k hk => hno k (by omega)]
    have haddr : a + src.length + k = a + (src.length + k) := by omega
    rw [ht.frame, haddr] at hframe
    rw [haddr]
    exact hno (src.length + k) (by omega) hframe

theorem copyoutFrom_good (h : Writable m root a) (rounds : Nat) (b : UInt8) (bs : List UInt8) {n : Nat}
    (hn : n = min (PGSIZE - (a - PGROUNDDOWN a)) (b :: bs).length) :
    copyoutFrom root (rounds + 1) a (b :: bs) m =
      copyoutFrom root rounds ((PGROUNDDOWN a + PGSIZE) % 2 ^ 64) ((b :: bs).drop n)
        (m.setPage (frame m root a)
          (spliceAt (m.page (frame m root a)) (a % PGSIZE) ((b :: bs).take n))) := by
  have hmax := rounddown_lt h.1
  obtain ⟨r, hwalk, hpte⟩ := walk_look m root hmax
  rw [leafPte_of_page (page_rounddown a)] at hpte
  conv_lhs => unfold copyoutFrom
  simp only [if_neg (Nat.not_le.2 hmax)]
  rw [bind_ok hwalk]
  cases r with
  | none =>
    have hvalid := h.1.2.1
    rw [hpte] at hvalid
    exact absurd (show (0 : UInt64) &&& PTE_V = 0 by decide) hvalid
  | some ref =>
    have hget : ref.get m = .ok (leafPte m root a, m) := by
      rw [hpte]
      rfl
    have hflags : ¬ (leafPte m root a &&& PTE_V = 0 ∨ leafPte m root a &&& PTE_U = 0 ∨
        leafPte m root a &&& PTE_W = 0) := by
      rintro (hv | hu | hw)
      · exact h.1.2.1 hv
      · exact h.1.2.2 hu
      · exact h.2 hw
    show (ref.get >>= _) m = _
    rw [bind_ok hget, if_neg hflags, bind_ok (modify_apply _ _), ← hn, sub_rounddown]
    rfl

theorem copyoutFrom_bad (h : ¬ Writable m root a) (rounds : Nat) (b : UInt8) (bs : List UInt8) :
    copyoutFrom root (rounds + 1) a (b :: bs) m = .ok (false, m) := by
  unfold copyoutFrom
  by_cases hmax : MAXVA ≤ PGROUNDDOWN a
  · simp only [if_pos hmax]
    rfl
  · have hlt := (lt_maxva_of_page (page_rounddown a)).1 (Nat.not_le.1 hmax)
    obtain ⟨r, hwalk, hpte⟩ := walk_look m root (Nat.not_le.1 hmax)
    rw [leafPte_of_page (page_rounddown a)] at hpte
    simp only [if_neg hmax]
    rw [bind_ok hwalk]
    cases r with
    | none => rfl
    | some ref =>
      have hget : ref.get m = .ok (leafPte m root a, m) := by
        rw [hpte]
        rfl
      have hflags : leafPte m root a &&& PTE_V = 0 ∨ leafPte m root a &&& PTE_U = 0 ∨
          leafPte m root a &&& PTE_W = 0 := by
        by_contra hno
        simp only [not_or] at hno
        exact h ⟨⟨hlt, hno.1, hno.2.1⟩, hno.2.2⟩
      show (ref.get >>= _) m = _
      rw [bind_ok hget, if_pos hflags]
      rfl

theorem copyoutFrom_spec (hu : UserFrames m root) (dstva : Nat) {rounds : Nat}
    (hr : src.length ≤ rounds) :
    ∃ k ≤ src.length, ∃ m', copyoutFrom root rounds dstva src m = .ok (decide (k = src.length), m') ∧
      (∀ a, dstva ≤ a → a < dstva + k → Writable m root a) ∧
      (k < src.length → ¬ Writable m root (dstva + k)) ∧
      Stores m root dstva (src.take k) m' ∧ SameTable m root m' := by
  induction rounds generalizing m dstva src with
  | zero =>
    cases eq_nil_of_length_eq_zero (Nat.le_zero.1 hr)
    exact ⟨0, Nat.le_refl 0, m, rfl, fun a hle hlt => absurd hlt (Nat.not_lt.2 hle), nofun,
      Stores.nil m root dstva, SameTable.refl m root⟩
  | succ rounds ih =>
    cases src with
    | nil =>
      exact ⟨0, Nat.le_refl 0, m, rfl, fun a hle hlt => absurd hlt (Nat.not_lt.2 hle), nofun,
        Stores.nil m root dstva, SameTable.refl m root⟩
    | cons b bs =>
      by_cases hw : Writable m root dstva
      swap
      · rw [copyoutFrom_bad hw]
        exact ⟨0, Nat.zero_le _, m, rfl, fun a hle hlt => absurd hlt (Nat.not_lt.2 hle),
          fun _ => hw, Stores.nil m root dstva, SameTable.refl m root⟩
      obtain ⟨n, hn⟩ : ∃ n, n = min (PGSIZE - (dstva - PGROUNDDOWN dstva)) (b :: bs).length :=
        ⟨_, rfl⟩
      have hround := round_le dstva hn
      have hpos := round_pos hn
      have htake : ((b :: bs).take n).length = n := length_take_of_le hround.2
      have hdrop : ((b :: bs).drop n).length = (b :: bs).length - n := length_drop
      rw [copyoutFrom_good hw rounds b bs hn]
      have hst : Stores m root dstva ((b :: bs).take n) _ := stores_round (by rw [htake]; exact hround.1)
      have hsame := sameTable_setPage (hu.table dstva hw.1)
        (spliceAt (m.page (frame m root dstva)) (dstva % PGSIZE) ((b :: bs).take n))
      generalize m.setPage (frame m root dstva)
        (spliceAt (m.page (frame m root dstva)) (dstva % PGSIZE) ((b :: bs).take n)) = m₁ at hst hsame ⊢
      obtain ⟨k, hk, m', hrec, hgood, hbad, hst', hsame'⟩ :=
        @ih m₁ ((b :: bs).drop n) (hsame.userFrames hu) ((PGROUNDDOWN dstva + PGSIZE) % 2 ^ 64)
          (by simp only [length_cons] at hr hdrop; omega)
      rw [hdrop] at hk hrec hbad
      have hfirst : ∀ a, dstva ≤ a → a < dstva + n → Writable m root a := by
        intro a hle hlt
        have hpage := round_page (k := a - dstva) hround.1 (by omega)
        rw [Nat.add_sub_of_le hle] at hpage
        exact (writable_of_page hpage.1).2 hw
      rw [hrec]
      rcases next_round (rounddown_lt hw.1) hn with hnext | hlast
      · rw [hnext] at hgood hbad hst'
        have hall : ∀ a, dstva ≤ a → a < dstva + (n + k) → Writable m root a := by
          intro a hle hlt
          by_cases ha : a < dstva + n
          · exact hfirst a hle ha
          · exact (hsame.writable a).1 (hgood a (by omega) (by omega))
        refine ⟨n + k, by omega, m', ?_, hall, fun hlt => ?_, ?_, hsame.trans hsame'⟩
        · have hdone : decide (k = (b :: bs).length - n) = decide (n + k = (b :: bs).length) :=
            decide_eq_decide.2 (by omega)
          rw [hdone]
        · rw [← Nat.add_assoc, ← hsame.writable]
          exact hbad (by omega)
        · have happ := Stores.append hu hst hsame
            (by rw [htake]; exact hst') fun c hle hlt => (hall c hle ?_).1
          · rwa [← take_add] at happ
          · rw [htake, length_take, hdrop] at hlt
            omega
      · have hk0 : k = 0 := by omega
        have hn' : n = (b :: bs).length := by omega
        subst hk0
        refine ⟨n, hround.2, m', ?_, hfirst, fun hlt => absurd hlt (by omega), ?_,
          hsame.trans hsame'⟩
        · have hdone : decide (0 = (b :: bs).length - n) = decide (n = (b :: bs).length) :=
            decide_eq_decide.2 (by omega)
          rw [hdone]
        · -- the last call copies nothing
          rw [take_zero] at hst'
          have hnil : Stores m₁ root (dstva + ((b :: bs).take n).length) [] m' :=
            ⟨hst'.freelist, hst'.kernelEnd, hst'.trampoline, nofun,
              fun q i hi _ => hst'.same q i hi nofun⟩
          have happ := Stores.append hu hst hsame hnil fun c hle hlt => (hfirst c hle ?_).1
          · rwa [append_nil] at happ
          · rw [htake] at hlt
            exact hlt

end Out

end Xv6Schedulers.Vm
