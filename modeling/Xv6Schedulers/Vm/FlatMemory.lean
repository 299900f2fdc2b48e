import Xv6Schedulers.Vm.UserMemory

/-!
# FlatMemory — `copyout`, `copyin` and `copyinstr` on all of user memory

* `copies_are_flat`: for a table with frames of its own, the copies act as on one flat array.
* `copyinstr_string`: `copyinstr` copies exactly the string, and `fetchstr` returns its length.
-/

namespace Xv6Schedulers.Vm

open Lib Exec List

section Flat

variable {m m' : Memory} {root dstva : Nat} {src : List UInt8}

theorem all_iff {P : Nat → Prop} {a len k : Nat} (hk : k ≤ len)
    (hgood : ∀ b, a ≤ b → b < a + k → P b) (hbad : k < len → ¬ P (a + k)) :
    decide (k = len) = true ↔ ∀ b, a ≤ b → b < a + len → P b := by
  rw [decide_eq_true_iff]
  constructor
  · rintro rfl
    exact hgood
  · intro hall
    by_contra hne
    have hlt : k < len := by omega
    exact hbad hlt (hall (a + k) (by omega) (by omega))

theorem UserFrames.readable_iff (hu : UserFrames m root) (a : Nat) :
    Readable m root a ↔ UserPage m root a :=
  ⟨fun h => h.1, fun h => ⟨h, hu.ram a h⟩⟩

theorem copyin_flat (hu : UserFrames m root) (srcva len : Nat) :
    ∃ b bytes, copyin root srcva len m = .ok ((b, bytes), m) ∧
      (b = true ↔ ∀ a, srcva ≤ a → a < srcva + len → UserPage m root a) ∧
      (b = true → bytes = bytesAt m root srcva len) := by
  obtain ⟨k, hk, hret, hgood, hbad⟩ := copyinFrom_spec m root srcva (Nat.le_refl len)
  simp only [hu.readable_iff] at hgood hbad
  refine ⟨_, _, hret, all_iff hk hgood hbad, fun hb => ?_⟩
  rw [decide_eq_true_iff] at hb
  rw [hb]

theorem Stores.userByte (hu : UserFrames m root) (h : Stores m root dstva src m')
    (ht : SameTable m root m')
    (hpages : ∀ b, dstva ≤ b → b < dstva + src.length → UserPage m root b) {a : Nat}
    (ha : UserPage m root a) : userByte m' root a =
      if dstva ≤ a ∧ a < dstva + src.length then src.getD (a - dstva) 0 else userByte m root a := by
  rw [Vm.userByte, ht.frame]
  by_cases hin : dstva ≤ a ∧ a < dstva + src.length
  · have hbyte := h.byte (a - dstva) (by omega)
    rw [Nat.add_sub_of_le hin.1] at hbyte
    rw [if_pos hin, hbyte]
  · rw [if_neg hin]
    refine h.same _ _ (Nat.mod_lt a (by decide)) fun k hk hframe hmod => hin ?_
    have hpage := hu.inj _ _ (hpages (dstva + k) (by omega) (by omega)) ha hframe
    have heq : dstva + k = a := by
      rw [← Nat.div_add_mod (dstva + k) PGSIZE, ← Nat.div_add_mod a PGSIZE, hpage, hmod]
    omega

theorem Stores.bytesAt (h : Stores m root dstva src m') (ht : SameTable m root m') :
    bytesAt m' root dstva src.length = src := by
  refine ext_getElem (by simp [Vm.bytesAt]) fun k hk hk' => ?_
  have hbyte := h.byte k hk'
  rw [← ht.frame] at hbyte
  simp only [Vm.bytesAt, getElem_map, getElem_range, Vm.userByte]
  rw [hbyte, getD_eq_getElem?_getD, getElem?_eq_getElem hk', Option.getD_some]

theorem writable_range (h : src ≠ []) :
    (∀ a, dstva ≤ a → a < dstva + src.length → Writable m root a) ↔
      dstva + src.length ≤ MAXVA ∧ ∀ a, dstva ≤ a → a < dstva + src.length → Writable m root a := by
  refine ⟨fun hall => ⟨?_, hall⟩, fun hall => hall.2⟩
  have hpos : 0 < src.length := length_pos_iff.2 h
  have hlast := (hall (dstva + src.length - 1) (by omega) (by omega)).1.1
  omega

end Flat

/-- `copyout` and `copyin` agree with flat user memory. -/
theorem copies_are_flat {m : Memory} {root : Nat} (hu : UserFrames m root) :
    (∀ dstva src, ∃ b m', copyout root dstva src m = .ok (b, m') ∧
      (b = true ↔ src = [] ∨ dstva + src.length ≤ MAXVA ∧
        ∀ a, dstva ≤ a → a < dstva + src.length → Writable m root a) ∧
      (b = true → (∀ a, UserPage m root a → UserPage m' root a ∧ userByte m' root a =
          if dstva ≤ a ∧ a < dstva + src.length then src.getD (a - dstva) 0 else userByte m root a) ∧
        (∀ q i, i < PGSIZE →
          (∀ a, dstva ≤ a → a < dstva + src.length → frame m root a = q → a % PGSIZE ≠ i) →
          byteAt (m'.page q) i = byteAt (m.page q) i) ∧
        copyin root dstva src.length m' = .ok ((true, src), m')) ∧
      (b = false → ∀ q i, i < PGSIZE → byteAt (m'.page q) i ≠ byteAt (m.page q) i →
        ∃ a, dstva ≤ a ∧ a < dstva + src.length ∧ frame m root a = q ∧ a % PGSIZE = i ∧
          ∀ a', dstva ≤ a' → a' ≤ a → Writable m root a')) ∧
    ∀ srcva len, ∃ b bytes, copyin root srcva len m = .ok ((b, bytes), m) ∧
      (b = true ↔ ∀ a, srcva ≤ a → a < srcva + len → UserPage m root a) ∧
      (b = true → bytes = bytesAt m root srcva len) := by
  refine ⟨fun dstva src => ?_, fun srcva len => copyin_flat hu srcva len⟩
  obtain ⟨k, hk, m', hret, hgood, hbad, hst, ht⟩ :=
    copyoutFrom_spec hu dstva (Nat.le_refl src.length)
  have hall := all_iff hk hgood hbad
  refine ⟨_, m', hret, ?_, fun hb => ?_, fun hb q i hi hne => ?_⟩
  · rw [hall]
    by_cases hnil : src = []
    · subst hnil
      exact ⟨fun _ => Or.inl rfl, fun _ a hle hlt => absurd hlt (Nat.not_lt.2 hle)⟩
    · exact ⟨fun h => Or.inr ((writable_range hnil).1 h), fun h => (h.resolve_left hnil).2⟩
  · have hpages : ∀ a, dstva ≤ a → a < dstva + src.length → UserPage m root a :=
      fun a hle hlt => (hall.1 hb a hle hlt).1
    rw [decide_eq_true_iff] at hb
    rw [hb, take_length] at hst
    refine ⟨fun a ha => ⟨(ht.userPage a).2 ha, hst.userByte hu ht hpages ha⟩, ?_, ?_⟩
    · exact fun q i hi hno => hst.same q i hi fun j hj => hno (dstva + j) (by omega) (by omega)
    · obtain ⟨b, bytes, hin, hok, hbytes⟩ := copyin_flat (ht.userFrames hu) dstva src.length
      have htrue : b = true := hok.2 fun a hle hlt => (ht.userPage a).2 (hpages a hle hlt)
      rw [hin, hbytes htrue, htrue, hst.bytesAt ht]
  · -- a byte that changed is one of the first `k` bytes
    by_contra hno
    refine hne (hst.same q i hi fun j hj hframe hmod => hno ?_)
    rw [length_take] at hj
    refine ⟨dstva + j, by omega, by omega, hframe, hmod, fun a' hle hlt => ?_⟩
    exact hgood a' hle (by omega)

/-! ## A table with one user page -/

/-- The tables are the pages `KERNBASE + 2`, `KERNBASE + 1` and `KERNBASE`, the user page is
`KERNBASE + 3`. -/
def onePage : Memory where
  page := fun p i =>
    if i = 0 then
      if p = KERNBASE + 2 then enc (some (KERNBASE + 1))
      else if p = KERNBASE + 1 then enc (some KERNBASE)
      else if p = KERNBASE then pa2pte (KERNBASE + 3) ||| (PTE_V ||| PTE_R ||| PTE_W ||| PTE_U)
      else 0
    else 0
  freelist := []
  kernelEnd := KERNBASE
  trampoline := 0

theorem leafFrom_onePage (va l table : Nat) (h : px l va ≠ 0) : leafFrom onePage va l table = 0 := by
  have hword : onePage.page table (px l va) = 0 := if_neg h
  cases l with
  | zero => exact hword
  | succ l =>
    rw [leafFrom, hword]
    exact if_neg (by decide)

theorem page_of_userPage_onePage {a : Nat} (h : UserPage onePage (KERNBASE + 2) a) : a / PGSIZE = 0 := by
  obtain ⟨ha, hvalid, -⟩ := h
  have hzero : ∀ l ≤ 2, px l a = 0 := by
    have hroot : leafPte onePage (KERNBASE + 2) a = leafFrom onePage a 2 (KERNBASE + 2) := rfl
    have h2 : px 2 a = 0 := by
      by_contra hne
      rw [hroot, leafFrom_onePage a 2 _ hne] at hvalid
      exact hvalid (by decide)
    have hmid : leafPte onePage (KERNBASE + 2) a = leafFrom onePage a 1 (KERNBASE + 1) := by
      rw [hroot, leafFrom, h2]
      rfl
    have h1 : px 1 a = 0 := by
      by_contra hne
      rw [hmid, leafFrom_onePage a 1 _ hne] at hvalid
      exact hvalid (by decide)
    have hlow : leafPte onePage (KERNBASE + 2) a = leafFrom onePage a 0 KERNBASE := by
      rw [hmid]
      conv_lhs => rw [leafFrom, h1]
      rfl
    have h0 : px 0 a = 0 := by
      by_contra hne
      rw [hlow, leafFrom_onePage a 0 _ hne] at hvalid
      exact hvalid (by decide)
    intro l hl
    interval_cases l
    · exact h0
    · exact h1
    · exact h2
  have hagree : Radix.Agree 2 (path (a / PGSIZE * PGSIZE)) (path (0 * PGSIZE)) := by
    intro l hl
    rw [← path_page]
    exact (hzero l hl).trans (by interval_cases l <;> rfl)
  refine page_of_agree ?_ (by decide) hagree
  simp only [MAXVA] at ha
  simp only [PGSIZE, SLOTS]
  omega

theorem userFrames_onePage : UserFrames onePage (KERNBASE + 2) := by
  have hframe : ∀ a, UserPage onePage (KERNBASE + 2) a →
      frame onePage (KERNBASE + 2) a = KERNBASE + 3 := by
    intro a ha
    rw [frame_of_page ((page_of_userPage_onePage ha).trans rfl : a / PGSIZE = 0 / PGSIZE)]
    decide
  refine ⟨fun a b ha hb _ => ?_, fun a ha => ?_, fun a ha => ?_⟩
  · rw [page_of_userPage_onePage ha, page_of_userPage_onePage hb]
  · rw [hframe a ha, tables, tablesFrom, mem_cons, mem_flatMap]
    rintro (hself | ⟨i, -, hi⟩)
    · exact absurd hself (by decide)
    · by_cases hzero : i = 0
      · subst hzero
        rw [if_pos (by decide), tablesFrom, mem_cons, mem_flatMap] at hi
        rcases hi with hself | ⟨j, -, hj⟩
        · exact absurd hself (by decide)
        · by_cases hzero : j = 0
          · subst hzero
            rw [if_pos (by decide), tablesFrom, mem_singleton] at hj
            exact absurd hj (by decide)
          · have hword : ∀ p, onePage.page p j = 0 := fun p => if_neg hzero
            rw [hword, if_neg (by decide)] at hj
            exact not_mem_nil hj
      · have hword : ∀ p, onePage.page p i = 0 := fun p => if_neg hzero
        rw [hword, if_neg (by decide)] at hi
        exact not_mem_nil hi
  · rw [hframe a ha]
    decide

/-- Three bytes go out to the page and come back. -/
theorem copies_are_flat_three : ∃ m',
    copyout (KERNBASE + 2) 4000 [1, 2, 3] onePage = .ok (true, m') ∧
      copyin (KERNBASE + 2) 4000 3 m' = .ok ((true, [1, 2, 3]), m') ∧
      userByte m' (KERNBASE + 2) 4001 = 2 := by
  have hpage : ∀ a, a / PGSIZE = 0 → Writable onePage (KERNBASE + 2) a := fun a ha =>
    (writable_of_page (ha.trans rfl : a / PGSIZE = 0 / PGSIZE)).2 (by decide)
  obtain ⟨b, m', hret, hok, hgood, -⟩ := (copies_are_flat userFrames_onePage).1 4000 [1, 2, 3]
  have hb : b = true := by
    refine hok.2 (Or.inr ⟨by decide, fun a hle hlt => hpage a ?_⟩)
    simp only [length_cons, length_nil] at hlt
    simp only [PGSIZE]
    omega
  have hafter := hgood hb
  refine ⟨m', hb ▸ hret, hafter.2.2, ?_⟩
  rw [(hafter.1 4001 (hpage 4001 (by decide)).1).2]
  decide

/-! ## Strings -/

/-- A string of `k` bytes and a NUL byte at the address `a` of user memory. -/
structure StringAt (m : Memory) (root a k : Nat) : Prop where
  mapped : ∀ j ≤ k, Readable m root (a + j)
  bytes : ∀ j < k, userByte m root (a + j) ≠ 0
  nul : userByte m root (a + k) = 0

section Strings

variable {m : Memory} {root : Nat}

theorem copyBytes_cases (pg : Page) (n i : Nat) :
    (∃ k < n, (∀ j < k, byteAt pg (i + j) ≠ 0) ∧ byteAt pg (i + k) = 0 ∧
      copyBytes pg n i = (true, bytesOf pg i (k + 1))) ∨
    (∀ j < n, byteAt pg (i + j) ≠ 0) ∧ copyBytes pg n i = (false, bytesOf pg i n) := by
  have hcons : ∀ i n, bytesOf pg i (n + 1) = byteAt pg i :: bytesOf pg (i + 1) n := by
    intro i n
    rw [bytesOf, range_succ_eq_map, map_cons, map_map]
    refine congrArg (byteAt pg i :: ·) (map_congr_left fun j _ => ?_)
    rw [Function.comp_apply]
    congr 1
    omega
  induction n generalizing i with
  | zero => exact Or.inr ⟨nofun, rfl⟩
  | succ n ih =>
    rw [copyBytes]
    by_cases hnul : byteAt pg i = 0
    · refine Or.inl ⟨0, Nat.succ_pos n, nofun, hnul, ?_⟩
      rw [if_pos hnul, hcons, hnul]
      rfl
    rw [if_neg hnul]
    have hfirst : ∀ {k}, (∀ j < k, byteAt pg (i + 1 + j) ≠ 0) →
        ∀ j < k + 1, byteAt pg (i + j) ≠ 0 := by
      intro k hrest j hj
      cases j with
      | zero => exact hnul
      | succ j =>
        have haddr : i + (j + 1) = i + 1 + j := by omega
        rw [haddr]
        exact hrest j (by omega)
    rcases ih (i + 1) with ⟨k, hk, hbytes, hzero, hcopy⟩ | ⟨hbytes, hcopy⟩
    · refine Or.inl ⟨k + 1, by omega, hfirst hbytes, ?_, ?_⟩
      · have haddr : i + (k + 1) = i + 1 + k := by omega
        rw [haddr]
        exact hzero
      · rw [hcopy, hcons i (k + 1)]
    · refine Or.inr ⟨hfirst hbytes, ?_⟩
      rw [hcopy, hcons i n]

theorem stringAt_add {a n k : Nat} (hmapped : ∀ j < n, Readable m root (a + j))
    (hbytes : ∀ j < n, userByte m root (a + j) ≠ 0) :
    StringAt m root a (n + k) ↔ StringAt m root (a + n) k := by
  constructor
  · rintro ⟨h1, h2, h3⟩
    refine ⟨fun j hj => ?_, fun j hj => ?_, ?_⟩
    · rw [Nat.add_assoc]
      exact h1 (n + j) (by omega)
    · rw [Nat.add_assoc]
      exact h2 (n + j) (by omega)
    · rw [Nat.add_assoc]
      exact h3
  · rintro ⟨h1, h2, h3⟩
    refine ⟨fun j hj => ?_, fun j hj => ?_, ?_⟩
    · by_cases hlt : j < n
      · exact hmapped j hlt
      · have haddr : a + j = a + n + (j - n) := by omega
        rw [haddr]
        exact h1 (j - n) (by omega)
    · by_cases hlt : j < n
      · exact hbytes j hlt
      · have haddr : a + j = a + n + (j - n) := by omega
        rw [haddr]
        exact h2 (j - n) (by omega)
    · rw [← Nat.add_assoc]
      exact h3

theorem le_of_stringAt {a n k : Nat} (hbytes : ∀ j < n, userByte m root (a + j) ≠ 0)
    (h : StringAt m root a k) : n ≤ k := by
  by_contra hlt
  exact hbytes k (by omega) h.nul

theorem copyinstrFrom_spec (m : Memory) (root srcva : Nat) {rounds max : Nat} (hr : max ≤ rounds) :
    (∃ k < max, StringAt m root srcva k ∧
      copyinstrFrom root rounds srcva max m = .ok ((true, bytesAt m root srcva (k + 1)), m)) ∨
    (∀ k < max, ¬ StringAt m root srcva k) ∧
      ∃ l, l.length ≤ max ∧ copyinstrFrom root rounds srcva max m = .ok ((false, l), m) := by
  induction rounds generalizing srcva max with
  | zero =>
    cases Nat.le_zero.1 hr
    exact Or.inr ⟨nofun, [], Nat.le_refl 0, rfl⟩
  | succ rounds ih =>
    cases max with
    | zero => exact Or.inr ⟨nofun, [], Nat.le_refl 0, rfl⟩
    | succ max =>
      have hwalk := walkaddr_round m root srcva
      unfold copyinstrFrom
      rw [bind_ok hwalk]
      by_cases hread : Readable m root srcva
      swap
      · rw [if_neg hread, if_pos rfl]
        refine Or.inr ⟨fun k _ hstr => hread ?_, [], Nat.zero_le _, rfl⟩
        exact hstr.mapped 0 (Nat.zero_le k)
      rw [if_pos hread, if_neg hread.2]
      obtain ⟨n, hn⟩ : ∃ n, n = min (PGSIZE - (srcva - PGROUNDDOWN srcva)) (max + 1) := ⟨_, rfl⟩
      have hround := round_le srcva hn
      have hpos := round_pos hn
      have hin : ∀ j < n, Readable m root (srcva + j) ∧
          byteAt (m.page (frame m root srcva)) (srcva % PGSIZE + j) = userByte m root (srcva + j) := by
        intro j hj
        have hpage := round_page hround.1 hj
        refine ⟨(readable_of_page hpage.1).2 hread, ?_⟩
        rw [userByte, frame_of_page hpage.1, hpage.2]
      rw [← hn, bind_ok (read_apply _ _), sub_rounddown]
      rcases copyBytes_cases (m.page (frame m root srcva)) n (srcva % PGSIZE) with
        ⟨k, hk, hbytes, hnul, hcopy⟩ | ⟨hbytes, hcopy⟩
      · -- the string ends on this page
        rw [hcopy, bytesOf_eq m root (by omega)]
        refine Or.inl ⟨k, by omega, ⟨fun j hj => ?_, fun j hj => ?_, ?_⟩, rfl⟩
        · exact (hin j (by omega)).1
        · rw [← (hin j (by omega)).2]
          exact hbytes j hj
        · rw [← (hin k hk).2]
          exact hnul
      · rw [hcopy, bytesOf_eq m root hround.1]
        have hmapped : ∀ j < n, Readable m root (srcva + j) := fun j hj => (hin j hj).1
        have hbytes' : ∀ j < n, userByte m root (srcva + j) ≠ 0 := by
          intro j hj
          rw [← (hin j hj).2]
          exact hbytes j hj
        have hlen : (bytesAt m root srcva n).length = n := by simp [bytesAt]
        show (∃ k < max + 1, _ ∧ (copyinstrFrom root rounds _ _ >>= _) m = _) ∨
          _ ∧ ∃ l, _ ∧ (copyinstrFrom root rounds _ _ >>= _) m = _
        have hrec := @ih ((PGROUNDDOWN srcva + PGSIZE) % 2 ^ 64) (max + 1 - n) (by omega)
        rcases next_round (rounddown_lt hread.1) hn with hnext | hlast
        · rw [hnext] at hrec ⊢
          rcases hrec with ⟨k, hk, hstr, hret⟩ | ⟨hno, l, hl, hret⟩
          · refine Or.inl ⟨n + k, by omega, (stringAt_add hmapped hbytes').2 hstr, ?_⟩
            rw [bind_ok hret, Nat.add_assoc, bytesAt_add m root srcva]
            rfl
          · refine Or.inr ⟨fun k hk hstr => ?_, _, ?_, bind_ok hret⟩
            · have hle := le_of_stringAt hbytes' hstr
              obtain ⟨j, rfl⟩ := Nat.exists_eq_add_of_le hle
              exact hno j (by omega) ((stringAt_add hmapped hbytes').1 hstr)
            · show (bytesAt m root srcva n ++ l).length ≤ max + 1
              rw [length_append, hlen]
              omega
        · rcases hrec with ⟨k, hk, -⟩ | ⟨-, l, hl, hret⟩
          · omega
          · refine Or.inr ⟨fun k hk hstr => ?_, _, ?_, bind_ok hret⟩
            · have hle := le_of_stringAt hbytes' hstr
              omega
            · show (bytesAt m root srcva n ++ l).length ≤ max + 1
              rw [length_append, hlen]
              omega

theorem StringAt.unique {a k k' : Nat} (h : StringAt m root a k) (h' : StringAt m root a k') : k = k' :=
  Nat.le_antisymm (le_of_stringAt h.bytes h') (le_of_stringAt h'.bytes h)

theorem StringAt.strlen {a k : Nat} (h : StringAt m root a k) (buf : List UInt8) :
    strlen (bytesAt m root a (k + 1) ++ buf) = Int32.ofNat k := by
  have hlen : (bytesAt m root a (k + 1)).length = k + 1 := by simp [bytesAt]
  have hget : ∀ j < k + 1,
      (bytesAt m root a (k + 1) ++ buf)[j]? = some (userByte m root (a + j)) := by
    intro j hj
    rw [getElem?_append_left (by omega)]
    simp [bytesAt, hj]
  refine congrArg Int32.ofNat ((findIdx_eq (by simp; omega)).2 ⟨?_, fun j hj => ?_⟩)
  · have hk := hget k (Nat.lt_succ_self k)
    rw [(getElem_eq_iff _).2 hk, h.nul]
    rfl
  · have hj' := hget j (by omega)
    rw [(getElem_eq_iff _).2 hj']
    exact decide_eq_false (h.bytes j hj)

end Strings

/-- `copyinstr` copies exactly the string, if it ends within `max` bytes of readable memory;
`fetchstr` returns its length. -/
theorem copyinstr_string (m : Memory) (root srcva : Nat) :
    (∀ max, ∃ b bytes, copyinstr root srcva max m = .ok ((b, bytes), m) ∧
      (b = true ↔ ∃ k < max, StringAt m root srcva k) ∧
      (∀ k < max, StringAt m root srcva k → bytes = bytesAt m root srcva (k + 1)) ∧
      bytes.length ≤ max) ∧
    ∀ (buf : List UInt8) (max : Int32), (∀ k < max.toInt64.toUInt64.toNat, StringAt m root srcva k →
        fetchstr root srcva buf max m =
          .ok ((Int32.ofNat k, bytesAt m root srcva (k + 1) ++ buf.drop (k + 1)), m)) ∧
      ((∀ k < max.toInt64.toUInt64.toNat, ¬ StringAt m root srcva k) →
        ∃ buf', fetchstr root srcva buf max m = .ok ((-1, buf'), m)) := by
  refine ⟨fun max => ?_, fun buf max => ⟨fun k hk hstr => ?_, fun hno => ?_⟩⟩
  · rcases copyinstrFrom_spec m root srcva (Nat.le_refl max) with
      ⟨k, hk, hstr, hret⟩ | ⟨hno, l, hl, hret⟩
    · refine ⟨true, _, hret, ⟨fun _ => ⟨k, hk, hstr⟩, fun _ => rfl⟩, fun k' _ hstr' => ?_, ?_⟩
      · rw [hstr.unique hstr']
      · simp only [bytesAt, length_map, length_range]
        exact hk
    · refine ⟨false, l, hret, ⟨fun h => absurd h Bool.false_ne_true, ?_⟩, fun k hk hstr => absurd hstr (hno k hk), hl⟩
      rintro ⟨k, hk, hstr⟩
      exact absurd hstr (hno k hk)
  · rcases copyinstrFrom_spec m root srcva (Nat.le_refl max.toInt64.toUInt64.toNat) with
      ⟨k', -, hstr', hret⟩ | ⟨hno, -⟩
    · cases hstr.unique hstr'
      have hlen : (bytesAt m root srcva (k + 1)).length = k + 1 := by simp [bytesAt]
      have hret : copyinstr root srcva max.toInt64.toUInt64.toNat m = _ := hret
      rw [fetchstr, bind_ok hret]
      show Except.ok ((strlen _, _), m) = _
      rw [hlen, hstr.strlen]
    · exact absurd hstr (hno k hk)
  · rcases copyinstrFrom_spec m root srcva (Nat.le_refl max.toInt64.toUInt64.toNat) with
      ⟨k, hk, hstr, -⟩ | ⟨-, l, -, hret⟩
    · exact absurd hstr (hno k hk)
    · have hret : copyinstr root srcva max.toInt64.toUInt64.toNat m = _ := hret
      refine ⟨l ++ buf.drop l.length, ?_⟩
      rw [fetchstr, bind_ok hret]
      rfl

/-- The empty string at the start of the page. -/
theorem copyinstr_string_empty :
    fetchstr (KERNBASE + 2) 0 [7, 7] 2 onePage = .ok ((0, [0, 7]), onePage) := by
  have hstr : StringAt onePage (KERNBASE + 2) 0 0 := by
    refine ⟨fun j hj => ?_, nofun, by decide⟩
    rw [Nat.le_zero.1 hj]
    decide
  have hfetch := ((copyinstr_string onePage (KERNBASE + 2) 0).2 [7, 7] 2).1 0 (by decide) hstr
  rw [hfetch]
  have hbytes : bytesAt onePage (KERNBASE + 2) 0 1 = [0] := by decide
  rw [hbytes]
  rfl

end Xv6Schedulers.Vm
