import Xv6Schedulers.Vm.Unwind

/-!
# Arguments — what `exec` hands to `main`

The strings and the array of pointers are laid out from the top of the stack downwards, each at a
multiple of 16.

* `used argv u`, `addrs top argv u`: how far the strings reach, and where they are.
* `Arguments m root top argv sp`: the stack page holds the strings and the pointers to them.
* `exec_arguments`: `exec` leaves them so, and returns `-1` if they do not fit.
-/

namespace Xv6Schedulers.Vm

open Lib Exec Kernel List

/-! ## The layout -/

def align16 (n : Nat) : Nat := (n + 15) / 16 * 16

/-- The bytes below the top of the stack that are taken when the strings follow `u` others. -/
def used : List (List UInt8) → Nat → Nat
  | [], u => u
  | a :: argv, u => used argv (align16 (u + a.length + 1))

def addrs (top : Nat) : List (List UInt8) → Nat → List Nat
  | [], _ => []
  | a :: argv, u => (top - align16 (u + a.length + 1)) :: addrs top argv (align16 (u + a.length + 1))

/-- The bytes that the strings and the pointers take. -/
def stackUse (argv : List (List UInt8)) : Nat := align16 (used argv 0 + 8 * (argv.length + 1))

/-- They fit on the stack page. -/
def Fits (argv : List (List UInt8)) : Prop := stackUse argv ≤ PGSIZE

instance (argv : List (List UInt8)) : Decidable (Fits argv) := inferInstanceAs (Decidable (_ ≤ _))

theorem le_align16 (n : Nat) : n ≤ align16 n := by
  rw [align16]
  omega

theorem align16_mod (n : Nat) : align16 n % 16 = 0 := Nat.mul_mod_left _ 16

theorem le_used (argv : List (List UInt8)) (u : Nat) : u ≤ used argv u := by
  induction argv generalizing u with
  | nil => exact Nat.le_refl u
  | cons a argv ih =>
    have hle := le_align16 (u + a.length + 1)
    have hrest := ih (align16 (u + a.length + 1))
    rw [used]
    omega

theorem used_mod {u : Nat} (argv : List (List UInt8)) (h : u % 16 = 0) : used argv u % 16 = 0 := by
  induction argv generalizing u with
  | nil => exact h
  | cons a argv ih => exact ih (align16_mod _)

theorem length_addrs (top : Nat) (argv : List (List UInt8)) (u : Nat) :
    (addrs top argv u).length = argv.length := by
  induction argv generalizing u with
  | nil => rfl
  | cons a argv ih => rw [addrs, length_cons, length_cons, ih]

theorem length_words (ws : List Nat) : (ws.flatMap wordBytes).length = 8 * ws.length := by
  induction ws with
  | nil => rfl
  | cons w ws ih =>
    rw [flatMap_cons, length_append, ih, length_cons, wordBytes, length_map,
      length_range]
    omega

section Layout

variable {top u : Nat} {argv : List (List UInt8)}

theorem addrs_bounds (hle : used argv u ≤ top) {i : Nat}
    (hi : i < argv.length) : top - used argv u ≤ (addrs top argv u).getD i 0 ∧
      (addrs top argv u).getD i 0 + ((argv.getD i []).length + 1) ≤ top - u := by
  induction argv generalizing u i with
  | nil => exact absurd hi (Nat.not_lt_zero i)
  | cons a argv ih =>
    have hup := le_align16 (u + a.length + 1)
    have hrest := le_used argv (align16 (u + a.length + 1))
    rw [used] at hle ⊢
    cases i with
    | zero =>
      show _ ≤ top - align16 (u + a.length + 1) ∧ top - align16 (u + a.length + 1) + (a.length + 1) ≤ _
      omega
    | succ i =>
      have hb := ih hle (Nat.lt_of_succ_lt_succ hi)
      show _ ≤ (addrs top argv (align16 (u + a.length + 1))).getD i 0 ∧
        (addrs top argv (align16 (u + a.length + 1))).getD i 0 + ((argv.getD i []).length + 1) ≤ _
      omega

theorem addrs_disjoint (hle : used argv u ≤ top) {i j : Nat} (hij : i < j) (hj : j < argv.length) :
    (addrs top argv u).getD j 0 + ((argv.getD j []).length + 1) ≤ (addrs top argv u).getD i 0 := by
  induction argv generalizing u i j with
  | nil => exact absurd hj (Nat.not_lt_zero j)
  | cons a argv ih =>
    rw [used] at hle
    cases j with
    | zero => exact absurd hij (Nat.not_lt_zero i)
    | succ j =>
      cases i with
      | zero => exact (addrs_bounds hle (Nat.lt_of_succ_lt_succ hj)).2
      | succ i => exact ih hle (Nat.lt_of_succ_lt_succ hij) (Nat.lt_of_succ_lt_succ hj)

end Layout

theorem push_eq (top u n : Nat) (htop : top % 16 = 0) (hbig : 2 * PGSIZE ≤ top) (hlt : top < 2 ^ 63)
    (hu : u % 16 = 0) (hle : u ≤ PGSIZE) (hn : n ≤ PGSIZE) :
    sub64 (top - u) n - sub64 (top - u) n % 16 = top - align16 (u + n) := by
  have hsub : sub64 (top - u) n = top - u - n := by
    rw [sub64, Nat.mod_eq_of_lt (show n < 2 ^ 64 by simp only [PGSIZE] at hn; omega)]
    simp only [PGSIZE] at *
    omega
  rw [hsub, align16]
  simp only [PGSIZE] at *
  omega

/-! ## Copies to the stack page -/

section Copy

variable {m m' : Memory} {root tf base : Nat} {t : Table 2}

/-- The addresses of the stack page. -/
def OnStack (base a : Nat) : Prop := (base + 1) * PGSIZE ≤ a ∧ a < (base + 2) * PGSIZE

theorem OnStack.page {a : Nat} (h : OnStack base a) : a / PGSIZE = base + 1 := by
  simp only [OnStack, PGSIZE] at *
  omega

theorem Stacked.writable (h : Stacked m root tf t base) (ha : Apart m (spaceOwn t (base + 2))) {a : Nat}
    (hs : OnStack base a) : Writable m root a := by
  have hmax : a < MAXVA := by
    have hphys := pages_le_phystop ha
    have hstop : PHYSTOP = 0x88000 := rfl
    simp only [OnStack, PGSIZE] at hs
    simp only [MAXVA]
    omega
  rw [Writable, UserPage, h.table.leafPte ha, hs.page]
  exact ⟨⟨hmax, (h.table.space.low _ (by omega)).1, h.user⟩, h.write⟩

/-- The frame of the stack page. -/
theorem Stacked.frame_eq (h : Stacked m root tf t base) (ha : Apart m (spaceOwn t (base + 2))) {a : Nat}
    (hs : OnStack base a) : frame m root a = pte2pa (entry t (base + 1)) := by
  rw [frame, h.table.leafPte ha, hs.page]

/-- Only the page `p` of physical memory was written. -/
structure Touches (m : Memory) (p : Nat) (m' : Memory) : Prop where
  freelist : m'.freelist = m.freelist
  kernelEnd : m'.kernelEnd = m.kernelEnd
  trampoline : m'.trampoline = m.trampoline
  page : ∀ q, q ≠ p → m'.page q = m.page q

theorem Touches.refl (m : Memory) (p : Nat) : Touches m p m := ⟨rfl, rfl, rfl, fun _ _ => rfl⟩

theorem Touches.trans {m'' : Memory} {p : Nat} (h₁ : Touches m p m') (h₂ : Touches m' p m'') :
    Touches m p m'' where
  freelist := h₂.freelist.trans h₁.freelist
  kernelEnd := h₂.kernelEnd.trans h₁.kernelEnd
  trampoline := h₂.trampoline.trans h₁.trampoline
  page q hq := (h₂.page q hq).trans (h₁.page q hq)

theorem Touches.fills (h : Touches m (pte2pa (entry t (base + 1))) m') : Fills m t (base + 2) m' where
  freelist := h.freelist
  kernelEnd := h.kernelEnd
  trampoline := h.trampoline
  page q hq := h.page q fun heq => by
    have hpos := frame_count_pos (t := t) (Nat.zero_le (base + 1)) (show base + 1 < 0 + (base + 2) by omega)
    rw [heq] at hq
    omega

theorem copyout_stack (h : Stacked m root tf t base) (ha : Apart m (spaceOwn t (base + 2)))
    (hk : 0 < m.kernelEnd) {a : Nat} (src : List UInt8) (hlow : (base + 1) * PGSIZE ≤ a)
    (hhigh : a + src.length ≤ (base + 2) * PGSIZE) :
    ∃ m', copyout root a src m = .ok (true, m') ∧ Stores m root a src m' ∧ SameTable m root m' ∧
      Touches m (pte2pa (entry t (base + 1))) m' := by
  obtain ⟨k, hle, m', hret, -, hbad, hst, htab⟩ :=
    copyoutFrom_spec (h.table.userFrames ha hk) a (Nat.le_refl src.length)
  have hall : k = src.length := by
    by_contra hne
    exact hbad (by omega) (h.writable ha ⟨by omega, by omega⟩)
  rw [hall, take_length] at hst
  refine ⟨m', hret.trans ?_, hst, htab, hst.freelist, hst.kernelEnd, hst.trampoline, fun q hq => ?_⟩
  · rw [hall, decide_eq_true rfl]
  · refine page_ext fun i hi => hst.same q i hi fun k hk heq => absurd heq ?_
    rw [h.frame_eq ha ⟨by omega, by omega⟩]
    exact hq.symm

theorem bytesAt_congr {a n : Nat} (h : ∀ k < n, userByte m' root (a + k) = userByte m root (a + k)) :
    bytesAt m' root a n = bytesAt m root a n :=
  map_congr_left fun k hk => h k (mem_range.1 hk)

end Copy

/-! ## The strings -/

/-- The strings were written below `u` bytes of others. -/
structure Pushed (m : Memory) (root top : Nat) (argv : List (List UInt8)) (u : Nat) (m' : Memory) : Prop where
  table : SameTable m root m'
  strings : ∀ i < argv.length, bytesAt m' root ((addrs top argv u).getD i 0)
    ((argv.getD i []).length + 1) = argv.getD i [] ++ [0]
  other : ∀ a, UserPage m root a → a < top - used argv u ∨ top - u ≤ a →
    userByte m' root a = userByte m root a

theorem Pushed.cons {m m₁ m' : Memory} {root top u : Nat} {arg : List UInt8} {argv : List (List UInt8)}
    (hu : UserFrames m root) (hst : Stores m root (top - align16 (u + arg.length + 1)) (arg ++ [0]) m₁)
    (htab : SameTable m root m₁) (h : Pushed m₁ root top argv (align16 (u + arg.length + 1)) m')
    (hle : align16 (u + arg.length + 1) ≤ top)
    (hpage : ∀ a, top - align16 (u + arg.length + 1) ≤ a → a < top → UserPage m root a) :
    Pushed m root top (arg :: argv) u m' := by
  have hup := le_align16 (u + arg.length + 1)
  have hlen : (arg ++ [0]).length = arg.length + 1 := by rw [length_append, length_singleton]
  have hin : ∀ b, top - align16 (u + arg.length + 1) ≤ b →
      b < top - align16 (u + arg.length + 1) + (arg ++ [0]).length → UserPage m root b :=
    fun b hb hlt => hpage b hb (by omega)
  refine ⟨htab.trans h.table, fun i hi => ?_, fun a hp ha => ?_⟩
  · cases i with
    | zero =>
      show bytesAt m' root (top - align16 (u + arg.length + 1)) (arg.length + 1) = arg ++ [0]
      rw [bytesAt_congr fun k hk => h.other _ ((htab.userPage _).2 (hin _ (by omega) (by omega)))
        (Or.inr (by omega)), ← hlen]
      exact hst.bytesAt htab
    | succ i => exact h.strings i (Nat.lt_of_succ_lt_succ hi)
  · have hrest := le_used argv (align16 (u + arg.length + 1))
    rw [used] at ha
    rw [h.other a ((htab.userPage a).2 hp) (by omega), hst.userByte hu htab hin hp, if_neg (by omega)]

section Strings

variable {h : Host} {m : Memory} {cs : List FsCall} {root tf base : Nat} {t : Table 2} {E : Prop}

theorem pushArgs_spec (hst : Stacked m root tf t base) (ha : Apart m (spaceOwn t (base + 2)))
    (hk : 0 < m.kernelEnd) {argv : List (List UInt8)} (hstr : ∀ a ∈ argv, a.length < PGSIZE) {u : Nat}
    (hu : u % 16 = 0) (hle : u ≤ PGSIZE) {ustack : List Nat} (hargc : ustack.length + argv.length < MAXARG) :
    Ends E (pushArgs root ((base + 1) * PGSIZE) argv ((base + 2) * PGSIZE - u) ustack)
      (fun r h' => ∃ m', h' = h.put m' cs ∧ Touches m (pte2pa (entry t (base + 1))) m' ∧
        (PGSIZE < used argv u → r = none) ∧
        (used argv u ≤ PGSIZE → r = some ((base + 2) * PGSIZE - used argv u,
          ustack ++ addrs ((base + 2) * PGSIZE) argv u) ∧
          Pushed m root ((base + 2) * PGSIZE) argv u m')) (h.put m cs) := by
  induction argv generalizing m u ustack with
  | nil =>
    refine Ends.ret ⟨m, rfl, Touches.refl m _, fun hlt => ?_, fun _ => ⟨?_, SameTable.refl m root, ?_, ?_⟩⟩
    · exact absurd hlt (Nat.not_lt.2 hle)
    · rw [used, addrs, append_nil]
    · exact fun i hi => absurd hi (Nat.not_lt_zero i)
    · exact fun a _ _ => rfl
  | cons arg argv ih =>
    have hlen : arg.length < PGSIZE := hstr arg mem_cons_self
    have hphys := pages_le_phystop ha
    have hstop : PHYSTOP = 0x88000 := rfl
    have hpush := push_eq ((base + 2) * PGSIZE) u (arg.length + 1)
      (by simp only [PGSIZE]; omega) (by simp only [PGSIZE]; omega) (by simp only [PGSIZE]; omega) hu hle hlen
    rw [← Nat.add_assoc] at hpush
    have hrest := le_used argv (align16 (u + arg.length + 1))
    have hup := le_align16 (u + arg.length + 1)
    unfold pushArgs
    rw [if_neg (by rw [length_cons] at hargc; omega)]
    dsimp only
    rw [hpush]
    split
    · rename_i hlow
      have hbig : PGSIZE < used (arg :: argv) u := by
        rw [used]
        simp only [PGSIZE] at *
        omega
      exact Ends.ret ⟨m, rfl, Touches.refl m _, fun _ => rfl, fun hno => absurd hbig (Nat.not_lt.2 hno)⟩
    · rename_i hlow
      have hle₁ : align16 (u + arg.length + 1) ≤ PGSIZE := by
        simp only [PGSIZE] at *
        omega
      have hlow' : (base + 1) * PGSIZE ≤ (base + 2) * PGSIZE - align16 (u + arg.length + 1) := by omega
      have hargs : (arg ++ [0]).length = arg.length + 1 := by
        rw [length_append, length_singleton]
      obtain ⟨m₁, hret, hs, htab, htouch⟩ := copyout_stack hst ha hk (arg ++ [0]) hlow' (by
        simp only [PGSIZE] at *
        omega)
      have hf := htouch.fills
      have hk₁ : 0 < m₁.kernelEnd := by
        rw [hf.kernelEnd]
        exact hk
      refine Ends.step (onMem_put hret) ?_
      rw [if_pos rfl]
      refine (ih (⟨hf.table hst.table ha, hst.guard, hst.user, hst.write⟩) (ha.moves hf.moves) hk₁ (fun a hmem => hstr a (mem_cons_of_mem _ hmem))
        (align16_mod _) hle₁ ?_).mono ?_
      · rw [length_append, length_singleton]
        rw [length_cons] at hargc
        omega
      rintro r _ ⟨m', rfl, htouch', hnone, hsome⟩
      refine ⟨m', rfl, htouch.trans htouch', hnone, fun hfit => ?_⟩
      obtain ⟨hr, hp⟩ := hsome hfit
      refine ⟨?_, hp.cons (hst.table.userFrames ha hk) hs htab ?_ fun a hge hlt => ?_⟩
      · rw [hr, used, addrs, append_assoc]
        rfl
      · simp only [PGSIZE] at *
        omega
      · exact (hst.writable ha ⟨by omega, hlt⟩).1

/-- The pointers, below `u` bytes of strings. -/
theorem pushPointers_spec (hst : Stacked m root tf t base) (ha : Apart m (spaceOwn t (base + 2)))
    (hk : 0 < m.kernelEnd) {u : Nat} (hu : u % 16 = 0) (hle : u ≤ PGSIZE) {ustack : List Nat}
    (hargc : ustack.length < MAXARG) :
    Ends E (pushPointers root ((base + 1) * PGSIZE) ((base + 2) * PGSIZE - u) ustack)
      (fun r h' => ∃ m', h' = h.put m' cs ∧ Touches m (pte2pa (entry t (base + 1))) m' ∧
        (PGSIZE < align16 (u + 8 * (ustack.length + 1)) → r = none) ∧
        (align16 (u + 8 * (ustack.length + 1)) ≤ PGSIZE →
          r = some ((base + 2) * PGSIZE - align16 (u + 8 * (ustack.length + 1))) ∧
          SameTable m root m' ∧
          Stores m root ((base + 2) * PGSIZE - align16 (u + 8 * (ustack.length + 1)))
            ((ustack ++ [0]).flatMap wordBytes) m')) (h.put m cs) := by
  have hphys := pages_le_phystop ha
  have hstop : PHYSTOP = 0x88000 := rfl
  have hmax : MAXARG = 32 := rfl
  have hpush := push_eq ((base + 2) * PGSIZE) u (8 * (ustack.length + 1)) (by simp only [PGSIZE]; omega)
    (by simp only [PGSIZE]; omega) (by simp only [PGSIZE]; omega) hu hle (by simp only [PGSIZE]; omega)
  have hup := le_align16 (u + 8 * (ustack.length + 1))
  unfold pushPointers
  rw [if_neg (by omega)]
  dsimp only
  rw [length_append, length_singleton, Nat.mul_comm (ustack.length + 1) 8, hpush]
  split
  · rename_i hlow
    have hbig : PGSIZE < align16 (u + 8 * (ustack.length + 1)) := by
      simp only [PGSIZE] at *
      omega
    exact Ends.ret ⟨m, rfl, Touches.refl m _, fun _ => rfl, fun hno => absurd hbig (Nat.not_lt.2 hno)⟩
  · obtain ⟨m₁, hret, hs, htab, htouch⟩ := copyout_stack hst ha hk
      ((ustack ++ [0]).flatMap wordBytes) (Nat.not_lt.1 ‹_›) (by
        rw [length_words, length_append, length_singleton]
        simp only [PGSIZE] at *
        omega)
    refine Ends.step (onMem_put hret) ?_
    rw [if_pos rfl]
    refine Ends.ret ⟨m₁, rfl, htouch, fun hno => ?_, fun _ => ⟨rfl, htab, hs⟩⟩
    simp only [PGSIZE] at *
    omega

end Strings

/-! ## What `main` finds -/

/-- User memory at `sp` holds pointers to copies of the strings, then a null pointer; all of it is in the
page below `top`, and the page below that one is closed to user code. -/
structure Arguments (m : Memory) (root top : Nat) (argv : List (List UInt8)) (sp : Nat) (ptrs : List Nat) :
    Prop where
  aligned : sp % 16 = 0
  low : top - PGSIZE ≤ sp
  high : sp + 8 * (argv.length + 1) ≤ top
  stack : ∀ a, top - PGSIZE ≤ a → a < top → Writable m root a
  guard : ∀ a, top - 2 * PGSIZE ≤ a → a < top - PGSIZE → ¬ UserPage m root a
  length : ptrs.length = argv.length
  pointers : bytesAt m root sp (8 * (argv.length + 1)) = (ptrs ++ [0]).flatMap wordBytes
  strings : ∀ i < argv.length,
    bytesAt m root (ptrs.getD i 0) ((argv.getD i []).length + 1) = argv.getD i [] ++ [0]
  above : ∀ i < argv.length, sp + 8 * (argv.length + 1) ≤ ptrs.getD i 0
  below : ∀ i < argv.length, ptrs.getD i 0 + ((argv.getD i []).length + 1) ≤ top
  disjoint : ∀ i j, i < j → j < argv.length →
    ptrs.getD j 0 + ((argv.getD j []).length + 1) ≤ ptrs.getD i 0

section Arguments

variable {m m₁ m₂ m' : Memory} {root tf base top sp : Nat} {t : Table 2} {argv : List (List UInt8)}
  {ptrs : List Nat}

theorem Stacked.guarded (h : Stacked m root tf t base) (ha : Apart m (spaceOwn t (base + 2))) {a : Nat}
    (hlow : base * PGSIZE ≤ a) (hhigh : a < (base + 1) * PGSIZE) : ¬ UserPage m root a := by
  have hpage : a / PGSIZE = base := by
    simp only [PGSIZE] at *
    omega
  rw [UserPage, h.table.leafPte ha, hpage]
  exact fun hp => hp.2.2 h.guard

theorem arguments_of_pushed (hst : Stacked m root tf t base) (ha : Apart m (spaceOwn t (base + 2)))
    (hk : 0 < m.kernelEnd) (hfit : Fits argv) (hp : Pushed m root ((base + 2) * PGSIZE) argv 0 m₁)
    (hs : Stores m₁ root ((base + 2) * PGSIZE - stackUse argv)
      ((addrs ((base + 2) * PGSIZE) argv 0 ++ [0]).flatMap wordBytes) m₂) (htab : SameTable m₁ root m₂) :
    Arguments m₂ root ((base + 2) * PGSIZE) argv ((base + 2) * PGSIZE - stackUse argv)
      (addrs ((base + 2) * PGSIZE) argv 0) := by
  have htab₂ := hp.table.trans htab
  have hup : used argv 0 + 8 * (argv.length + 1) ≤ stackUse argv := le_align16 _
  have hmod : stackUse argv % 16 = 0 := align16_mod _
  have hlen : ((addrs ((base + 2) * PGSIZE) argv 0 ++ [0]).flatMap wordBytes).length =
      8 * (argv.length + 1) := by
    rw [length_words, length_append, length_addrs, length_singleton]
  rw [Fits] at hfit
  have hle : used argv 0 ≤ (base + 2) * PGSIZE := by
    simp only [PGSIZE] at *
    omega
  have hpage : ∀ b, (base + 2) * PGSIZE - stackUse argv ≤ b → b < (base + 2) * PGSIZE →
      UserPage m₁ root b := by
    intro b hlow hhigh
    refine (hp.table.userPage b).2 (hst.writable ha ⟨?_, hhigh⟩).1
    simp only [PGSIZE] at *
    omega
  have habove : ∀ i < argv.length, (base + 2) * PGSIZE - stackUse argv + 8 * (argv.length + 1) ≤
      (addrs ((base + 2) * PGSIZE) argv 0).getD i 0 := by
    intro i hi
    have hb := (addrs_bounds hle hi).1
    simp only [PGSIZE] at *
    omega
  have hbelow : ∀ i < argv.length, (addrs ((base + 2) * PGSIZE) argv 0).getD i 0 +
      ((argv.getD i []).length + 1) ≤ (base + 2) * PGSIZE := fun i hi => (addrs_bounds hle hi).2
  refine ⟨?_, ?_, ?_, fun a hlow hhigh => ?_, fun a hlow hhigh hu => ?_, length_addrs _ argv 0, ?_,
    fun i hi => ?_, habove, hbelow, fun i j hij hj => addrs_disjoint hle hij hj⟩
  · simp only [PGSIZE] at *
    omega
  · simp only [PGSIZE] at *
    omega
  · simp only [PGSIZE] at *
    omega
  · refine (htab₂.writable a).2 (hst.writable ha ⟨?_, hhigh⟩)
    simp only [PGSIZE] at *
    omega
  · refine hst.guarded ha ?_ ?_ ((htab₂.userPage a).1 hu)
    · simp only [PGSIZE] at *
      omega
    · simp only [PGSIZE] at *
      omega
  · rw [← hlen]
    exact hs.bytesAt htab
  · -- the pointers were written below the strings
    have hb := habove i hi
    have hb' := hbelow i hi
    refine (bytesAt_congr fun k hlt => ?_).trans (hp.strings i hi)
    refine (hs.userByte (hp.table.userFrames (hst.table.userFrames ha hk)) htab
      (fun b hlow hhigh => hpage b hlow ?_) (hpage _ (by omega) (by omega))).trans (if_neg (by omega))
    rw [hlen] at hhigh
    simp only [PGSIZE] at *
    omega

theorem Arguments.congr (h : Arguments m root top argv sp ptrs)
    (hleaf : ∀ a, leafPte m' root a = leafPte m root a)
    (hbyte : ∀ a, Writable m root a → userByte m' root a = userByte m root a) :
    Arguments m' root top argv sp ptrs where
  aligned := h.aligned
  low := h.low
  high := h.high
  stack a hlow hhigh := by
    rw [Writable, UserPage, hleaf]
    exact h.stack a hlow hhigh
  guard a hlow hhigh := by
    rw [UserPage, hleaf]
    exact h.guard a hlow hhigh
  length := h.length
  pointers := by
    rw [← h.pointers]
    have hlow := h.low
    have hhigh := h.high
    exact bytesAt_congr fun k hk => hbyte _ (h.stack _ (by omega) (by omega))
  strings i hi := by
    have hlow := h.low
    have habove := h.above i hi
    have hbelow := h.below i hi
    rw [← h.strings i hi]
    exact bytesAt_congr fun k hk => hbyte _ (h.stack _ (by omega) (by omega))
  above := h.above
  below := h.below
  disjoint := h.disjoint

end Arguments

/-! ## `exec` -/

/-- The process that runs has its arguments: `a1` and `sp` hold the address of the pointers. -/
def Handed (s : System) (tf : Nat) (argv : List (List UInt8)) : Prop :=
  ∃ root sp ptrs, (s.task s.cur).pagetable = some root ∧ (s.task s.cur).trapframe = some tf ∧
    s.mem.page tf a1Word = UInt64.ofNat sp ∧ s.mem.page tf spWord = UInt64.ofNat sp ∧
    Arguments s.mem root (s.task s.cur).sz.toNat argv sp ptrs

section Finish

variable {h : Host} {T : Slot → Table 2} {r : Owners} {old tf : Nat} {m : Memory} {cs : List FsCall}
  {E : Prop} {t : Table 2} {base : Nat} {img : Prepared}

theorem handed_of_commit (hc : Calls h T r old tf) {m' : Memory} {argv : List (List UInt8)} {sp : Nat}
    {ptrs : List Nat} {path : List UInt8} (hst : Stacked m img.pagetable tf t base)
    (hsz : img.sz = (base + 2) * PGSIZE) (hm : Moves h.sys.mem (fun _ => 0) m (spaceOwn t (base + 2)))
    (harg : Arguments m img.pagetable img.sz argv sp ptrs)
    (hm' : Moves m (fun q => spaceOwn (T h.sys.cur) (pages (h.sys.task h.sys.cur).sz.toNat) q + single tf q)
      m' (single tf))
    (hregs : m'.page tf = setRegs (m.page tf) sp img.entry) :
    Handed (h.sys.build h.sys.cur m' ((h.sys.task h.sys.cur).execed path img) h.sys.nextpid h.sys.held) tf
      argv := by
  have ha := (hc.apart hm).1
  have hown : Apart m (spaceOwn t (base + 2)) := ha.mono fun _ => Nat.le_add_right _ _
  have hsum : Apart m fun q => (spaceOwn (T h.sys.cur) (pages (h.sys.task h.sys.cur).sz.toNat) q +
      single tf q) + spaceOwn t (base + 2) q := ha.mono fun q => by
    have hle := hc.own_le q
    omega
  have hkeep : ∀ q, 0 < spaceOwn t (base + 2) q → m'.page q = m.page q := fun q hq => hm'.keeps hsum hq
  have hown' : Apart m' (spaceOwn t (base + 2)) :=
    (hsum.moves (hm'.extend _)).mono fun _ => Nat.le_add_left _ _
  have hu' : UserTable m' img.pagetable tf t (base + 2) := by
    refine hst.table.congr (fun q hq => hkeep q ?_) hm'.trampoline
    rw [spaceOwn]
    omega
  have hleaf : ∀ a, leafPte m' img.pagetable a = leafPte m img.pagetable a := fun a => by
    rw [hu'.leafPte hown', hst.table.leafPte hown]
  have hsize : (UInt64.ofNat img.sz).toNat = img.sz := by
    have hphys := pages_le_phystop hown
    have hstop : PHYSTOP = 0x88000 := rfl
    rw [UInt64.toNat_ofNat', hsz]
    simp only [PGSIZE]
    omega
  have harg' : Arguments m' img.pagetable img.sz argv sp ptrs := by
    refine harg.congr hleaf fun a hw => ?_
    rw [userByte, userByte, frame, frame, hleaf, hkeep]
    have hlt := hst.table.page_lt hown hw.1
    have hpos := frame_count_pos (t := t) (Nat.zero_le (a / PGSIZE)) (show _ < 0 + (base + 2) by omega)
    rw [spaceOwn, hst.table.leafPte hown]
    omega
  have htask : (h.sys.build h.sys.cur m' ((h.sys.task h.sys.cur).execed path img) h.sys.nextpid
      h.sys.held).task h.sys.cur = (h.sys.task h.sys.cur).execed path img := build_task _ _ _ _ _ _
  refine ⟨img.pagetable, sp, ptrs, congrArg Task.pagetable htask,
    (congrArg Task.trapframe htask).trans hc.trapframe, ?_, ?_, ?_⟩
  · show m'.page tf a1Word = _
    rw [hregs]
    rfl
  · show m'.page tf spWord = _
    rw [hregs]
    rfl
  · refine Eq.mpr (congrArg (fun n => Arguments m' _ n _ _ _) ?_) harg'
    exact (congrArg (fun k => k.sz.toNat) htask).trans hsize

theorem finish_arguments (hc : Calls h T r old tf) (hst : Stacked m img.pagetable tf t base)
    (hsz : img.sz = (base + 2) * PGSIZE) (hm : Moves h.sys.mem (fun _ => 0) m (spaceOwn t (base + 2)))
    (path : List UInt8) {argv : List (List UInt8)} (hargc : argv.length < MAXARG)
    (hstr : ∀ a ∈ argv, a.length < PGSIZE) :
    Ends E (finish path img argv) (fun v h' => (¬ Fits argv → v = -1) ∧
      (Fits argv → v = Int32.ofNat argv.length ∧ h'.sys.cur = h.sys.cur ∧ Handed h'.sys tf argv))
      (h.put m cs) := by
  have hk : 0 < m.kernelEnd := by
    rw [hm.kernelEnd]
    exact hc.kernel
  have ha : Apart m (spaceOwn t (base + 2)) := (hc.apart hm).1.mono fun _ => Nat.le_add_right _ _
  have hbase : img.sz - USERSTACK * PGSIZE = (base + 1) * PGSIZE := by
    rw [hsz]
    simp only [USERSTACK, PGSIZE]
    omega
  have hup : used argv 0 ≤ stackUse argv := Nat.le_trans (Nat.le_add_right _ _) (le_align16 _)
  unfold finish
  refine Ends.step myproc_put (Ends.step (a := h.sys.task h.sys.cur) rfl ?_)
  dsimp only
  rw [hbase, hsz]
  have hcount : ([] : List Nat).length + argv.length < MAXARG := by
    rw [length_nil, Nat.zero_add]
    exact hargc
  refine (pushArgs_spec hst ha hk hstr (Nat.zero_mod 16) (Nat.zero_le _) hcount).seq ?_
  rintro v _ ⟨m₁, rfl, ht, hnone, hsome⟩
  rcases Nat.lt_or_ge PGSIZE (used argv 0) with hbig | hle
  · cases hnone hbig
    have hbad : ¬ Fits argv := fun hfit => absurd (Nat.lt_of_lt_of_le hbig hup) (Nat.not_lt.2 hfit)
    have hend : Ends E _ _ (h.put m₁ cs) := bad_filled hst hsz ha hm ht.fills
    rw [hsz] at hend
    exact hend.mono fun v _ hv => ⟨fun _ => hv.1, fun hfit => absurd hfit hbad⟩
  obtain ⟨hr, hp⟩ := hsome hle
  cases hr
  have hst₁ : Stacked m₁ img.pagetable tf t base :=
    ⟨ht.fills.table hst.table ha, hst.guard, hst.user, hst.write⟩
  have hlen : (addrs ((base + 2) * PGSIZE) argv 0).length = argv.length := length_addrs _ _ _
  have hk₁ : 0 < m₁.kernelEnd := by
    rw [ht.kernelEnd]
    exact hk
  dsimp only
  rw [nil_append]
  refine (pushPointers_spec hst₁ (ha.moves ht.fills.moves) hk₁ (used_mod argv (Nat.zero_mod 16)) hle
    (by rw [hlen]; exact hargc)).seq ?_
  rintro v _ ⟨m₂, rfl, ht', hnone', hsome'⟩
  rw [hlen] at hnone' hsome'
  have ht₂ := ht.trans ht'
  rcases Nat.lt_or_ge PGSIZE (stackUse argv) with hbig | hfit
  · cases hnone' hbig
    have hend : Ends E _ _ (h.put m₂ cs) := bad_filled hst hsz ha hm ht₂.fills
    rw [hsz] at hend
    exact hend.mono fun v _ hv => ⟨fun _ => hv.1, fun hfit => absurd hbig (Nat.not_lt.2 hfit)⟩
  · obtain ⟨hr, htab, hs⟩ := hsome' hfit
    cases hr
    have harg := arguments_of_pushed hst ha hk hfit hp hs htab
    have hm₂ := hm.trans ht₂.fills.moves
    refine (commit_put hc hm₂ path img _).seq ?_
    rintro _ _ ⟨m', rfl, hm', hregs⟩
    refine Ends.ret ⟨fun hno => absurd hfit hno, fun _ => ⟨by rw [hlen], rfl, ?_⟩⟩
    rw [← hsz] at harg
    exact handed_of_commit hc ⟨ht₂.fills.table hst.table ha, hst.guard, hst.user, hst.write⟩ hsz hm₂ harg
      hm' (by rw [hsz]; exact hregs)

/-- Copying the arguments to a new address space: no subtraction from `sp` wraps around, and of all
memory only the frame of the stack page is written. -/
structure Copying (img : Prepared) (argv : List (List UInt8)) (h : Host) : Prop where
  string : ∀ k < argv.length, ∀ sp us h₁,
    pushArgs img.pagetable (img.sz - USERSTACK * PGSIZE) (argv.take k) img.sz [] h = .ok (some (sp, us), h₁) →
    (argv.getD k []).length + 1 ≤ sp
  pointers : ∀ sp us h₁,
    pushArgs img.pagetable (img.sz - USERSTACK * PGSIZE) argv img.sz [] h = .ok (some (sp, us), h₁) →
    8 * (us.length + 1) ≤ sp
  stack : ∀ v h₁, pushArgs img.pagetable (img.sz - USERSTACK * PGSIZE) argv img.sz [] h = .ok (v, h₁) →
    Touches h.sys.mem (frame h.sys.mem img.pagetable (img.sz - PGSIZE)) h₁.sys.mem ∧
    ∀ sp us, v = some (sp, us) → ∀ w h₂,
      pushPointers img.pagetable (img.sz - USERSTACK * PGSIZE) sp us h₁ = .ok (w, h₂) →
      Touches h.sys.mem (frame h.sys.mem img.pagetable (img.sz - PGSIZE)) h₂.sys.mem

theorem copying_of_stacked (hst : Stacked m img.pagetable tf t base) (hsz : img.sz = (base + 2) * PGSIZE)
    (ha : Apart m (spaceOwn t (base + 2))) (hk : 0 < m.kernelEnd) {argv : List (List UInt8)}
    (hargc : argv.length < MAXARG) (hstr : ∀ a ∈ argv, a.length < PGSIZE) :
    Copying img argv (h.put m cs) := by
  have hbase : img.sz - USERSTACK * PGSIZE = (base + 1) * PGSIZE := by
    rw [hsz]
    simp only [USERSTACK, PGSIZE]
    omega
  have hframe : frame m img.pagetable (img.sz - PGSIZE) = pte2pa (entry t (base + 1)) := by
    refine hst.frame_eq ha ⟨?_, ?_⟩ <;> rw [hsz] <;> simp only [PGSIZE] <;> omega
  -- the loop over a prefix of the arguments
  have hspec : ∀ l : List (List UInt8), l.length ≤ argv.length → (∀ a ∈ l, a.length < PGSIZE) →
      Ends False (pushArgs img.pagetable ((base + 1) * PGSIZE) l ((base + 2) * PGSIZE - 0) []) _
        (h.put m cs) := fun l hle hl =>
    pushArgs_spec hst ha hk hl (Nat.zero_mod 16) (Nat.zero_le _) (by rw [length_nil]; omega)
  have hsp : ∀ {l : List (List UInt8)} {sp : Nat} {us : List Nat} {h₁ : Host}, l.length ≤ argv.length →
      (∀ a ∈ l, a.length < PGSIZE) →
      pushArgs img.pagetable (img.sz - USERSTACK * PGSIZE) l img.sz [] (h.put m cs) =
        .ok (some (sp, us), h₁) → us.length = l.length ∧ PGSIZE ≤ sp := by
    intro l sp us h₁ hle hl hret
    rw [hbase, hsz] at hret
    obtain ⟨m', -, -, hnone, hsome⟩ := (hspec l hle hl).of_ok hret
    rcases Nat.lt_or_ge PGSIZE (used l 0) with hbig | hfit
    · cases hnone hbig
    · cases (hsome hfit).1
      refine ⟨by rw [nil_append, length_addrs], ?_⟩
      simp only [PGSIZE] at hfit ⊢
      omega
  refine ⟨fun k hk sp us h₁ hret => ?_, fun sp us h₁ hret => ?_, fun v h₁ hret => ?_⟩
  · have hlow := (hsp (length_take_le' _ _) (fun a hmem => hstr a (mem_of_mem_take hmem)) hret).2
    have hlen := hstr (argv.getD k []) (by
      rw [getD_eq_getElem?_getD, getElem?_eq_getElem hk]
      exact getElem_mem hk)
    omega
  · obtain ⟨hlen, hlow⟩ := hsp (Nat.le_refl _) hstr hret
    have hmax : MAXARG = 32 := rfl
    rw [hlen]
    simp only [PGSIZE] at hlow
    omega
  · rw [hbase, hsz] at hret
    obtain ⟨m₁, rfl, ht, hnone, hsome⟩ := (hspec argv (Nat.le_refl _) hstr).of_ok hret
    show Touches m (frame m _ _) m₁ ∧ ∀ sp us, v = some (sp, us) → ∀ w (h₂ : Host),
      _ → Touches m (frame m _ _) h₂.sys.mem
    rw [hframe]
    refine ⟨ht, fun sp us hv w h₂ hret' => ?_⟩
    rcases Nat.lt_or_ge PGSIZE (used argv 0) with hbig | hfit
    · cases hv.symm.trans (hnone hbig)
    cases hv.symm.trans (hsome hfit).1
    have hk₁ : 0 < m₁.kernelEnd := by
      rw [ht.kernelEnd]
      exact hk
    rw [hbase] at hret'
    obtain ⟨m₂, rfl, ht', -⟩ := (pushPointers_spec (E := False)
      ⟨ht.fills.table hst.table ha, hst.guard, hst.user, hst.write⟩ (ha.moves ht.fills.moves) hk₁
      (used_mod argv (Nat.zero_mod 16)) hfit (by rw [nil_append, length_addrs]; exact hargc)).of_ok hret'
    exact ht.trans ht'

end Finish

/-- The arguments reach `main` as they were given, or `exec` returns `-1`. -/
theorem exec_arguments (h : Host) (T : Slot → Table 2) (r : Owners) (old tf : Nat) (hc : Calls h T r old tf)
    (path : List UInt8) (file : Option File) (argv : List (List UInt8)) (hargc : argv.length < MAXARG)
    (hstr : ∀ a ∈ argv, a.length < PGSIZE) :
    ∃ v h', exec path file argv h = .ok (v, h') ∧
      (v ≠ -1 → v = Int32.ofNat argv.length ∧ h'.sys.cur = h.sys.cur ∧ Handed h'.sys tf argv) ∧
      (¬ Fits argv → v = -1) ∧
      ∀ img h₁, prepare file h = .ok (some img, h₁) → Copying img argv h₁ ∧ (Fits argv → v ≠ -1) := by
  obtain ⟨out, h₁, hprep, m, cs, rfl, -, hout⟩ := (prepare_spec file hc.trapframe
    (hc.memories.apart.mono fun _ => Nat.zero_le _) hc.kernel).returns
  cases out with
  | none =>
    refine ⟨-1, h.put m cs, ?_, fun hne => absurd rfl hne, fun _ => rfl, fun img h₁ himg => ?_⟩
    · rw [exec, bind_ok hprep]
      rfl
    · cases hprep.symm.trans himg
  | some img =>
    obtain ⟨t, base, hsz, hst, hm⟩ := hout
    obtain ⟨v, h', hret, hbad, hgood⟩ := (finish_arguments hc hst hsz hm path hargc hstr).returns
    refine ⟨v, h', ?_, fun hne => hgood ?_, hbad, fun img' h₁ himg => ?_⟩
    · rw [exec, bind_ok hprep]
      exact hret
    · by_contra hno
      exact hne (hbad hno)
    · cases hprep.symm.trans himg
      have hk : 0 < m.kernelEnd := by
        rw [hm.kernelEnd]
        exact hc.kernel
      refine ⟨copying_of_stacked hst hsz ((hc.apart hm).1.mono fun _ => Nat.le_add_right _ _) hk hargc hstr,
        fun hfit => ?_⟩
      rw [(hgood hfit).1]
      exact ofNat_ne_neg (Nat.le_of_lt hargc)

/-- A program without segments, with one argument. -/
theorem exec_arguments_one : ∃ h',
    exec [] (some ⟨0, [0x7F, 0x45, 0x4C, 0x46] ++ replicate 60 0⟩) [[65]] ⟨solo spare, []⟩ =
      .ok (Int32.ofNat 1, h') ∧ Handed h'.sys 0x80024 [[65]] := by
  obtain ⟨v, h', hret, hgood, -, hprep⟩ := exec_arguments ⟨solo spare, []⟩ soloTables (fun _ => 0) 0x80020
    0x80024 (calls_solo (by decide) (by decide) []) []
    (some ⟨0, [0x7F, 0x45, 0x4C, 0x46] ++ replicate 60 0⟩) [[65]] (by decide) (by decide)
  have hsome : ((returned (prepare (some ⟨0, [0x7F, 0x45, 0x4C, 0x46] ++ replicate 60 0⟩))
      ⟨solo spare, []⟩).bind id).isSome = true := by
    decide +kernel
  obtain ⟨img, himg⟩ := Option.isSome_iff_exists.1 hsome
  obtain ⟨_, hreturned, rfl⟩ := Option.bind_eq_some_iff.1 himg
  obtain ⟨h₁, hh₁⟩ := ok_of_returned hreturned
  obtain ⟨rfl, -, hhanded⟩ := hgood ((hprep img h₁ hh₁).2 (by decide))
  exact ⟨h', hret, hhanded⟩

end Xv6Schedulers.Vm
