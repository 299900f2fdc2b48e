import Xv6Schedulers.Vm.Process
import Xv6Schedulers.Vm.Space

/-!
# Tasks — the memory of all processes

Every process has a page table, user pages and a trapframe of its own, or nothing at all.

* `UserTable m root trapframe t n`: a page table with `n` user pages, `TRAMPOLINE` and `TRAPFRAME`.
* `TaskMem m k t`: the memory of the process `k`, whose page table is the tree `t`.
* `Memories s T r`: the memory of all processes; `r` is what else holds pages.
* `Memories.step`: an operation on the memory of one process leaves the others as they are.
-/

namespace Xv6Schedulers.Vm

open Lib Exec Kernel Function

/-! ## One process -/

/-- The page table of a process with `n` pages of user memory. -/
structure UserTable (m : Memory) (root trapframe : Nat) (t : Table 2) (n : Nat) : Prop where
  tree : Tree m root t
  space : Space t n
  trapframe : entry t TOP = pa2pte trapframe ||| (PTE_R ||| PTE_W) ||| PTE_V
  trampoline : entry t (TOP + 1) = pa2pte m.trampoline ||| (PTE_R ||| PTE_X) ||| PTE_V
  beyond : ∀ v, VPAGES ≤ v → v < SLOTS → entry t v = 0

/-- The memory of a process: all of it, or none. -/
inductive TaskMem (m : Memory) (k : Task) (t : Table 2) : Prop
  | bare (hp : k.pagetable = none) (hf : k.trapframe = none) (hsz : k.sz = 0) (ht : t = .absent)
  | full {root trapframe : Nat} (hp : k.pagetable = some root) (hf : k.trapframe = some trapframe)
      (hu : UserTable m root trapframe t (pages k.sz.toNat))

def taskOwn (k : Task) (t : Table 2) : Owners :=
  fun q => spaceOwn t (pages k.sz.toNat) q + k.trapframe.elim 0 fun p => single p q

section One

variable {m m' : Memory} {root trapframe n : Nat} {t t' : Table 2} {k : Task}

theorem UserTable.congr (h : UserTable m root trapframe t n)
    (hpage : ∀ q, 0 < t.holds q → m'.page q = m.page q) (htramp : m'.trampoline = m.trampoline) :
    UserTable m' root trapframe t n where
  tree := h.tree.congr hpage
  space := h.space
  trapframe := h.trapframe
  trampoline := by
    rw [htramp]
    exact h.trampoline
  beyond := h.beyond

theorem UserTable.edit (h : UserTable m root trapframe t n) {n' : Nat} (htree : Tree m' root t')
    (hspace : Space t' n') (htramp : m'.trampoline = m.trampoline)
    (hentry : ∀ u < SLOTS, TOP ≤ u → entry t' u = entry t u) : UserTable m' root trapframe t' n' where
  tree := htree
  space := hspace
  trapframe := by
    rw [hentry TOP (by decide) (Nat.le_refl _)]
    exact h.trapframe
  trampoline := by
    rw [hentry (TOP + 1) (by decide) (Nat.le_succ _), htramp]
    exact h.trampoline
  beyond v hle hlt := by
    have htop := top_lt
    rw [hentry v hlt (by omega)]
    exact h.beyond v hle hlt

theorem TaskMem.congr (h : TaskMem m k t) (hpage : ∀ q, 0 < t.holds q → m'.page q = m.page q)
    (htramp : m'.trampoline = m.trampoline) : TaskMem m' k t := by
  cases h with
  | bare hp hf hsz ht => exact .bare hp hf hsz ht
  | full hp hf hu => exact .full hp hf (hu.congr hpage htramp)

theorem TaskMem.space (h : TaskMem m k t) (hp : k.pagetable = some root) :
    ∃ trapframe, k.trapframe = some trapframe ∧ UserTable m root trapframe t (pages k.sz.toNat) := by
  cases h with
  | bare hno => exact nomatch hno.symm.trans hp
  | full hp' hf hu =>
    cases hp'.symm.trans hp
    exact ⟨_, hf, hu⟩

end One

/-! ## All processes -/

/-- The memory of all processes; `T` gives their page tables and `r` what else is held. -/
structure Memories (s : System) (T : Slot → Table 2) (r : Owners) : Prop where
  task : ∀ i, TaskMem s.mem (s.task i) (T i)
  apart : Apart s.mem fun q => ∑ i, taskOwn (s.task i) (T i) q + r q

/-- What the processes other than `i` hold, and the rest. -/
def othersOwn (s : System) (T : Slot → Table 2) (r : Owners) (i : Slot) : Owners :=
  fun q => ∑ j ∈ Finset.univ.erase i, taskOwn (s.task j) (T j) q + r q

section All

variable {s : System} {T : Slot → Table 2} {r : Owners} {i j : Slot}

theorem sum_taskOwn (s : System) (T : Slot → Table 2) (r : Owners) (i : Slot) (q : Nat) :
    ∑ j, taskOwn (s.task j) (T j) q + r q = taskOwn (s.task i) (T i) q + othersOwn s T r i q := by
  rw [othersOwn, ← Finset.add_sum_erase Finset.univ _ (Finset.mem_univ i), Nat.add_assoc]

theorem Memories.split (h : Memories s T r) (i : Slot) :
    Apart s.mem fun q => taskOwn (s.task i) (T i) q + othersOwn s T r i q :=
  h.apart.mono fun q => Nat.le_of_eq (sum_taskOwn s T r i q).symm

theorem taskOwn_le_others (s : System) (T : Slot → Table 2) (r : Owners) (h : j ≠ i) (q : Nat) :
    taskOwn (s.task j) (T j) q ≤ othersOwn s T r i q := by
  have hle : taskOwn (s.task j) (T j) q ≤ ∑ j ∈ Finset.univ.erase i, taskOwn (s.task j) (T j) q :=
    Finset.single_le_sum (f := fun j => taskOwn (s.task j) (T j) q) (fun _ _ => Nat.zero_le _)
      (Finset.mem_erase.2 ⟨h, Finset.mem_univ j⟩)
  rw [othersOwn]
  omega

theorem Memories.step (h : Memories s T r) {s' : System} {t' : Table 2}
    (htask : ∀ j, j ≠ i → s'.task j = s.task j)
    (hm : Moves s.mem (taskOwn (s.task i) (T i)) s'.mem (taskOwn (s'.task i) t'))
    (ht : TaskMem s'.mem (s'.task i) t') : Memories s' (update T i t') r := by
  have hothers : othersOwn s' (update T i t') r i = othersOwn s T r i := by
    funext q
    rw [othersOwn, othersOwn]
    refine congrArg (· + r q) (Finset.sum_congr rfl fun j hj => ?_)
    have hne : j ≠ i := (Finset.mem_erase.1 hj).1
    rw [htask j hne, update_of_ne hne]
  refine ⟨fun j => ?_, ?_⟩
  · by_cases hj : j = i
    · rw [hj, update_self]
      exact ht
    · rw [htask j hj, update_of_ne hj]
      refine (h.task j).congr (fun q hq => ?_) hm.trampoline
      refine hm.keeps (h.split i) (Nat.lt_of_lt_of_le ?_ (taskOwn_le_others s T r hj q))
      simp only [taskOwn, spaceOwn]
      omega
  · refine ((h.split i).moves (hm.extend (othersOwn s T r i))).mono fun q => ?_
    rw [sum_taskOwn s' _ r i q, hothers, update_self]

theorem Memories.addressSpace (h : Memories s T r) {root : Nat}
    (hp : (s.task i).pagetable = some root) : AddressSpace s.mem root (s.task i).sz.toNat := by
  obtain ⟨trapframe, -, hu⟩ := (h.task i).space hp
  refine ⟨T i, hu.tree, hu.space, (h.split i).mono fun q => ?_⟩
  simp only [taskOwn]
  omega

end All

/-! ## A system with one process -/

/-- Two tables below the root, one for the first pages and one for those at `TRAPFRAME`. -/
def soloBase : Table 2 :=
  .node 0x80020 (update (update (fun _ => .absent)
    0 (.node 0x80021 (update (fun _ => .absent) 0 (.leaf 0x80022 fun _ => 0))))
    255 (.node 0x80025 (update (fun _ => .absent) 511 (.leaf 0x80026 fun _ => 0))))

def soloTable : Table 2 :=
  ((soloBase.set (path (0 * PGSIZE)) (pa2pte 0x80023 ||| (PTE_R ||| PTE_W ||| PTE_U) ||| PTE_V)).set
    (path (TOP * PGSIZE)) (pa2pte 0x80024 ||| (PTE_R ||| PTE_W) ||| PTE_V)).set
    (path ((TOP + 1) * PGSIZE)) (pa2pte 0x80007 ||| (PTE_R ||| PTE_X) ||| PTE_V)

/-- The words of `soloBase`, when these pages are free. -/
def soloPages (free : List Nat) : Memory where
  page := fun p =>
    if p = 0x80020 then
      update (update (fun _ => 0) 0 (enc (some 0x80021))) 255 (enc (some 0x80025))
    else if p = 0x80021 then update (fun _ => 0) 0 (enc (some 0x80022))
    else if p = 0x80025 then update (fun _ => 0) 511 (enc (some 0x80026))
    else fun _ => 0
  freelist := free
  kernelEnd := 0x80020
  trampoline := 0x80007

def soloMemory (free : List Nat) : Memory :=
  (((soloPages free).setWord 0x80022 0
    (pa2pte 0x80023 ||| (PTE_R ||| PTE_W ||| PTE_U) ||| PTE_V)).setWord 0x80026 510
    (pa2pte 0x80024 ||| (PTE_R ||| PTE_W) ||| PTE_V)).setWord 0x80026 511
    (pa2pte 0x80007 ||| (PTE_R ||| PTE_X) ||| PTE_V)

def soloTask : Task :=
  { Proc.zero with
    state := .running
    pid := 1
    sz := 4096
    pagetable := some 0x80020
    trapframe := some 0x80024
    ofile := fun _ => none
    cwd := some 0
    name := fun _ => 0 }

def noTask : Task :=
  { Proc.zero with
    sz := 0
    pagetable := none
    trapframe := none
    ofile := fun _ => none
    cwd := none
    name := fun _ => 0 }

/-- The system with one process, when these pages are free. -/
def solo (free : List Nat) : System where
  mem := soloMemory free
  task := fun i => if i = slotAt 0 then soloTask else noTask
  nextpid := 2
  held := fun _ => false
  fileRef := fun _ => 0
  inodeRef := fun _ => 1
  cur := slotAt 0

def soloTables (i : Slot) : Table 2 := if i = slotAt 0 then soloTable else .absent

/-- The pages that the process holds. -/
def soloUsed : List Nat := [0x80020, 0x80021, 0x80022, 0x80025, 0x80026, 0x80023, 0x80024]

theorem apart_of_nodup {m : Memory} {own : Owners} {l : List Nat} (h : (m.freelist ++ l).Nodup)
    (hreal : ∀ p ∈ m.freelist ++ l, m.kernelEnd ≤ p ∧ p < PHYSTOP) (hown : ∀ q, own q = l.count q) :
    Apart m own where
  one q := by
    rw [hown, ← List.count_append]
    exact List.nodup_iff_count_le_one.1 h q
  real q hq := by
    rw [hown, ← List.count_append] at hq
    exact hreal q (List.count_pos_iff.1 hq)

theorem get_update {n : Nat} (p : Nat) (c : Fin 512 → Table n) (i : Fin 512) (t : Table n)
    (π : Radix.Path (Fin 512)) : (Radix.node p (update c i t)).get 0 π =
      if π (n + 1) = i then t.get 0 π else (Radix.node p c).get 0 π := by
  show (update c i t (π (n + 1))).get 0 π = _
  by_cases h : π (n + 1) = i
  · rw [if_pos h, h, update_self]
  · rw [if_neg h, update_of_ne h]
    rfl

theorem entry_soloBase (v : Nat) : entry soloBase v = 0 := by
  have hnone : ∀ {n : Nat} (p : Nat) (π : Radix.Path (Fin 512)),
      (Radix.node p (fun _ => .absent) : Table (n + 1)).get 0 π = 0 := fun _ _ => rfl
  rw [entry, soloBase, get_update, get_update, get_update, get_update, hnone, hnone, hnone]
  simp only [Radix.get, ite_self]

theorem holds_graft {n : Nat} (p : Nat) {c : Fin 512 → Table n} {i : Fin 512} (h : c i = .absent)
    (t : Table n) (q : Nat) :
    (Radix.node p (update c i t)).holds q = (Radix.node p c).holds q + t.holds q := by
  have hupdate := Radix.holds_update p q c i t
  rw [h, Radix.holds_absent, Nat.add_zero] at hupdate
  exact hupdate

theorem holds_soloBase (q : Nat) :
    soloBase.holds q = [0x80020, 0x80021, 0x80022, 0x80025, 0x80026].count q := by
  have hblank : ∀ n p, (Radix.node p (fun _ => .absent) : Table (n + 1)).holds q = single p q :=
    fun n p => Radix.holds_blank (0 : UInt64) (n + 1) p q
  have hleaf : ∀ p, (Radix.leaf p fun _ => 0 : Table 0).holds q = single p q := fun _ => rfl
  rw [soloBase, holds_graft _ (update_of_ne (by decide) _ _), holds_graft _ rfl,
    holds_graft _ rfl, holds_graft _ rfl]
  simp only [hblank, hleaf, single, List.count_cons, List.count_nil, beq_iff_eq]
  omega

theorem kept_single {n : Nat} {m : Memory} {p q : Nat} {i : Fin 512} {t : Table n}
    (hpage : m.page p = update (fun _ => 0) i (enc (some q))) (ht : t.page? = some q)
    (hk : Kept m t) : Kept m (.node p (update (fun _ => .absent) i t)) := by
  refine ⟨fun j => ?_, fun j => ?_⟩
  · rw [hpage]
    by_cases hj : j = i
    · rw [hj, update_self, update_self, ht]
    · rw [update_of_ne hj, update_of_ne hj]
      rfl
  · by_cases hj : j = i
    · rw [hj, update_self]
      exact hk
    · rw [update_of_ne hj]
      trivial

theorem tree_soloBase (free : List Nat) : Tree (soloPages free) 0x80020 soloBase := by
  have hlow : Kept (soloPages free) (.node 0x80021 (update (fun _ => .absent) (0 : Fin 512)
      (.leaf 0x80022 fun _ => (0 : UInt64)))) := kept_single rfl rfl rfl
  have hhigh : Kept (soloPages free) (.node 0x80025 (update (fun _ => .absent) (511 : Fin 512)
      (.leaf 0x80026 fun _ => (0 : UInt64)))) := kept_single rfl rfl rfl
  have hroot : (soloPages free).page 0x80020 = update (update (fun _ => 0) 0
      (enc (some 0x80021))) 255 (enc (some 0x80025)) := rfl
  refine ⟨⟨fun i => ?_, fun i => ?_⟩, rfl⟩
  · rw [hroot]
    by_cases h255 : i = 255
    · rw [h255, update_self, update_self]
      rfl
    · rw [update_of_ne h255, update_of_ne h255]
      by_cases h0 : i = 0
      · rw [h0, update_self, update_self]
        rfl
      · rw [update_of_ne h0, update_of_ne h0]
        rfl
  · by_cases h255 : i = 255
    · rw [h255, update_self]
      exact hhigh
    · rw [update_of_ne h255]
      by_cases h0 : i = 0
      · rw [h0, update_self]
        exact hlow
      · rw [update_of_ne h0]
        trivial

theorem tree_solo (free : List Nat) : Tree (soloMemory free) 0x80020 soloTable := by
  have hone : ∀ q, soloBase.holds q ≤ 1 := by
    intro q
    rw [holds_soloBase]
    exact List.nodup_iff_count_le_one.1 (by decide) q
  have hset₁ := (tree_soloBase free).set hone (π := path (0 * PGSIZE)) (p := 0x80022) (i := 0) (by decide)
    (pa2pte 0x80023 ||| (PTE_R ||| PTE_W ||| PTE_U) ||| PTE_V)
  have hset₂ := hset₁.set (by simpa only [Radix.holds_set] using hone) (π := path (TOP * PGSIZE))
    (p := 0x80026) (i := 510) (by decide) (pa2pte 0x80024 ||| (PTE_R ||| PTE_W) ||| PTE_V)
  exact hset₂.set (by simpa only [Radix.holds_set] using hone) (π := path ((TOP + 1) * PGSIZE))
    (p := 0x80026) (i := 511) (by decide) (pa2pte 0x80007 ||| (PTE_R ||| PTE_X) ||| PTE_V)

theorem entry_solo {v : Nat} (hv : v < SLOTS) : entry soloTable v =
    if v = TOP + 1 then pa2pte 0x80007 ||| (PTE_R ||| PTE_X) ||| PTE_V
    else if v = TOP then pa2pte 0x80024 ||| (PTE_R ||| PTE_W) ||| PTE_V
    else if v = 0 then pa2pte 0x80023 ||| (PTE_R ||| PTE_W ||| PTE_U) ||| PTE_V
    else 0 := by
  rw [soloTable, entry_set (by decide) (by simp only [Radix.slot_set]; decide) _ hv,
    entry_set (by decide) (by simp only [Radix.slot_set]; decide) _ hv,
    entry_set (by decide) (by decide) _ hv, entry_soloBase]

theorem userTable_solo (free : List Nat) : UserTable (soloMemory free) 0x80020 0x80024 soloTable 1 where
  tree := tree_solo free
  space := by
    have htop : TOP = 0x3fffffe := rfl
    refine ⟨fun v hv => ?_, fun v hle hlt => ?_, by decide⟩
    · rw [Nat.lt_one_iff.1 hv, entry_solo (by decide)]
      decide
    · rw [entry_solo (lt_slots (Nat.lt_trans hlt top_lt)), if_neg (by omega), if_neg (by omega),
        if_neg (by omega)]
  trapframe := by
    rw [entry_solo (by decide)]
    decide
  trampoline := by
    rw [entry_solo (by decide), if_pos rfl]
    rfl
  beyond v hle hlt := by
    have htop := top_lt
    have hlt' : TOP + 1 < VPAGES := by decide
    rw [entry_solo hlt, if_neg (by omega), if_neg (by omega), if_neg (by omega)]

theorem spaceOwn_solo (q : Nat) : spaceOwn soloTable 1 q = soloUsed.dropLast.count q := by
  have hframe : frames soloTable 0 1 = [0x80023] := by
    rw [frames_one, entry_solo (by decide)]
    decide
  rw [spaceOwn, soloTable, Radix.holds_set, Radix.holds_set, Radix.holds_set, holds_soloBase,
    ← soloTable, hframe, ← List.count_append]
  rfl

theorem solo_cur (free : List Nat) : (solo free).task (slotAt 0) = soloTask := by
  show (if slotAt 0 = slotAt 0 then soloTask else noTask) = soloTask
  rw [if_pos rfl]

theorem memories_solo {free : List Nat} (hnodup : (free ++ soloUsed).Nodup)
    (hreal : ∀ p ∈ free, 0x80020 ≤ p ∧ p < PHYSTOP) :
    Memories (solo free) soloTables fun _ => 0 := by
  have hcur := solo_cur free
  have hother : ∀ i, i ≠ slotAt 0 → (solo free).task i = noTask := fun i hi => if_neg hi
  have hown : ∀ q, taskOwn soloTask soloTable q = soloUsed.count q := by
    intro q
    show spaceOwn soloTable 1 q + single 0x80024 q = _
    rw [spaceOwn_solo, ← gone_single, gone_true, ← List.count_append]
    rfl
  refine ⟨fun i => ?_, ?_⟩
  · by_cases hi : i = slotAt 0
    · rw [hi, hcur]
      exact .full rfl rfl (userTable_solo free)
    · rw [hother i hi]
      exact .bare rfl rfl rfl (if_neg hi)
  · have hsum : ∀ q, ∑ i, taskOwn ((solo free).task i) (soloTables i) q + 0 = soloUsed.count q := by
      intro q
      rw [Finset.sum_eq_single (slotAt 0) (fun i _ hi => ?_) fun hno => absurd (Finset.mem_univ _) hno]
      · rw [hcur, soloTables, if_pos rfl, hown, Nat.add_zero]
      · rw [hother i hi, soloTables, if_neg hi]
        rfl
    refine apart_of_nodup hnodup (fun p hp => ?_) hsum
    rcases List.mem_append.1 hp with hp | hp
    · exact hreal p hp
    · have hused : ∀ p ∈ soloUsed, 0x80020 ≤ p ∧ p < PHYSTOP := by decide
      exact hused p hp

end Xv6Schedulers.Vm
