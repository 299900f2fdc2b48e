import Xv6Schedulers.Vm.Grow

/-!
# Lifecycle — building and taking apart the memory of a process

* `procPagetable_spec`: a table with the two pages at the top, or no page taken.
* `freeMemory_spec`: `freeproc` gives back all pages of a process, complete or not.
* `allocproc_spec`: a process without user memory, or everything as it was.
-/

namespace Xv6Schedulers.Vm

open Lib Exec Kernel Function

/-! ## Page tables of processes -/

section Tables

variable {m m' : Memory} {root trapframe n : Nat} {t t' : Table 2} {E : Prop}

theorem trampoline_page : TRAMPOLINE = (TOP + 1) * PGSIZE := by decide

theorem trapframe_page : TRAPFRAME = TOP * PGSIZE := by decide

/-- `uvmunmap` of pages that are mapped. -/
theorem uvmunmap_leaves (h : Tree m root t) {v n : Nat} (doFree : Bool) (hv : v + n ≤ VPAGES)
    (hleaf : ∀ u, v ≤ u → u < v + n → Leaf (entry t u))
    (ha : Apart m fun q => t.holds q + gone doFree (frames t v n) q) :
    Ends E (uvmunmap root (v * PGSIZE) n doFree) (fun _ m' => ∃ t', Tree m' root t' ∧
      Moves m (fun q => t.holds q + gone doFree (frames t v n) q) m' (fun q => t'.holds q) ∧
      ∀ u < SLOTS, entry t' u = if v ≤ u ∧ u < v + n then 0 else entry t u) m := by
  refine (uvmunmap_spec h v n doFree ha fun u hle hlt hno => ?_).mono ?_
  · exact absurd ⟨Nat.lt_of_lt_of_le hlt hv, hleaf u hle hlt⟩ hno
  · rintro _ m' ⟨t', htree, hmoves, -, hentry⟩
    exact ⟨t', htree, hmoves, hentry⟩

/-- A table without entries is freed. -/
theorem freeTables_spec (h : Tree m root t) (ha : Apart m fun q => t.holds q)
    (hzero : ∀ u < SLOTS, entry t u = 0) :
    Ends E (freewalk 3 root) (fun _ m' => Moves m (fun q => t.holds q) m' fun _ => 0) m := by
  refine freewalk_spec h.root h.kept ha fun π => ?_
  obtain ⟨v, hv, hagree⟩ := exists_page π
  rw [Radix.get_of_agree 0 t hagree]
  exact hzero v hv

theorem uvmfree_nil (root : Nat) : uvmfree root 0 = freewalk 3 root := by
  unfold uvmfree
  rfl

/-- `uvmcreate`, as far as it has memory. -/
theorem uvmcreate_cons {p : Nat} {rest : List Nat} (h : m.freelist = p :: rest) :
    uvmcreate m = .ok (some p, m.filled p rest fun _ => 0) := by
  rw [uvmcreate, bind_ok (kalloc_cons h)]
  rfl

theorem tree_blank {p : Nat} (hp : m.page p = fun _ => 0) : Tree m p (Radix.blank 0 2 p) :=
  ⟨Radix.stored_blank rfl hp 2, Radix.page?_blank 0 2 p⟩

theorem holds_blank_single (p q : Nat) : (Radix.blank 0 2 p : Table 2).holds q = single p q :=
  Radix.holds_blank 0 2 p q

/-- `proc_pagetable` returns a table without user memory, or has taken no page. -/
theorem procPagetable_spec (ha : Apart m fun _ => 0) : Ends E (procPagetable trapframe) (fun r m' =>
      (r = none → Moves m (fun _ => 0) m' fun _ => 0) ∧
      ∀ root, r = some root → ∃ t, UserTable m' root trapframe t 0 ∧
        Moves m (fun _ => 0) m' fun q => t.holds q) m := by
  unfold procPagetable
  cases hfree : m.freelist with
  | nil =>
    have hnone : uvmcreate m = .ok (none, m) := by
      rw [uvmcreate, bind_ok (kalloc_nil hfree)]
      rfl
    exact Ends.step hnone (Ends.ret ⟨fun _ => Moves.refl m _, nofun⟩)
  | cons p rest =>
    refine Ends.step (uvmcreate_cons hfree) (Ends.step (read_apply _ _) ?_)
    have htree := tree_blank (filled_page m p rest fun _ => 0)
    have hmoves : Moves m (fun _ => 0) (m.filled p rest fun _ => 0)
        fun q => (Radix.blank 0 2 p : Table 2).holds q :=
      (Moves.filled hfree _ _).congr (fun _ => rfl) fun q => by
        rw [holds_blank_single, Nat.zero_add]
    have hzero : ∀ u, entry (Radix.blank 0 2 p) u = 0 := fun u => Radix.get_blank 0 _ 2 p
    have hapart := ha.moves hmoves
    have htop : TOP + 1 < VPAGES := by decide
    have hnone : entry (Radix.blank 0 2 p) (TOP + 1) &&& PTE_V = 0 := by
      rw [hzero]
      decide
    rw [trampoline_page]
    refine (mapOne_spec htree hapart htop hnone _ _).seq ?_
    rintro b m₁ ⟨t₁, htree₁, hmoves₁, -, hentry₁⟩
    have hapart₁ := hapart.moves hmoves₁
    cases b with
    | false =>
      have hzero₁ : ∀ u < SLOTS, entry t₁ u = 0 := fun u hu => by
        rw [hentry₁ u hu, if_neg (fun h => nomatch h.1), hzero]
      rw [if_neg (by decide), uvmfree_nil]
      refine (freeTables_spec htree₁ hapart₁ hzero₁).seq fun _ m₂ hmoves₂ => ?_
      exact Ends.ret ⟨fun _ => (hmoves.trans hmoves₁).trans hmoves₂, nofun⟩
    | true =>
      rw [if_pos rfl, trapframe_page]
      have hone : entry t₁ (TOP + 1) =
          pa2pte (m.filled p rest fun _ => 0).trampoline ||| (PTE_R ||| PTE_X) ||| PTE_V := by
        rw [hentry₁ _ (by decide), if_pos ⟨rfl, rfl⟩]
      have hrest₁ : ∀ u < SLOTS, u ≠ TOP + 1 → entry t₁ u = 0 := fun u hu hne => by
        rw [hentry₁ u hu, if_neg (fun h => hne h.2), hzero]
      have hnone₁ : entry t₁ TOP &&& PTE_V = 0 := by
        rw [hrest₁ TOP (by decide) (by decide)]
        decide
      refine (mapOne_spec htree₁ hapart₁ top_lt hnone₁ _ _).seq ?_
      rintro b m₂ ⟨t₂, htree₂, hmoves₂, -, hentry₂⟩
      have hapart₂ := hapart₁.moves hmoves₂
      have hall := (hmoves.trans hmoves₁).trans hmoves₂
      cases b with
      | false =>
        have hsame : ∀ u < SLOTS, entry t₂ u = entry t₁ u := fun u hu => by
          rw [hentry₂ u hu, if_neg (fun h => nomatch h.1)]
        have hleaf : Leaf (entry t₂ (TOP + 1)) := by
          rw [hsame _ (by decide), hone]
          exact leaf_entry _ (by decide) (by decide)
        rw [if_neg (by decide), uvmfree_nil]
        refine (uvmunmap_leaves htree₂ false htop (fun u hle hlt => ?_)
          (hapart₂.mono fun _ => Nat.le_refl _)).seq ?_
        · rw [show u = TOP + 1 by omega]
          exact hleaf
        · rintro _ m₃ ⟨t₃, htree₃, hmoves₃, hentry₃⟩
          have hmoves₃' : Moves m₂ (fun q => t₂.holds q) m₃ fun q => t₃.holds q := hmoves₃
          have hzero₃ : ∀ u < SLOTS, entry t₃ u = 0 := fun u hu => by
            rw [hentry₃ u hu]
            split
            · rfl
            · rw [hsame u hu, hrest₁ u hu (by omega)]
          refine (freeTables_spec htree₃ (hapart₂.moves hmoves₃') hzero₃).seq fun _ m₄ hmoves₄ => ?_
          exact Ends.ret ⟨fun _ => (hall.trans hmoves₃').trans hmoves₄, nofun⟩
      | true =>
        refine Ends.ret ⟨nofun, fun root hroot => ?_⟩
        cases hroot
        refine ⟨t₂, ⟨htree₂, ⟨fun v hv => absurd hv (Nat.not_lt_zero v), fun v _ hv => ?_,
          Nat.zero_le _⟩, ?_, ?_, fun v hle hv => ?_⟩, hall⟩
        · have hslot := lt_slots (Nat.lt_trans hv top_lt)
          rw [hentry₂ v hslot, if_neg (fun h => Nat.ne_of_lt hv h.2), hrest₁ v hslot (by omega)]
        · rw [hentry₂ TOP (by decide), if_pos ⟨rfl, rfl⟩]
        · rw [hentry₂ _ (by decide), if_neg (fun h => absurd h.2 (by decide)), hone, hall.trampoline]
          rfl
        · have htop' := top_lt
          rw [hentry₂ v hv, if_neg (fun h => by omega), hrest₁ v hv (by omega)]

/-- `proc_freepagetable` gives back the tables and the user pages. -/
theorem procFreepagetable_spec {sz : Nat} (h : UserTable m root trapframe t (pages sz))
    (ha : Apart m (spaceOwn t (pages sz))) :
    Ends E (procFreepagetable root sz)
      (fun _ m' => Moves m (spaceOwn t (pages sz)) m' fun _ => 0) m := by
  have htop := top_lt
  have htop' : TOP + 1 < VPAGES := by decide
  have hfits := h.space.fits
  have hleaf : ∀ u, TOP ≤ u → u < TOP + 2 → Leaf (entry t u) := by
    intro u hle hlt
    rcases (by omega : u = TOP ∨ u = TOP + 1) with rfl | rfl
    · rw [h.trapframe]
      exact leaf_entry _ (by decide) (by decide)
    · rw [h.trampoline]
      exact leaf_entry _ (by decide) (by decide)
  have hspace : ∀ {t₁ : Table 2}, (∀ u < pages sz, entry t₁ u = entry t u) →
      frames t₁ 0 (pages sz) = frames t 0 (pages sz) :=
    fun hsame => frames_congr fun u _ hu => hsame u (by omega)
  unfold procFreepagetable
  rw [trampoline_page, trapframe_page]
  refine (uvmunmap_leaves h.tree false htop' (fun u hle hlt => hleaf u (by omega) (by omega))
    (ha.mono fun _ => Nat.le_add_right _ _)).seq ?_
  rintro _ m₁ ⟨t₁, htree₁, hmoves₁, hentry₁⟩
  have hsame₁ : ∀ u < TOP + 1, entry t₁ u = entry t u := fun u hu => by
    rw [hentry₁ u (lt_slots (by omega)), if_neg (by omega)]
  have hm₁ : Moves m (spaceOwn t (pages sz)) m₁ (spaceOwn t₁ (pages sz)) :=
    (Moves.extend hmoves₁ fun q => (frames t 0 (pages sz)).count q).congr (fun _ => rfl) fun q => by
      rw [spaceOwn, hspace fun u hu => hsame₁ u (by omega)]
  have ha₁ := ha.moves hm₁
  refine (uvmunmap_leaves htree₁ false top_lt (fun u hle hlt => ?_)
    (ha₁.mono fun _ => Nat.le_add_right _ _)).seq ?_
  · rw [hsame₁ u hlt]
    exact hleaf u hle (by omega)
  rintro _ m₂ ⟨t₂, htree₂, hmoves₂, hentry₂⟩
  have hsame₂ : ∀ u < TOP, entry t₂ u = entry t u := fun u hu => by
    rw [hentry₂ u (lt_slots (by omega)), if_neg (by omega), hsame₁ u (by omega)]
  have hm₂ : Moves m₁ (spaceOwn t₁ (pages sz)) m₂ (spaceOwn t₂ (pages sz)) :=
    (Moves.extend hmoves₂ fun q => (frames t₁ 0 (pages sz)).count q).congr (fun _ => rfl) fun q => by
      rw [spaceOwn, hspace fun u hu => hsame₂ u (by omega), ← hspace fun u hu => hsame₁ u (by omega)]
  have ha₂ := ha₁.moves hm₂
  -- only user pages are left
  have hzero₂ : ∀ u < SLOTS, pages sz ≤ u → entry t₂ u = 0 := by
    intro u hu hle
    rw [hentry₂ u hu]
    split
    · rfl
    rw [hentry₁ u hu]
    split
    · rfl
    rcases Nat.lt_or_ge u TOP with hlt | hge
    · exact h.space.high u hle hlt
    · exact h.beyond u (by simp only [TOP] at *; omega) hu
  have hfree : ∀ {m₃ : Memory} {t₃ : Table 2}, Tree m₃ root t₃ →
      Moves m₂ (spaceOwn t₂ (pages sz)) m₃ (fun q => t₃.holds q) →
      (∀ u < SLOTS, entry t₃ u = 0) → Ends E (freewalk 3 root)
        (fun _ m' => Moves m (spaceOwn t (pages sz)) m' fun _ => 0) m₃ := by
    intro m₃ t₃ htree₃ hm₃ hzero₃
    refine (freeTables_spec htree₃ (ha₂.moves hm₃) hzero₃).mono fun _ m₄ hm₄ => ?_
    exact ((hm₁.trans hm₂).trans hm₃).trans hm₄
  unfold uvmfree
  split
  · have hunmap : Ends E (uvmunmap root (0 * PGSIZE) (pages sz) true) _ m₂ :=
      uvmunmap_leaves htree₂ true (by omega) (fun u _ hlt => by
        rw [hsame₂ u (by omega)]
        exact h.space.low u (by omega)) ha₂
    rw [Nat.zero_mul] at hunmap
    refine hunmap.seq ?_
    rintro _ m₃ ⟨t₃, htree₃, hmoves₃, hentry₃⟩
    refine hfree htree₃ hmoves₃ fun u hu => ?_
    rw [hentry₃ u hu]
    split
    · rfl
    · exact hzero₂ u hu (by omega)
  · have hpages : pages sz = 0 := by
      rw [show sz = 0 by omega]
      rfl
    refine hfree htree₂ ((Moves.refl m₂ _).congr (fun _ => rfl) fun q => ?_) fun u hu => hzero₂ u hu (by omega)
    rw [hpages]
    rfl

end Tables

/-! ## `freeproc` -/

section Free

variable {m : Memory} {s : System} {k : Task} {t : Table 2} {E : Prop}

/-- The tables of a process that may not have all of its memory. -/
structure Holding (m : Memory) (k : Task) (t : Table 2) : Prop where
  bare : k.pagetable = none → t = .absent ∧ k.sz = 0
  full : ∀ root, k.pagetable = some root → ∃ trapframe, UserTable m root trapframe t (pages k.sz.toNat)

theorem freeMemory_spec (h : Holding m k t) (ha : Apart m (taskOwn k t)) :
    Ends E (freeMemory k) (fun _ m' => Moves m (taskOwn k t) m' fun _ => 0) m := by
  -- the trapframe is given back, and the tables are as they were
  have hrest : ∀ {rest : Code Unit}, (k.pagetable = none → rest = pure ()) →
      (∀ root, k.pagetable = some root → rest = procFreepagetable root k.sz.toNat) →
      ∀ m₁, Moves m (taskOwn k t) m₁ (spaceOwn t (pages k.sz.toNat)) →
      (∀ q, 0 < t.holds q → m₁.page q = m.page q) →
      Ends E rest (fun _ m' => Moves m (taskOwn k t) m' fun _ => 0) m₁ := by
    intro rest hbare hfull m₁ hm₁ hpage
    cases hp : k.pagetable with
    | none =>
      obtain ⟨ht, hsz⟩ := h.bare hp
      rw [hbare hp]
      refine Ends.ret (hm₁.congr (fun _ => rfl) fun q => ?_)
      rw [hsz, ht]
      rfl
    | some root =>
      obtain ⟨trapframe, hu⟩ := h.full root hp
      rw [hfull root hp]
      refine (procFreepagetable_spec (hu.congr hpage hm₁.trampoline) (ha.moves hm₁)).mono ?_
      exact fun _ m' hm' => hm₁.trans hm'
  unfold freeMemory
  cases hf : k.trapframe with
  | none =>
    refine hrest (fun hp => by rw [hp]) (fun root hp => by rw [hp]) m ((Moves.refl m _).congr (fun _ => rfl) fun q => ?_) fun _ _ => rfl
    rw [taskOwn, hf]
    rfl
  | some p =>
    have hown : taskOwn k t = fun q => spaceOwn t (pages k.sz.toNat) q + single p q := by
      funext q
      rw [taskOwn, hf]
      rfl
    rw [hown] at ha hrest ⊢
    have hreal := ha.real p (by
      rw [single_self]
      omega)
    refine Ends.step (kfree_eq hreal) (hrest (fun hp => by rw [hp])
      (fun root hp => by rw [hp]) _ (Moves.freed m p _) fun q hq => ?_)
    refine (Moves.freed m p fun _ => 0).frame q ?_
    have hone := ha.one q
    simp only [spaceOwn] at hone
    omega

end Free

/-! ## Locks and slots -/

/-- The process in slot `i` is `k`; memory, `nextpid` and the locks that are held may differ too. -/
def System.build (s : System) (i : Slot) (m : Memory) (k : Task) (pid : Int32) (held : Lock → Bool) :
    System :=
  { s with mem := m, task := update s.task i k, nextpid := pid, held := held }

section Build

variable (s : System) (i : Slot) (m : Memory) (k : Task) (pid : Int32) (held : Lock → Bool)

theorem build_self (h : Lock → Bool) : s.build i m (s.task i) pid h =
    { s with mem := m, nextpid := pid, held := h } := by
  rw [System.build, update_eq_self]

@[simp] theorem build_task : (s.build i m k pid held).task i = k := by
  show update s.task i k i = k
  rw [update_self]

theorem build_task_of_ne {j : Slot} (h : j ≠ i) : (s.build i m k pid held).task j = s.task j := by
  show update s.task i k j = s.task j
  rw [update_of_ne h]

theorem modTask_build (f : Task → Task) :
    modTask i f (s.build i m k pid held) = .ok ((), s.build i m (f k) pid held) := by
  show Except.ok ((), (s.build i m k pid held).modTask i f) = _
  rw [System.modTask, build_task, System.build, System.build, update_idem]

theorem getTask_build : getTask i (s.build i m k pid held) = .ok (k, s.build i m k pid held) := by
  rw [getTask_eq, build_task]

theorem getTask_build_of_ne {j : Slot} (h : j ≠ i) : getTask j (s.build i m k pid held) =
    .ok (s.task j, s.build i m k pid held) := by
  rw [getTask_eq, build_task_of_ne s i m k pid held h]

theorem acquire_build {l : Lock} (h : held l = false) : acquire l (s.build i m k pid held) =
    .ok ((), s.build i m k pid (update held l true)) := by
  have hheld : (s.build i m k pid held).held l = false := h
  rw [acquire, hheld]
  rfl

theorem release_build {l : Lock} (h : held l = true) : release l (s.build i m k pid held) =
    .ok ((), s.build i m k pid (update held l false)) := by
  have hheld : (s.build i m k pid held).held l = true := h
  rw [release, hheld]
  rfl

theorem onMem_build {E : Prop} {α : Type} {x : Code α} {Q : α → Memory → Prop} (h : Ends E x Q m) :
    Ends E (onMem x) (fun a s' => ∃ m', s' = s.build i m' k pid held ∧ Q a m')
      (s.build i m k pid held) := by
  have hmem : Ends E x Q (s.build i m k pid held).mem := h
  exact onMem_ends hmem

theorem onMem_build_eq {α : Type} {x : Code α} {a : α} {m' : Memory} (h : x m = .ok (a, m')) :
    onMem x (s.build i m k pid held) = .ok (a, s.build i m' k pid held) := by
  have hmem : x (s.build i m k pid held).mem = .ok (a, m') := h
  rw [onMem, Exec.within, hmem]
  rfl

end Build

/-! ## `allocproc` -/

/-- A call failed: pages, references, locks and live processes are as before. -/
structure Unchanged (s s' : System) : Prop where
  free : ∀ q, s'.mem.freelist.count q = s.mem.freelist.count q
  pages : ∀ q, q ∉ s.mem.freelist → s'.mem.page q = s.mem.page q
  live : ∀ i, (s.task i).state ≠ .unused → s'.task i = s.task i
  unused : ∀ i, (s.task i).state = .unused → (s'.task i).state = .unused ∧
    (s'.task i).pagetable = none ∧ (s'.task i).trapframe = none
  fileRef : s'.fileRef = s.fileRef
  inodeRef : s'.inodeRef = s.inodeRef
  held : s'.held = s.held
  cur : s'.cur = s.cur

section Alloc

variable {s : System} {E : Prop} {i : Slot}

theorem acquire_free {l : Lock} (h : s.held l = false) : acquire l s = .ok ((), s.setHeld l true) := by
  rw [acquire, h]
  rfl

theorem release_held {l : Lock} (h : s.held l = true) : release l s = .ok ((), s.setHeld l false) := by
  rw [release, h]
  rfl

theorem setHeld_back {l : Lock} (h : s.held l = false) : (s.setHeld l true).setHeld l false = s := by
  have hheld : update s.held l false = s.held := update_eq_self_iff.2 h.symm
  rw [System.setHeld, System.setHeld, update_idem, hheld]

/-- The search ends with a locked slot that is unused, or holds nothing. -/
theorem findUnused_spec (hheld : ∀ l, s.held l = false) (l : List Slot) :
    Ends E (findUnused l) (fun r s' => (r = none → s' = s) ∧
      ∀ i, r = some i → (s.task i).state = .unused ∧ s' = s.setHeld (.proc i) true) s := by
  induction l with
  | nil => exact Ends.ret ⟨fun _ => rfl, nofun⟩
  | cons j rest ih =>
    unfold findUnused
    refine Ends.step (acquire_free (hheld _)) (Ends.step (getTask_eq _ _) ?_)
    split
    · rename_i hunused
      refine Ends.ret ⟨nofun, fun i hi => ?_⟩
      cases hi
      exact ⟨hunused, rfl⟩
    · refine Ends.step (release_held ?_) ?_
      · simp only [System.setHeld_held, update_self]
      · rw [setHeld_back (hheld _)]
        exact ih

theorem allocpid_eq (h : s.held .pid = false) :
    allocpid s = .ok (s.nextpid, { s with nextpid := s.nextpid + 1 }) := by
  have hheld : update (update s.held .pid true) .pid false = s.held := by
    rw [update_idem, update_eq_self_iff]
    exact h.symm
  rw [allocpid, bind_ok (acquire_free h), bind_ok (read_apply _ _), bind_ok (modify_apply _ _),
    bind_ok (release_held _)]
  · rw [System.setHeld, System.setHeld, hheld]
    rfl
  · simp only [System.setHeld_held, update_self]

/-- The process that `allocproc` makes in an unused slot. -/
def Task.allocated (k : Task) (pid : Int32) (root trapframe : Nat) : Task :=
  { k with
    pid := pid
    state := .used
    trapframe := some trapframe
    pagetable := some root
    prioridade := 3 }

/-- A slot without memory. -/
structure Bare (k : Task) : Prop where
  pagetable : k.pagetable = none
  trapframe : k.trapframe = none
  sz : k.sz = 0

/-- A failed call that used only the slot `i` and gave back what it took. -/
theorem unchanged_build {m : Memory} {k : Task} {pid : Int32} (hi : (s.task i).state = .unused)
    (hm : Moves s.mem (fun _ => 0) m fun _ => 0) (hk : k.state = .unused)
    (hpt : k.pagetable = none) (htf : k.trapframe = none) (hbare : ∀ j, (s.task j).state = .unused → Bare (s.task j)) :
    Unchanged s (s.build i m k pid s.held) where
  free q := hm.count q
  pages q hq := hm.frame q (by rw [List.count_eq_zero.2 hq])
  live j hj := by
    have hne : j ≠ i := fun h => hj (h ▸ hi)
    exact build_task_of_ne s i m k pid s.held hne
  unused j hj := by
    by_cases hji : j = i
    · rw [hji, build_task]
      exact ⟨hk, hpt, htf⟩
    · rw [build_task_of_ne s i m k pid s.held hji]
      exact ⟨hj, (hbare j hj).pagetable, (hbare j hj).trapframe⟩
  fileRef := rfl
  inodeRef := rfl
  held := rfl
  cur := rfl

/-- `freeproc` and `release` at the end of a failed call; the slot was locked from `held`. -/
theorem undo_build {m : Memory} {k : Task} {t : Table 2} {pid : Int32} {α : Type} {a : α}
    (hi : (s.task i).state = .unused) (hbare : ∀ j, (s.task j).state = .unused → Bare (s.task j))
    (hfree : s.held (.proc i) = false)
    (hk : Holding m k t) (ha : Apart m (taskOwn k t)) (hm : Moves s.mem (fun _ => 0) m (taskOwn k t)) :
    Ends E (do
        freeproc i
        release (.proc i)
        pure a) (fun r s' => r = a ∧ Unchanged s s')
      (s.build i m k pid (update s.held (.proc i) true)) := by
  have hmem : Ends E (freeproc i) (fun _ s' => ∃ m', Moves m (taskOwn k t) m' (fun _ => 0) ∧
      s' = s.build i m' k.freed pid (update s.held (.proc i) true))
      (s.build i m k pid (update s.held (.proc i) true)) := by
    refine Ends.step (getTask_build _ _ _ _ _ _) ((onMem_build _ _ _ _ _ _ (freeMemory_spec hk ha)).seq ?_)
    rintro _ _ ⟨m', rfl, hm'⟩
    exact Ends.of_eq (modTask_build _ _ _ _ _ _ _) ⟨m', hm', rfl⟩
  refine hmem.seq ?_
  rintro _ _ ⟨m', hm', rfl⟩
  have hback : update (update s.held (.proc i) true) (.proc i) false = s.held := by
    rw [update_idem, update_eq_self_iff]
    exact hfree.symm
  refine Ends.step (release_build _ _ _ _ _ _ (update_self _ _ _)) ?_
  rw [hback]
  exact Ends.ret ⟨rfl, unchanged_build hi (hm.trans hm') rfl rfl rfl hbare⟩

/-- There is a new process in slot `i`: it is locked and has no user memory. -/
def NewProcess (s : System) (i : Slot) (s' : System) : Prop :=
  (s.task i).state = .unused ∧ ∃ m root trapframe t,
    s' = s.build i m ((s.task i).allocated s.nextpid root trapframe) (s.nextpid + 1)
      (update s.held (.proc i) true) ∧
    UserTable m root trapframe t 0 ∧
    Moves s.mem (fun _ => 0) m fun q => t.holds q + single trapframe q

/-- What `allocproc` does. -/
def Allocs (s : System) : Option Slot → System → Prop
  | none, s' => Unchanged s s'
  | some i, s' => NewProcess s i s'

/-- The error exits of `allocproc`, where there is at most a trapframe. -/
theorem giveUp_spec {m : Memory} {k : Task} {pid : Int32} {trapframe : Option Nat}
    (hi : (s.task i).state = .unused) (hbare : ∀ j, (s.task j).state = .unused → Bare (s.task j))
    (hfree : s.held (.proc i) = false) (ha : Apart s.mem fun _ => 0)
    (hpt : k.pagetable = none) (hsz : k.sz = 0) (htf : k.trapframe = trapframe)
    (hm : Moves s.mem (fun _ => 0) m fun q => trapframe.elim 0 fun p => single p q) :
    Ends E (giveUp i) (Allocs s) (s.build i m k pid (update s.held (.proc i) true)) := by
  have hhold : Holding m k .absent :=
    ⟨fun _ => ⟨rfl, hsz⟩, fun root hroot => nomatch hpt.symm.trans hroot⟩
  have hown : taskOwn k .absent = fun q => trapframe.elim 0 fun p => single p q := by
    funext q
    rw [taskOwn, hsz, htf]
    exact Nat.zero_add _
  rw [← hown] at hm
  refine (undo_build hi hbare hfree hhold (ha.moves hm) hm).mono ?_
  rintro _ s' ⟨rfl, hs'⟩
  exact hs'

/-- `allocproc` returns a process without user memory, or everything is as it was. -/
theorem allocproc_spec (hheld : ∀ l, s.held l = false)
    (hbare : ∀ j, (s.task j).state = .unused → Bare (s.task j)) (ha : Apart s.mem fun _ => 0) :
    Ends E allocproc (Allocs s) s := by
  unfold allocproc
  refine (findUnused_spec hheld _).seq ?_
  rintro r s₁ ⟨hnone, hsome⟩
  cases r with
  | none =>
    rw [hnone rfl]
    exact Ends.ret ⟨fun _ => rfl, fun _ _ => rfl, fun _ _ => rfl,
      fun j hj => ⟨hj, (hbare j hj).pagetable, (hbare j hj).trapframe⟩, rfl, rfl, rfl, rfl⟩
  | some i =>
    obtain ⟨hi, rfl⟩ := hsome i rfl
    have hpid : (s.setHeld (.proc i) true).held .pid = false := by
      have hne : Lock.pid ≠ .proc i := nofun
      rw [System.setHeld_held, update_of_ne hne]
      exact hheld .pid
    have hstart : { s.setHeld (.proc i) true with nextpid := (s.setHeld (.proc i) true).nextpid + 1 } =
        s.build i s.mem (s.task i) (s.nextpid + 1) (update s.held (.proc i) true) := by
      rw [build_self]
      rfl
    refine Ends.step (allocpid_eq hpid) ?_
    rw [hstart]
    refine Ends.step (modTask_build _ _ _ _ _ _ _) (Ends.step (modTask_build _ _ _ _ _ _ _) ?_)
    have hb := hbare i hi
    cases hfree : s.mem.freelist with
    | nil =>
      refine Ends.step (onMem_build_eq _ _ _ _ _ _ (kalloc_nil hfree))
        (Ends.step (modTask_build _ _ _ _ _ _ _) ?_)
      exact giveUp_spec hi hbare (hheld _) ha hb.pagetable hb.sz rfl (Moves.refl _ _)
    | cons p rest =>
      refine Ends.step (onMem_build_eq _ _ _ _ _ _ (kalloc_cons hfree))
        (Ends.step (modTask_build _ _ _ _ _ _ _) ?_)
      have hm := Moves.taken hfree fun _ => 0
      have ha₁ := ha.moves hm
      have ha₀ : Apart (s.mem.taken p rest) fun _ => 0 := ha₁.mono fun _ => Nat.zero_le _
      refine (onMem_build _ _ _ _ _ _ (procPagetable_spec ha₀)).seq ?_
      rintro r _ ⟨m', rfl, hnil, hcons⟩
      refine Ends.step (modTask_build _ _ _ _ _ _ _) ?_
      cases r with
      | none =>
        have hall : Moves s.mem (fun _ => 0) m' (single p) :=
          (hm.trans ((hnil rfl).extend (single p))).congr (fun _ => rfl) fun q => (Nat.zero_add _).symm
        exact giveUp_spec hi hbare (hheld _) ha rfl hb.sz rfl hall
      | some root =>
        obtain ⟨t, hu, hm'⟩ := hcons root rfl
        refine Ends.step (modTask_build _ _ _ _ _ _ _) (Ends.ret ⟨hi, m', root, p, t, rfl, hu, ?_⟩)
        exact (hm.trans (hm'.extend (single p))).congr (fun _ => rfl) fun _ => rfl

end Alloc

end Xv6Schedulers.Vm
