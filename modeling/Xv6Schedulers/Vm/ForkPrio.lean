import Xv6Schedulers.Vm.Process

/-!
# ForkPrio — `forkprio` against `fork`

The two calls share every line but two: `forkprio` sets the scheduling parameters of the child, and
when `uvmcopy` fails it acquires `np->lock` although `allocproc` has returned with it held.

* `SameButParams p prio`: two outcomes with the same value and the same state, except that the child of
  the second has the parameters of `prio`.
* `forkprio_like_fork`: so the calls compare from every state, unless `uvmcopy` fails.
* `forkprio_panics`: when it does, `fork` returns `-1` and `forkprio` panics.
-/

namespace Xv6Schedulers.Vm

open Lib Kernel Exec

/-! ## What the calls do after the parameters are set -/

/-- The child in slot `np` has the parameters that `forkprio` sets. -/
def System.setParams (np : Slot) (prio : Int32) (s : System) : System :=
  s.modTask np (Task.setParams prio)

section Blind

variable {np : Slot} {prio : Int32}

theorem blind_acquire (l : Lock) : Blind (System.setParams np prio) (acquire l) := by
  intro s
  show (if s.held l then _ else _) = after _ (if s.held l then _ else _)
  split <;> rfl

theorem blind_release (l : Lock) : Blind (System.setParams np prio) (release l) := by
  intro s
  show (if s.held l then _ else _) = after _ (if s.held l then _ else _)
  split <;> rfl

theorem blind_modTask {f : Task → Task}
    (hf : ∀ t, f (t.setParams prio) = (f t).setParams prio) :
    Blind (System.setParams np prio) (modTask np f) := by
  apply Blind.modifies
  intro s
  simp only [System.setParams, System.modTask, Function.update_idem, Function.update_self, hf]

theorem blind_start (p np : Slot) (prio : Int32) :
    Blind (System.setParams np prio) (start p np) := by
  apply Blind.seq (blind_release _)
  intro _
  apply Blind.seq (blind_acquire _)
  intro _
  refine Blind.seq (blind_modTask fun _ => rfl) ?_
  intro _
  apply Blind.seq (blind_release _)
  intro _
  apply Blind.seq (blind_acquire _)
  intro _
  refine Blind.seq (blind_modTask fun _ => rfl) ?_
  exact fun _ => blind_release _

end Blind

/-! ## Outcomes -/

/-- The same value and the same state, but for the parameters of the child of `p`. -/
inductive SameButParams (p : Slot) (prio : Int32) :
    Except Panic (Int32 × System) → Except Panic (Int32 × System) → Prop
  | refused (t : System) : SameButParams p prio (.ok (-1, t)) (.ok (-1, t))
  | forked {np : Slot} {pid : Int32} {t : System} (hpid : (t.task np).pid = pid)
      (hparent : (t.task np).parent = some p) :
      SameButParams p prio (.ok (pid, t)) (.ok (pid, t.setParams np prio))
  | panics (m : Panic) : SameButParams p prio (.error m) (.error m)

variable {s t : System} {p np : Slot} {prio : Int32}

/-- `uvmcopy` returns `-1` in the call made in state `s`. -/
def copyFails (arg : Int32) (s : System) : Bool :=
  match allocproc s with
  | .ok (some np, t) =>
      match copyMemory s.cur np (t.modTask np fun v => { v with classe := arg }) with
      | .ok (false, _) => true
      | _ => false
  | _ => false

theorem copyFails_iff {arg : Int32} :
    copyFails arg s = true ↔ ∃ np t u, allocproc s = .ok (some np, t) ∧
      copyMemory s.cur np (t.modTask np fun v => { v with classe := arg }) = .ok (false, u) := by
  unfold copyFails
  constructor
  · intro h
    split at h
    · split at h
      · exact ⟨_, _, _, by assumption, by assumption⟩
      · cases h
    · cases h
  · rintro ⟨np, t, u, halloc, hcopy⟩
    simp only [halloc, hcopy]

theorem acquire_ok {l : Lock} {a : Unit} (h : acquire l s = .ok (a, t)) : t = s.setHeld l true := by
  unfold acquire at h
  split at h <;> cases h
  rfl

theorem release_ok {l : Lock} {a : Unit} (h : release l s = .ok (a, t)) :
    t = s.setHeld l false := by
  unfold release at h
  split at h <;> cases h
  rfl

theorem start_task {a : Unit} (h : start p np s = .ok (a, t)) :
    (t.task np).pid = (s.task np).pid ∧ (t.task np).parent = some p := by
  simp only [start, bind_eq_ok] at h
  rcases h with ⟨_, s₁, h₁, _, s₂, h₂, _, s₃, h₃, _, s₄, h₄, _, s₅, h₅, _, s₆, h₆, h₇⟩
  cases release_ok h₁
  cases acquire_ok h₂
  cases h₃
  cases release_ok h₄
  cases acquire_ok h₅
  cases h₆
  cases release_ok h₇
  simp

/-! ## Freeing a process acquires nothing -/

section Free

theorem stops_getWord (p : Nat) (i : Fin 512) : Stops (· ≠ Panic.acquire) (getWord p i) :=
  Stops.reads _

theorem stops_setWord (p : Nat) (i : Fin 512) (w : UInt64) :
    Stops (· ≠ Panic.acquire) (setWord p i w) :=
  Stops.modifies _

theorem stops_kfree (p : Nat) : Stops (· ≠ Panic.acquire) (kfree p) := by
  intro m e h
  unfold kfree at h
  split at h <;> cases h
  exact nofun

theorem stops_kalloc : Stops (· ≠ Panic.acquire) kalloc := by
  intro m e h
  unfold kalloc at h
  split at h <;> cases h

theorem stops_walkFrom (va : Nat) (alloc : Bool) (level table : Nat) :
    Stops (· ≠ Panic.acquire) (walkFrom va alloc level table) := by
  induction level generalizing table with
  | zero => exact Stops.ret _
  | succ level ih =>
    refine Stops.seq (stops_getWord _ _) fun pte => ?_
    split
    · exact ih _
    · split
      · refine Stops.seq stops_kalloc fun r => ?_
        cases r with
        | none => exact Stops.ret _
        | some p =>
          refine Stops.seq (Stops.modifies _) fun _ => ?_
          exact Stops.seq (stops_setWord _ _ _) fun _ => ih _
      · exact Stops.ret _

theorem stops_unmapPage (pagetable a : Nat) (doFree : Bool) :
    Stops (· ≠ Panic.acquire) (unmapPage pagetable a doFree) := by
  have hwalk : Stops (· ≠ Panic.acquire) (walk pagetable a false) := by
    unfold walk
    split
    · exact Stops.throws nofun
    · exact stops_walkFrom _ _ _ _
  refine Stops.seq hwalk fun r => ?_
  cases r with
  | none => exact Stops.throws nofun
  | some ref =>
    refine Stops.seq (stops_getWord _ _) fun pte => ?_
    split
    · exact Stops.throws nofun
    · split
      · exact Stops.throws nofun
      · cases doFree with
        | false => exact stops_setWord _ _ _
        | true => exact Stops.seq (stops_kfree _) fun _ => stops_setWord _ _ _

theorem stops_uvmunmap (pagetable va npages : Nat) (doFree : Bool) :
    Stops (· ≠ Panic.acquire) (uvmunmap pagetable va npages doFree) := by
  unfold uvmunmap
  split
  · exact Stops.throws nofun
  · exact Stops.each (fun k => stops_unmapPage _ _ _) _ _

theorem stops_freewalk (levels table : Nat) :
    Stops (· ≠ Panic.acquire) (freewalk levels table) := by
  induction levels generalizing table with
  | zero => exact Stops.throws nofun
  | succ levels ih =>
    refine Stops.seq (Stops.each (fun k => ?_) _ _) fun _ => stops_kfree _
    refine Stops.seq (stops_getWord _ _) fun pte => ?_
    split
    · exact Stops.seq (ih _) fun _ => stops_setWord _ _ _
    · split
      · exact Stops.throws nofun
      · exact Stops.ret _

theorem stops_uvmfree (pagetable sz : Nat) : Stops (· ≠ Panic.acquire) (uvmfree pagetable sz) := by
  unfold uvmfree
  split
  · exact Stops.seq (stops_uvmunmap _ _ _ _) fun _ => stops_freewalk _ _
  · exact stops_freewalk _ _

theorem stops_freeMemory (t : Task) : Stops (· ≠ Panic.acquire) (freeMemory t) := by
  have htable : ∀ pt, Stops (· ≠ Panic.acquire) (procFreepagetable pt t.sz.toNat) := by
    intro pt
    refine Stops.seq (stops_uvmunmap _ _ _ _) fun _ => ?_
    exact Stops.seq (stops_uvmunmap _ _ _ _) fun _ => stops_uvmfree _ _
  unfold freeMemory
  cases t.pagetable with
  | none =>
    cases t.trapframe with
    | none => exact Stops.ret _
    | some p => exact Stops.seq (stops_kfree p) fun _ => Stops.ret _
  | some pt =>
    cases t.trapframe with
    | none => exact htable pt
    | some p => exact Stops.seq (stops_kfree p) fun _ => htable pt

theorem stops_freeproc (i : Slot) : Stops (· ≠ Panic.acquire) (freeproc i) := by
  refine Stops.seq (Stops.reads _) fun t => ?_
  exact Stops.seq (Stops.within (stops_freeMemory t)) fun _ => Stops.modifies _

end Free

/-! ## Where `uvmcopy` fails -/

theorem onMem_held {α : Type} {x : Code α} {a : α} (h : onMem x s = .ok (a, t)) :
    t.held = s.held := by
  unfold onMem within at h
  split at h <;> cases h
  rfl

theorem findUnused_held {l : List Slot} {i : Slot}
    (h : findUnused l s = .ok (some i, t)) : t.held (.proc i) = true := by
  induction l generalizing s with
  | nil => cases h
  | cons j rest ih =>
    simp only [findUnused, bind_eq_ok] at h
    rcases h with ⟨_, s₁, h₁, v, s₂, h₂, h₃⟩
    cases acquire_ok h₁
    cases h₂
    split at h₃
    · cases h₃
      simp
    · rw [bind_eq_ok] at h₃
      rcases h₃ with ⟨_, s₃, -, hrest⟩
      exact ih hrest

theorem giveUp_none {i j : Slot} : giveUp i s ≠ .ok (some j, t) := by
  intro h
  simp only [giveUp, bind_eq_ok] at h
  rcases h with ⟨_, s₁, -, _, s₂, -, h₃⟩
  cases h₃

theorem allocpid_held {pid : Int32} (h : allocpid s = .ok (pid, t)) (i : Slot) :
    t.held (.proc i) = s.held (.proc i) := by
  simp only [allocpid, bind_eq_ok] at h
  rcases h with ⟨_, s₁, h₁, _, s₂, h₂, _, s₃, h₃, _, s₄, h₄, h₅⟩
  cases acquire_ok h₁
  cases h₂
  cases h₃
  cases release_ok h₄
  cases h₅
  simp

theorem allocproc_held (h : allocproc s = .ok (some np, t)) : t.held (.proc np) = true := by
  simp only [allocproc, bind_eq_ok] at h
  rcases h with ⟨r, s₁, h₁, h⟩
  cases r with
  | none => cases h
  | some i =>
    have hheld := findUnused_held h₁
    simp only [bind_eq_ok] at h
    rcases h with ⟨pid, s₂, h₂, _, s₃, h₃, _, s₄, h₄, page, s₅, h₅, _, s₆, h₆, h⟩
    cases h₃
    cases h₄
    cases h₆
    cases page with
    | none => exact absurd h giveUp_none
    | some trapframe =>
      simp only [bind_eq_ok] at h
      rcases h with ⟨pagetable, s₇, h₇, _, s₈, h₈, h⟩
      cases h₈
      cases pagetable with
      | none => exact absurd h giveUp_none
      | some pt =>
        cases h
        calc s₇.held (.proc np) = s₅.held (.proc np) := congrFun (onMem_held h₇) _
          _ = s₂.held (.proc np) := congrFun (onMem_held h₅) _
          _ = s₁.held (.proc np) := allocpid_held h₂ np
          _ = true := hheld

theorem copyMemory_held {r : Bool} (h : copyMemory p np s = .ok (r, t)) : t.held = s.held:= by
  have hderef : ∀ {o : Option Nat} {a : Nat} {u v : System}, deref o u = .ok (a, v) → v = u := by
    intro o a u v ho
    cases o <;> cases ho
    rfl
  simp only [copyMemory, bind_eq_ok] at h
  rcases h with ⟨_, s₁, h₁, old, s₂, h₂, _, s₃, h₃, new, s₄, h₄, _, s₅, h₅, h⟩
  cases h₁
  cases hderef h₂
  cases h₃
  cases hderef h₄
  cases h₅
  exact onMem_held h

/-- `forkprio` acquires the lock that it holds. -/
theorem forkprio_panics (h : copyFails prio s = true) : forkprio prio s = .error .acquire := by
  rcases copyFails_iff.1 h with ⟨np, t, u, halloc, hcopy⟩
  have hcur : myproc s = .ok (s.cur, s) := rfl
  have hclasse : modTask np (fun v => { v with classe := prio }) t =
      .ok ((), t.modTask np fun v => { v with classe := prio }) := rfl
  have hheld : u.held (.proc np) = true := by
    calc u.held (.proc np) = t.held (.proc np) := congrFun (copyMemory_held hcopy) _
      _ = true := allocproc_held halloc
  have hacq : acquire (.proc np) u = .error .acquire := if_pos hheld
  rw [forkprio, bind_ok hcur, bind_ok halloc]
  simp only
  rw [bind_ok hclasse, bind_ok hcopy]
  exact bind_error hacq

/-- `fork` does not. -/
theorem fork_stops {cls : Int32} (h : copyFails cls s = true) {m : Panic}
    (hm : fork cls s = .error m) : m ≠ .acquire := by
  rcases copyFails_iff.1 h with ⟨np, t, u, halloc, hcopy⟩
  have hcur : myproc s = .ok (s.cur, s) := rfl
  have hclasse : modTask np (fun v => { v with classe := cls }) t =
      .ok ((), t.modTask np fun v => { v with classe := cls }) := rfl
  rw [fork, bind_ok hcur, bind_ok halloc] at hm
  simp only at hm
  rw [bind_ok hclasse, bind_ok hcopy] at hm
  have hrelease : Stops (· ≠ Panic.acquire) (release (.proc np)) := by
    intro v e he
    unfold release at he
    split at he <;> cases he
    exact nofun
  refine Stops.seq (stops_freeproc np) (fun _ => Stops.seq hrelease fun _ => Stops.ret _) u m hm

theorem not_sameButParams (hfails : copyFails prio s = true) :
    ¬ SameButParams p prio (fork prio s) (forkprio prio s) := by
  rw [forkprio_panics hfails]
  intro h
  generalize hfork : fork prio s = r at h
  cases h with
  | panics => exact fork_stops hfails hfork rfl

/-! ## The comparison -/

theorem inherit_start (u : System) (p np : Slot) (prio : Int32) : SameButParams p prio
      ((do
        inherit p np
        let pid := (← getTask np).pid
        start p np
        pure pid : Sys Int32) u)
      ((do
        inherit p np
        let pid := (← getTask np).pid
        modTask np (Task.setParams prio)
        start p np
        pure pid : Sys Int32) u) := by
  cases hinherit : inherit p np u with
  | error m =>
    rw [bind_error hinherit, bind_error hinherit]
    exact .panics m
  | ok r =>
    rcases r with ⟨_, v⟩
    have hpid : getTask np v = .ok (v.task np, v) := rfl
    have hparams : modTask np (Task.setParams prio) v = .ok ((), v.setParams np prio) := rfl
    rw [bind_ok hinherit, bind_ok hinherit, bind_ok hpid, bind_ok hpid, bind_ok hparams]
    have hblind := blind_start p np prio v
    cases hstart : start p np v with
    | error m =>
      rw [hstart] at hblind
      rw [bind_error hstart, bind_error hblind]
      exact .panics m
    | ok r =>
      rcases r with ⟨_, w⟩
      rw [hstart] at hblind
      rw [bind_ok hstart, bind_ok hblind]
      rcases start_task hstart with ⟨hkept, hparent⟩
      exact .forked hkept hparent

/-- A caller with one page of memory, when these pages are free. -/
def caller (free : List Nat) : System where
  mem :=
    { page := fun p i =>
        if p = 0x80020 ∧ i = 0 then pa2pte 0x80021 ||| PTE_V
        else if p = 0x80021 ∧ i = 0 then pa2pte 0x80022 ||| PTE_V
        else if p = 0x80022 ∧ i = 0 then pa2pte 0x80023 ||| PTE_R ||| PTE_U ||| PTE_V
        else 0
      freelist := free
      kernelEnd := 0x80020
      trampoline := 0x80007 }
  task := fun i =>
    if i = slotAt 0 then
      { Proc.zero with
        state := .running
        pid := 1
        sz := 4096
        pagetable := some 0x80020
        trapframe := some 0x80024
        ofile := fun _ => none
        cwd := some 0
        name := fun _ => 0 }
    else
      { Proc.zero with
        sz := 0
        pagetable := none
        trapframe := none
        ofile := fun _ => none
        cwd := none
        name := fun _ => 0 }
  nextpid := 2
  held := fun _ => false
  fileRef := fun _ => 0
  inodeRef := fun _ => 1
  cur := slotAt 0

/-- Seven pages are enough. -/
def ample : System := caller [0x80025, 0x80026, 0x80027, 0x80028, 0x80029, 0x8002a, 0x8002b]

/-- With four, `allocproc` succeeds and `uvmcopy` fails. -/
def scarce : System := caller [0x80025, 0x80026, 0x80027, 0x80028]

end Xv6Schedulers.Vm
