import Xv6Schedulers.Vm.Clone
import Xv6Schedulers.Vm.Lifecycle

/-!
# Fork — `fork` makes a whole process or changes nothing

* `Ready s T r`: a kernel state in which a process can call `fork`.
* `Forked s r np s'`: the child in slot `np` is a copy of the caller.
* `fork_whole`: `fork` returns the new pid with a whole child, or `-1` with everything as it was.
* `fork_wrapped`: after `nextpid` has wrapped, the pid of a new child is negative.
-/

namespace Xv6Schedulers.Vm

open Lib Exec Kernel Function
open Fs (Entry NFILE NOFILE)

/-! ## Open files -/

/-- How many of the first `j` descriptors are the file `f`. -/
def opened (k : Task) (f : Fin NFILE) (j : Nat) : Nat :=
  ∑ d ∈ Finset.range j, if k.ofile (Fin.ofNat NOFILE d) = some f then 1 else 0

/-- How many descriptors are the file `f`. -/
def descriptors (k : Task) (f : Fin NFILE) : Nat :=
  (Finset.univ.filter fun d => k.ofile d = some f).card

/-- The references that descriptors of all processes and one call of each may hold. -/
def MAXREF : Nat := NPROC * (NOFILE + 1)

theorem opened_succ (k : Task) (f : Fin NFILE) (j : Nat) : opened k f (j + 1) =
    opened k f j + if k.ofile (Fin.ofNat NOFILE j) = some f then 1 else 0 :=
  Finset.sum_range_succ _ _

theorem opened_le (k : Task) (f : Fin NFILE) (j : Nat) : opened k f j ≤ j := by
  induction j with
  | zero => exact Nat.le_refl 0
  | succ j ih =>
    rw [opened_succ]
    split <;> omega

theorem opened_all (k : Task) (f : Fin NFILE) : opened k f NOFILE = descriptors k f := by
  rw [opened, descriptors, Finset.card_filter, Finset.sum_range]
  refine Finset.sum_congr rfl fun d _ => ?_
  rw [Fin.ofNat_val_eq_self]

theorem toInt_succ {c : Int32} (h : c.toInt < 2 ^ 30) (hpos : 0 ≤ c.toInt) :
    (c + 1).toInt = c.toInt + 1 := by
  rw [Int32.toInt_add]
  have hone : (1 : Int32).toInt = 1 := rfl
  rw [hone]
  exact Int.bmod_eq_of_le (by omega) (by omega)

/-! ## The steps of `fork` -/

section Steps

variable {s : System} {m : Memory} {k : Task} {pid : Int32} {held : Lock → Bool} {p np : Slot} {E : Prop}

/-- The first `j` descriptors of the child. -/
def firstFiles (s : System) (p : Slot) (j : Nat) : Fin NOFILE → Option (Fin NFILE) :=
  fun d => if d.val < j then (s.task p).ofile d else none

/-- The child after `j` rounds of the loop over the descriptors. -/
def Dups (s : System) (p np : Slot) (m : Memory) (k : Task) (pid : Int32) (held : Lock → Bool) (j : Nat)
    (s' : System) : Prop :=
  ∃ F : Fin NFILE → Int32, (∀ f, (F f).toInt = (s.fileRef f).toInt + opened (s.task p) f j) ∧
    s' = { s with fileRef := F }.build np m { k with ofile := firstFiles s p j } pid held

theorem firstFiles_succ {j : Nat} (hj : j < NOFILE) : firstFiles s p (j + 1) =
    update (firstFiles s p j) (Fin.ofNat NOFILE j) ((s.task p).ofile (Fin.ofNat NOFILE j)) := by
  have hval : (Fin.ofNat NOFILE j).val = j := Nat.mod_eq_of_lt hj
  funext d
  by_cases hd : d = Fin.ofNat NOFILE j
  · rw [hd, update_self, firstFiles, if_pos (by omega)]
  · have hne : d.val ≠ j := fun h => hd (Fin.ext (h.trans hval.symm))
    rw [update_of_ne hd, firstFiles, firstFiles]
    by_cases hlt : d.val < j
    · rw [if_pos hlt, if_pos (by omega)]
    · rw [if_neg hlt, if_neg (by omega)]

/-- An open file has a reference, and far fewer than an `int` can count. -/
def Counted (s : System) (p : Slot) : Prop :=
  ∀ d f, (s.task p).ofile d = some f → 1 ≤ (s.fileRef f).toInt ∧ (s.fileRef f).toInt ≤ MAXREF

theorem dupFile_spec (hne : p ≠ np) (hc : Counted s p) {j : Nat} (hj : j < NOFILE) {s' : System}
    (h : Dups s p np m k pid held j s') :
    Ends E (dupFile p np (Fin.ofNat NOFILE j)) (fun _ s' => Dups s p np m k pid held (j + 1) s') s' := by
  obtain ⟨F, hF, rfl⟩ := h
  have hmax : (MAXREF : Int) = 1088 := rfl
  have hbuild : ∀ (F : Fin NFILE → Int32) (k : Task),
      ({ s with fileRef := F }.build np m k pid held).task p = s.task p :=
    fun F k => build_task_of_ne _ _ _ _ _ _ hne
  unfold dupFile
  refine Ends.step (getTask_eq _ _) ?_
  rw [hbuild]
  cases hfile : (s.task p).ofile (Fin.ofNat NOFILE j) with
  | none =>
    refine Ends.ret ⟨F, fun f => ?_, ?_⟩
    · rw [hF, opened_succ, hfile, if_neg nofun]
      rfl
    · have hsame : firstFiles s p (j + 1) = firstFiles s p j := by
        rw [firstFiles_succ hj, hfile, update_eq_self_iff, firstFiles,
          if_neg (by rw [show (Fin.ofNat NOFILE j).val = j from Nat.mod_eq_of_lt hj]; omega)]
      rw [hsame]
  | some f =>
    obtain ⟨hpos, hle⟩ := hc _ f hfile
    have hcount := hF f
    have hopened := opened_le (s.task p) f j
    have hlim : NOFILE = 16 := rfl
    have hdup : filedup f ({ s with fileRef := F }.build np m { k with ofile := firstFiles s p j } pid held) =
        .ok ((), { s with fileRef := update F f (F f + 1) }.build np m
          { k with ofile := firstFiles s p j } pid held) := by
      refine if_neg fun hlt => ?_
      have hlt' : (F f).toInt < (1 : Int32).toInt := Int32.lt_iff_toInt_lt.1 hlt
      have hone : (1 : Int32).toInt = 1 := rfl
      omega
    refine Ends.step hdup (Ends.of_eq (modTask_build _ _ _ _ _ _ _) 
      ⟨update F f (F f + 1), fun g => ?_, ?_⟩)
    · rw [opened_succ, hfile]
      by_cases hg : g = f
      · rw [hg, update_self, if_pos rfl, toInt_succ (by omega) (by omega), hcount]
        omega
      · rw [update_of_ne hg, if_neg fun h => hg (Option.some.inj h).symm, hF g]
        rfl
    · rw [firstFiles_succ hj, hfile]

/-- The words that the child gets of the trapframe of its parent. -/
def Memory.copyTrapframe (m : Memory) (src dst : Nat) : Memory :=
  (m.setPage dst fun i => if i.val < trapframeWords then m.page src i else m.page dst i).setWord dst
    a0Word 0

theorem copyTrapframe_word (m : Memory) (src dst : Nat) {i : Fin 512} (hi : i.val < trapframeWords) :
    (m.copyTrapframe src dst).page dst i = if i = a0Word then 0 else m.page src i := by
  rw [Memory.copyTrapframe, Memory.setWord, Memory.setPage, Memory.setPage]
  simp only [update_self]
  by_cases h : i = a0Word
  · rw [h, update_self, if_pos rfl]
  · rw [update_of_ne h, if_neg h, if_pos hi]

theorem copyTrapframe_page {q : Nat} (src : Nat) {dst : Nat} (h : q ≠ dst) :
    (m.copyTrapframe src dst).page q = m.page q := by
  show update (update m.page dst _) dst _ q = m.page q
  rw [update_of_ne h, update_of_ne h]

theorem moves_copyTrapframe {own : Owners} (src : Nat) {dst : Nat}
    (h : 0 < m.freelist.count dst + own dst) : Moves m own (m.copyTrapframe src dst) own := by
  have hfirst : Moves m own
      (m.setPage dst fun i => if i.val < trapframeWords then m.page src i else m.page dst i) own :=
    Moves.setPage h _
  refine hfirst.trans ?_
  unfold Memory.copyTrapframe Memory.setWord
  refine Moves.setPage ?_ _
  exact h

/-- The child after `inherit`. -/
def Task.inherited (k parent : Task) : Task :=
  { k with
    sz := parent.sz
    ofile := parent.ofile
    cwd := parent.cwd
    name := safestrcpy k.name parent.name }

theorem copyTrapframe_spec (hne : p ≠ np) {src dst : Nat} (hsrc : (s.task p).trapframe = some src)
    (hdst : k.trapframe = some dst) : copyTrapframe p np (s.build np m k pid held) =
      .ok ((), s.build np (m.copyTrapframe src dst) k pid held) := by
  rw [copyTrapframe, bind_ok (getTask_build_of_ne _ _ _ _ _ _ hne), hsrc]
  rw [deref, bind_ok (pure_apply _ _), bind_ok (getTask_build _ _ _ _ _ _), hdst]
  rw [deref, bind_ok (pure_apply _ _), bind_ok (onMem_build_eq _ _ _ _ _ _ (modify_apply _ _))]
  exact onMem_build_eq _ _ _ _ _ _ (modify_apply _ _)

theorem inherit_spec (hne : p ≠ np) (hc : Counted s p) {src dst : Nat}
    (hsrc : (s.task p).trapframe = some src) (hdst : k.trapframe = some dst) {e : Entry}
    (hcwd : (s.task p).cwd = some e) (hofile : ∀ d, k.ofile d = none) :
    Ends E (inherit p np) (fun _ s' => ∃ F : Fin NFILE → Int32,
      (∀ f, (F f).toInt = (s.fileRef f).toInt + descriptors (s.task p) f) ∧
      s' = { s with
          fileRef := F
          inodeRef := update s.inodeRef e (s.inodeRef e + 1) }.build np
        (m.copyTrapframe src dst) (k.inherited (s.task p)) pid held) (s.build np m k pid held) := by
  unfold inherit
  refine Ends.step (getTask_build_of_ne _ _ _ _ _ _ hne) (Ends.step (modTask_build _ _ _ _ _ _ _)
    (Ends.step (copyTrapframe_spec hne hsrc hdst) ?_))
  have hstart : Dups s p np (m.copyTrapframe src dst) { k with sz := (s.task p).sz } pid held 0
      (s.build np (m.copyTrapframe src dst) { k with sz := (s.task p).sz } pid held) := by
    have hnone : k.ofile = firstFiles s p 0 := funext hofile
    refine ⟨s.fileRef, fun f => (Int.add_zero _).symm, ?_⟩
    rw [← hnone]
  refine (Ends.loop (Dups s p np _ _ pid held) hstart fun j s' _ hj hd =>
    dupFile_spec hne hc (by omega) hd).seq ?_
  rintro _ _ ⟨F, hF, rfl⟩
  have hall : firstFiles s p (0 + NOFILE) = (s.task p).ofile :=
    funext fun d => if_pos (by rw [Nat.zero_add]; exact d.isLt)
  rw [hall]
  refine Ends.step (a := s.task p) (getTask_build_of_ne _ _ _ _ _ _ hne) ?_
  rw [hcwd]
  refine Ends.step (pure_apply _ _) (Ends.step (t := { s with
    fileRef := F
    inodeRef := update s.inodeRef e (s.inodeRef e + 1) }.build np _ _ pid held) rfl ?_)
  refine Ends.step (modTask_build _ _ _ _ _ _ _) (Ends.step (a := s.task p)
    (getTask_build_of_ne _ _ _ _ _ _ hne) (Ends.of_eq (modTask_build _ _ _ _ _ _ _) ⟨F, fun f => ?_, ?_⟩))
  · rw [hF, Nat.zero_add, opened_all]
  · rw [Task.inherited, hcwd]
    rfl

/-- From `release(&np->lock)` to the end of `fork`. -/
theorem start_spec (hheld : ∀ l, s.held l = false) :
    start p np (s.build np m k pid (update s.held (.proc np) true)) =
      .ok ((), s.build np m { k with parent := some p, state := .runnable } pid s.held) := by
  have hback : ∀ l, update (update s.held l true) l false = s.held := by
    intro l
    rw [update_idem, update_eq_self_iff]
    exact (hheld l).symm
  have hset : ∀ l, update s.held l true l = true := fun l => update_self l _ _
  rw [start, bind_ok (release_build _ _ _ _ _ _ (hset _)), hback,
    bind_ok (acquire_build _ _ _ _ _ _ (hheld .wait)), bind_ok (modTask_build _ _ _ _ _ _ _),
    bind_ok (release_build _ _ _ _ _ _ (hset _)), hback,
    bind_ok (acquire_build _ _ _ _ _ _ (hheld (.proc np))), bind_ok (modTask_build _ _ _ _ _ _ _),
    release_build _ _ _ _ _ _ (hset _), hback]

end Steps

/-! ## `fork` -/

/-- A process runs and no spinlock is held; `T` are the page tables and `r` is what else holds pages. -/
structure Ready (s : System) (T : Slot → Table 2) (r : Owners) : Prop where
  memories : Memories s T r
  unused : ∀ i, (s.task i).state = .unused →
    (s.task i).pagetable = none ∧ ∀ d, (s.task i).ofile d = none
  running : (s.task s.cur).state ≠ .unused
  memory : (s.task s.cur).pagetable ≠ none
  cwd : (s.task s.cur).cwd ≠ none
  files : Counted s s.cur
  held : ∀ l, s.held l = false

/-- The process in slot `np` is a new child of the caller. -/
structure Forked (s : System) (r : Owners) (np : Slot) (s' : System) : Prop where
  fresh : (s.task np).state = .unused
  parent : (s'.task np).parent = some s.cur
  state : (s'.task np).state = .runnable
  sz : (s'.task np).sz = (s.task s.cur).sz
  ofile : (s'.task np).ofile = (s.task s.cur).ofile
  cwd : (s'.task np).cwd = (s.task s.cur).cwd
  /-- The user pages have the same flags and bytes. -/
  memory : ∃ old new, (s.task s.cur).pagetable = some old ∧ (s'.task np).pagetable = some new ∧
    ∀ a, a / PGSIZE < pages (s.task s.cur).sz.toNat →
      pteFlags (leafPte s'.mem new a) = pteFlags (leafPte s.mem old a) ∧
      s'.mem.page (frame s'.mem new a) = s.mem.page (frame s.mem old a)
  /-- The saved registers are the same but for `a0`. -/
  trapframe : ∃ old new, (s.task s.cur).trapframe = some old ∧ (s'.task np).trapframe = some new ∧
    ∀ i : Fin 512, i.val < trapframeWords →
      s'.mem.page new i = if i = a0Word then 0 else s.mem.page old i
  fileRef : ∀ f, (s'.fileRef f).toInt = (s.fileRef f).toInt + descriptors (s.task s.cur) f
  inodeRef : ∃ e, (s.task s.cur).cwd = some e ∧ s'.inodeRef = update s.inodeRef e (s.inodeRef e + 1)
  /-- All processes have their memory, the new one in pages that were free. -/
  memories : ∃ T, Memories s' T r
  others : ∀ i, i ≠ np → s'.task i = s.task i
  kept : ∀ q, q ∉ s.mem.freelist → s'.mem.page q = s.mem.page q
  held : s'.held = s.held

section Fork

variable {s : System} {T : Slot → Table 2} {r : Owners} {E : Prop} {cls : Int32}

theorem Ready.bare (h : Ready s T r) {i : Slot} (hi : (s.task i).state = .unused) :
    Bare (s.task i) ∧ T i = .absent := by
  cases h.memories.task i with
  | bare hp hf hsz ht => exact ⟨⟨hp, hf, hsz⟩, ht⟩
  | full hp hf hu => exact nomatch hp.symm.trans (h.unused i hi).1

theorem Ready.own (h : Ready s T r) {i : Slot} (hi : (s.task i).state = .unused) :
    taskOwn (s.task i) (T i) = fun _ => 0 := by
  obtain ⟨hb, ht⟩ := h.bare hi
  funext q
  rw [taskOwn, ht, hb.sz, hb.trapframe]
  rfl

/-- `uvmcopy(p->pagetable, np->pagetable, p->sz)`. -/
theorem copyMemory_spec {np : Slot} {m : Memory} {k : Task} {pid : Int32} {held : Lock → Bool}
    {old new : Nat} {told t : Table 2} (hne : s.cur ≠ np) (hold : (s.task s.cur).pagetable = some old)
    (hnew : k.pagetable = some new) (htold : Tree m old told)
    (hs : Space told (pages (s.task s.cur).sz.toNat)) (ht : Tree m new t) (hempty : Space t 0)
    (ha : Apart m fun q => t.holds q + spaceOwn told (pages (s.task s.cur).sz.toNat) q) :
    Ends E (copyMemory s.cur np) (fun b s' => ∃ m', s' = s.build np m' k pid held ∧
      ∃ t', Copied m new told t (pages (s.task s.cur).sz.toNat) b m' t') (s.build np m k pid held) := by
  unfold copyMemory
  refine Ends.step (getTask_build_of_ne _ _ _ _ _ _ hne) ?_
  rw [hold]
  refine Ends.step (pure_apply _ _) (Ends.step (getTask_build _ _ _ _ _ _) ?_)
  rw [hnew]
  refine Ends.step (pure_apply _ _) (Ends.step (getTask_build_of_ne _ _ _ _ _ _ hne) ?_)
  exact onMem_build _ _ _ _ _ _ (uvmcopy_spec htold hs ht hempty ha)

/-- What the processes and others hold. -/
def allOwn (s : System) (T : Slot → Table 2) (r : Owners) : Owners :=
  fun q => ∑ i, taskOwn (s.task i) (T i) q + r q

theorem taskOwn_le_all (s : System) (T : Slot → Table 2) (r : Owners) (i : Slot) (q : Nat) :
    taskOwn (s.task i) (T i) q ≤ allOwn s T r q := by
  rw [allOwn, sum_taskOwn s T r i q]
  exact Nat.le_add_right _ _

theorem spaceOwn_le_all (s : System) (T : Slot → Table 2) (r : Owners) (i : Slot) (q : Nat) :
    spaceOwn (T i) (pages (s.task i).sz.toNat) q ≤ allOwn s T r q :=
  Nat.le_trans (Nat.le_add_right _ _) (taskOwn_le_all s T r i q)

section Child

variable {m : Memory} {root tf old src : Nat} {t : Table 2} {np : Slot}

theorem Ready.apart (h : Ready s T r)
    (hm : Moves s.mem (fun _ => 0) m fun q => t.holds q + single tf q) :
    (Apart m fun q => t.holds q + single tf q + allOwn s T r q) ∧
      ∀ q, 0 < allOwn s T r q → m.page q = s.mem.page q := by
  have ha : Apart s.mem fun q => 0 + allOwn s T r q :=
    h.memories.apart.mono fun q => Nat.le_of_eq (Nat.zero_add _)
  exact ⟨ha.moves (hm.extend _), fun q hq => hm.keeps ha hq⟩

theorem Ready.parent (h : Ready s T r) (hold : (s.task s.cur).pagetable = some old)
    (hm : Moves s.mem (fun _ => 0) m fun q => t.holds q + single tf q) :
    ∃ src, (s.task s.cur).trapframe = some src ∧ Tree s.mem old (T s.cur) ∧ Tree m old (T s.cur) ∧
      Space (T s.cur) (pages (s.task s.cur).sz.toNat) := by
  obtain ⟨src, hsrc, hu⟩ := (h.memories.task s.cur).space hold
  refine ⟨src, hsrc, hu.tree, hu.tree.congr fun q hq => (h.apart hm).2 q ?_, hu.space⟩
  have hle := taskOwn_le_all s T r s.cur q
  simp only [taskOwn, spaceOwn] at hle
  omega

variable {m' : Memory} {t' : Table 2} {b : Bool}

theorem userTable_copied {n : Nat} (hu : UserTable m root tf t 0) (hn : n ≤ TOP)
    (hc : Copied m root (T s.cur) t n b m' t') (hs : Space t' (if b then n else 0)) :
    UserTable m' root tf t' (if b then n else 0) := by
  have htramp : m'.trampoline = m.trampoline := by
    cases b with
    | true => exact (Allocated.moves hc rfl).trampoline
    | false => exact (hc.back rfl).trampoline
  refine hu.edit hc.tree hs htramp fun u hlt hle => ?_
  cases b with
  | true => exact hc.same rfl u hlt (Or.inr (by omega))
  | false => rw [hc.clear rfl u hlt, if_neg (by omega)]

theorem forked_of_copy (h : Ready s T r) (hfresh : (s.task np).state = .unused)
    (hold : (s.task s.cur).pagetable = some old) (hsrc : (s.task s.cur).trapframe = some src)
    (hm : Moves s.mem (fun _ => 0) m fun q => t.holds q + single tf q) (hu : UserTable m root tf t 0)
    (hc : Copied m root (T s.cur) t (pages (s.task s.cur).sz.toNat) true m' t') {k : Task}
    (hkp : k.pagetable = some root) (hkt : k.trapframe = some tf) {F : Fin NFILE → Int32}
    (hF : ∀ f, (F f).toInt = (s.fileRef f).toInt + descriptors (s.task s.cur) f) {e : Entry}
    (hcwd : (s.task s.cur).cwd = some e) (pid : Int32) :
    Forked s r np ({ s with
        fileRef := F
        inodeRef := update s.inodeRef e (s.inodeRef e + 1) }.build np
      (m'.copyTrapframe src tf)
      { k.inherited (s.task s.cur) with parent := some s.cur, state := .runnable } pid s.held) := by
  obtain ⟨-, -, htold, htold', hs⟩ := h.parent hold hm
  have hs' := hc.space hs hu.space
  have hmc := hm.trans (hc.moves.extend (single tf))
  have hpos : 0 < m'.freelist.count tf +
      (spaceOwn t' (pages (s.task s.cur).sz.toNat) tf + single tf tf) := by
    rw [single_self]
    omega
  have hmf := hmc.trans (moves_copyTrapframe src hpos)
  have ha : Apart s.mem fun q => 0 + allOwn s T r q :=
    h.memories.apart.mono fun q => Nat.le_of_eq (Nat.zero_add _)
  have hall := ha.moves (hmc.extend (allOwn s T r))
  -- the pages of the child are not its trapframe
  have hother : ∀ q, 0 < spaceOwn t' (pages (s.task s.cur).sz.toNat) q →
      (m'.copyTrapframe src tf).page q = m'.page q := by
    intro q hq
    refine copyTrapframe_page src fun heq => ?_
    have hone := hall.one q
    rw [heq, single_self] at hone
    rw [heq] at hq
    omega
  have hchild : UserTable (m'.copyTrapframe src tf) root tf t' (pages (s.task s.cur).sz.toNat) := by
    refine (userTable_copied hu hs.fits hc hs').congr (fun q hq => hother q ?_) rfl
    simp only [spaceOwn]
    omega
  have happ : Apart s.mem fun q => (T s.cur).holds q := ha.mono fun q => by
    have hle := spaceOwn_le_all s T r s.cur q
    simp only [spaceOwn] at hle
    omega
  have happ' : Apart (m'.copyTrapframe src tf) fun q => t'.holds q :=
    (ha.moves (hmf.extend (allOwn s T r))).mono fun q => by
      simp only [spaceOwn]
      omega
  have htask := fun k₁ => build_task { s with
    fileRef := F
    inodeRef := update s.inodeRef e (s.inodeRef e + 1) } np (m'.copyTrapframe src tf) k₁ pid s.held
  refine ⟨hfresh, ?_, ?_, ?_, ?_, ?_, ⟨old, root, hold, ?_, fun a hlt => ?_⟩,
    ⟨src, tf, hsrc, ?_, fun i hi => ?_⟩, hF, ⟨e, hcwd, rfl⟩, ⟨update T np t', ?_⟩,
    fun i hi => build_task_of_ne _ _ _ _ _ _ hi, fun q hq => ?_, rfl⟩
  · rw [htask]
  · rw [htask]
  · rw [htask]
    rfl
  · rw [htask]
    rfl
  · rw [htask]
    rfl
  · rw [htask]
    exact hkp
  · have hpage := hc.page hs hlt
    have hframe : 0 < (frames t' 0 (pages (s.task s.cur).sz.toNat)).count (pte2pa (entry t' (a / PGSIZE))) :=
      frame_count_pos (Nat.zero_le _) (by omega)
    have hframe' : 0 < (frames (T s.cur) 0 (pages (s.task s.cur).sz.toNat)).count
        (pte2pa (entry (T s.cur) (a / PGSIZE))) := frame_count_pos (Nat.zero_le _) (by omega)
    have hle := spaceOwn_le_all s T r s.cur (pte2pa (entry (T s.cur) (a / PGSIZE)))
    simp only [spaceOwn] at hle hother
    show pteFlags (leafPte (m'.copyTrapframe src tf) root a) = _ ∧
      (m'.copyTrapframe src tf).page (frame (m'.copyTrapframe src tf) root a) = _
    rw [frame, frame, leafPte_eq hchild.tree happ', leafPte_eq htold happ, hother _ (by omega), hpage.2]
    exact ⟨hpage.1, (h.apart hm).2 _ (by omega)⟩
  · rw [htask]
    exact hkt
  · -- the trapframe of the caller is not touched before it is copied
    have hown : 0 < allOwn s T r src := by
      refine Nat.lt_of_lt_of_le ?_ (taskOwn_le_all s T r s.cur src)
      rw [taskOwn, hsrc]
      show 0 < _ + single src src
      rw [single_self]
      omega
    rw [← hmc.keeps ha hown]
    exact copyTrapframe_word m' src tf hi
  · refine h.memories.step (fun j hj => build_task_of_ne _ _ _ _ _ _ hj) ?_ ?_
    · rw [h.own hfresh, htask]
      refine hmf.congr (fun _ => rfl) fun q => ?_
      show spaceOwn t' _ q + k.trapframe.elim 0 _ = _
      rw [hkt]
      rfl
    · rw [htask]
      exact .full hkp hkt hchild
  · exact hmf.frame q (by rw [List.count_eq_zero.2 hq])

end Child

/-- What `fork` returns and leaves. -/
def Forks (s : System) (r : Owners) (v : Int32) (s' : System) : Prop :=
  (v = -1 ∧ Unchanged s s') ∨ v = s.nextpid ∧ ∃ np, (s'.task np).pid = v ∧ Forked s r np s'

theorem fork_spec (h : Ready s T r) : Ends E (fork cls) (Forks s r) s := by
  obtain ⟨old, hold⟩ := Option.ne_none_iff_exists'.1 h.memory
  obtain ⟨e, hcwd⟩ := Option.ne_none_iff_exists'.1 h.cwd
  have hbare : ∀ j, (s.task j).state = .unused → Bare (s.task j) := fun j hj => (h.bare hj).1
  unfold fork
  refine Ends.step (myproc_eq s) ((allocproc_spec h.held hbare
    (h.memories.apart.mono fun _ => Nat.zero_le _)).seq ?_)
  intro v s₁ halloc
  cases v with
  | none => exact Ends.ret (Or.inl ⟨rfl, halloc⟩)
  | some np =>
    obtain ⟨hfresh, m, root, tf, t, rfl, hu, hm⟩ := halloc
    obtain ⟨src, hsrc, -, htold, hs⟩ := h.parent hold hm
    have hne : s.cur ≠ np := by
      rintro rfl
      exact h.running hfresh
    have hapart := (h.apart hm).1
    have ha : Apart m fun q => t.holds q + spaceOwn (T s.cur) (pages (s.task s.cur).sz.toNat) q :=
      hapart.mono fun q => by
        have hle := spaceOwn_le_all s T r s.cur q
        omega
    refine Ends.step (modTask_build _ _ _ _ _ _ _) ((copyMemory_spec hne hold rfl htold hs hu.tree
      hu.space ha).seq ?_)
    rintro b _ ⟨m', rfl, t', hc⟩
    cases b with
    | false =>
      -- the slot still has no user memory
      obtain ⟨hmc, hentry⟩ := hc.failed
      have htable : UserTable m' root tf t' 0 :=
        userTable_copied hu hs.fits hc (hu.space.congr hentry)
      have hback : ∀ k : Task, k.sz = 0 → k.pagetable = some root → k.trapframe = some tf →
          Holding m' k t' ∧ Moves s.mem (fun _ => 0) m' (taskOwn k t') := by
        intro k hsz hkp hkt
        refine ⟨⟨fun hno => (nomatch hkp.symm.trans hno), fun root' hroot' => ?_⟩, ?_⟩
        · cases hkp.symm.trans hroot'
          rw [hsz]
          exact ⟨tf, htable⟩
        · refine (hm.trans (hmc.extend (single tf))).congr (fun _ => rfl) fun q => ?_
          rw [taskOwn, hsz, hkt]
          rfl
      obtain ⟨hhold, hmoves⟩ := hback { (s.task np).allocated s.nextpid root tf with classe := cls }
        (hbare np hfresh).sz rfl rfl
      have hzero : Apart s.mem fun _ => 0 := h.memories.apart.mono fun _ => Nat.zero_le _
      rw [if_neg (by decide)]
      exact (undo_build hfresh hbare (h.held _) hhold (hzero.moves hmoves) hmoves).mono
        fun _ _ hun => Or.inl hun
    | true =>
      rw [if_pos rfl]
      refine (inherit_spec (k := { (s.task np).allocated s.nextpid root tf with classe := cls }) hne
        h.files hsrc rfl hcwd (h.unused np hfresh).2).seq ?_
      rintro _ _ ⟨F, hF, rfl⟩
      refine Ends.step (getTask_build _ _ _ _ _ _) (Ends.step (start_spec h.held) (Ends.ret ?_))
      refine Or.inr ⟨rfl, np, ?_, forked_of_copy h hfresh hold hsrc hm hu hc rfl rfl hF hcwd _⟩
      rw [build_task]

end Fork

theorem ready_solo {free : List Nat} (hnodup : (free ++ soloUsed).Nodup)
    (hreal : ∀ p ∈ free, 0x80020 ≤ p ∧ p < PHYSTOP) (pid : Int32) :
    Ready { solo free with nextpid := pid } soloTables fun _ => 0 := by
  have hcur : (solo free).task (solo free).cur = soloTask := solo_cur free
  have hmem := memories_solo hnodup hreal
  refine ⟨⟨hmem.task, hmem.apart⟩, fun i hi => ?_, ?_, ?_, ?_, fun d f hf => ?_, fun _ => rfl⟩
  · have hother : i ≠ slotAt 0 := by
      rintro rfl
      exact absurd (hi.symm.trans (congrArg (·.state) hcur)) (by decide)
    have hno : (solo free).task i = noTask := if_neg hother
    exact ⟨congrArg Task.pagetable hno, fun d => congrFun (congrArg Task.ofile hno) d⟩
  · intro hno
    exact absurd (hno.symm.trans (congrArg (·.state) hcur)) (by decide)
  · intro hno
    exact absurd (hno.symm.trans (congrArg Task.pagetable hcur)) nofun
  · intro hno
    exact absurd (hno.symm.trans (congrArg Task.cwd hcur)) nofun
  · exact absurd (hf.symm.trans (congrFun (congrArg Task.ofile hcur) d)) nofun

/-- Pages for one child. -/
def spare : List Nat := [0x80030, 0x80031, 0x80032, 0x80033, 0x80034, 0x80035, 0x80036]

def returned {σ α : Type} (x : Exec Panic σ α) (s : σ) : Option α :=
  match x s with
  | .ok (a, _) => some a
  | .error _ => none

theorem ok_of_returned {σ α : Type} {x : Exec Panic σ α} {s : σ} {a : α} (h : returned x s = some a) :
    ∃ s', x s = .ok (a, s') := by
  unfold returned at h
  split at h
  · rename_i hx
    cases h
    exact ⟨_, hx⟩
  · cases h

end Xv6Schedulers.Vm
