import Xv6Schedulers.Vm.Fork
import Xv6Schedulers.Vm.Loading

/-!
# Unwind — a failed `exec` leaves the process as it was

* `prepare_spec`, `pushArgs_fills`, `commit_spec`: from every stage of `exec` the label `bad` can take
  the new address space apart.
* `Trace file cs`: the calls into the file system, with one `iunlockput` and one `end_op`.
* `exec_failed`: when `exec` returns `-1`, only the order of the free list has changed.
-/

namespace Xv6Schedulers.Vm

open Lib Exec Kernel Function List
open Fs (Entry)

/-! ## The label `bad` -/

section Bad

variable {h : Host} {m : Memory} {cs : List FsCall} {root tf sz : Nat} {t : Table 2} {E : Prop}

theorem bad_eq (root sz : Nat) : bad (some root) sz none =
    (onSys (onMem (procFreepagetable root sz)) >>= fun _ => pure ()) := rfl

theorem bad_file (ip : Entry) : bad none 0 (some ip) (h.put m cs) =
    .ok ((), h.put m (cs ++ [.iunlockput ip, .endOp])) := by
  show (call (.iunlockput ip) >>= fun _ => call .endOp) _ = _
  rw [bind_ok (call_put _), call_put, append_assoc]
  rfl

/-- An image is taken apart after the inode was released. -/
theorem bad_image (hu : UserTable m root tf t (pages sz)) (ha : Apart m (spaceOwn t (pages sz))) :
    Ends E (bad (some root) sz none) (fun _ h' => ∃ m', h' = h.put m' cs ∧
      Moves m (spaceOwn t (pages sz)) m' fun _ => 0) (h.put m cs) := by
  rw [bad_eq]
  exact (onMem_put_ends (procFreepagetable_spec hu ha)).seq fun _ _ hm => Ends.ret hm

/-- An image is taken apart and the inode is released. -/
theorem bad_both (hu : UserTable m root tf t (pages sz)) (ha : Apart m (spaceOwn t (pages sz)))
    (ip : Entry) :
    Ends E (bad (some root) sz (some ip)) (fun _ h' => ∃ m', h' = h.put m' (cs ++ [.iunlockput ip, .endOp]) ∧
      Moves m (spaceOwn t (pages sz)) m' fun _ => 0) (h.put m cs) := by
  refine (onMem_put_ends (procFreepagetable_spec hu ha)).seq ?_
  rintro _ _ ⟨m', rfl, hm⟩
  exact Ends.of_eq (bad_file ip) ⟨m', rfl, hm⟩

end Bad

/-! ## Up to the arguments -/

/-- The calls into the file system that `exec` makes before the arguments are copied. -/
def Trace : Option File → List FsCall → Prop
  | none, cs => cs = [.beginOp, .namei, .endOp]
  | some f, cs => ∃ reads, Reads f.ip reads ∧
      cs = [.beginOp, .namei, .ilock f.ip] ++ reads ++ [.iunlockput f.ip, .endOp]

/-- The address space that `prepare` returns, and where its pages come from. -/
def Outcome (m : Memory) (own : Owners) (tf : Nat) (m' : Memory) : Option Prepared → Prop
  | none => Moves m own m' fun _ => 0
  | some img => ∃ t base, img.sz = (base + 2) * PGSIZE ∧ Stacked m' img.pagetable tf t base ∧
      Moves m own m' (spaceOwn t (base + 2))

section Prepare

variable {h : Host} {m : Memory} {cs : List FsCall} {root tf sz : Nat} {t : Table 2} {f : File} {E : Prop}

theorem makeStack_spec (hi : Image m root tf t sz) (ha : Apart m (spaceOwn t (pages sz))) (start : UInt64) :
    Ends E (makeStack root sz start) (fun r h' => ∃ m', h' = h.put m' cs ∧
      Outcome m (spaceOwn t (pages sz)) tf m' r) (h.put m cs) := by
  have hsize := size_le ha
  have hround : PGROUNDUP sz = pages sz * PGSIZE := pgroundup_eq (by omega)
  have hsum : (pages sz * PGSIZE + (USERSTACK + 1) * PGSIZE) % 2 ^ 64 = (pages sz + 2) * PGSIZE := by
    simp only [pages, PGSIZE, USERSTACK]
    omega
  have hpages := pages_mul (pages sz)
  have hi' : Image m root tf t (pages sz * PGSIZE) := by
    refine ⟨?_, ?_⟩
    · rw [hpages]
      exact hi.table
    · rw [hpages]
      exact hi.user
  have ha' : Apart m (spaceOwn t (pages (pages sz * PGSIZE))) := by
    rw [hpages]
    exact ha
  unfold makeStack
  simp only [hround, hsum]
  refine (onMem_put_ends (uvmalloc_image hi' ha' (by decide))).seq ?_
  rintro r _ ⟨m₁, rfl, t₁, hg⟩
  have ha₁ := ha'.moves hg.moves
  have himg := hg.image
  have hmoves := hg.moves
  split
  · rename_i hr
    rw [if_pos hr] at himg ha₁ hmoves
    refine (bad_image himg.table ha₁).seq ?_
    rintro _ _ ⟨m', rfl, hm'⟩
    refine Ends.ret ⟨m', rfl, ?_⟩
    rw [hpages] at hmoves hm'
    exact hmoves.trans hm'
  · rename_i hr
    have hr' : r = (pages sz + 2) * PGSIZE := by
      rw [hg.size hr]
      simp only [PGSIZE]
      omega
    have hnew := hg.new
    have hu := himg.table
    rw [if_neg hr, hr'] at hu ha₁ hmoves hnew
    simp only [pages_mul] at hu ha₁ hmoves hnew
    obtain ⟨p, -, hguard⟩ := hnew (pages sz) (Nat.le_refl _) (by omega)
    obtain ⟨p', -, hstack⟩ := hnew (pages sz + 1) (by omega) (by omega)
    have hsub : r - (USERSTACK + 1) * PGSIZE = pages sz * PGSIZE := by
      rw [hr']
      simp only [PGSIZE, USERSTACK]
      omega
    have hlt : pages sz < VPAGES := by
      have hfits := hu.space.fits
      have htop := top_lt
      omega
    rw [hsub]
    refine (onMem_put_ends (uvmclear_spec hu.tree (ha₁.mono fun _ => Nat.le_add_right _ _) hlt
      (hu.space.low _ (by omega)).ne_zero)).seq ?_
    rintro _ _ ⟨m₂, rfl, t₂, htree₂, hm₂, hentry₂⟩
    obtain ⟨hst, hm₂'⟩ := stacked_of_clear hu hguard hstack htree₂ hm₂ hentry₂
    exact Ends.ret ⟨m₂, rfl, t₂, pages sz, hr', hst, hmoves.trans hm₂'⟩

theorem myproc_put : onSys myproc (h.put m cs) = .ok (h.sys.cur, h.put m cs) := rfl

theorem trapframe_put (htf : (h.sys.task h.sys.cur).trapframe = some tf) :
    onSys (do deref (← getTask h.sys.cur).trapframe) (h.put m cs) = .ok (tf, h.put m cs) := by
  have hsys : (do deref (← getTask h.sys.cur).trapframe) (h.put m cs).sys = .ok (tf, (h.put m cs).sys) := by
    rw [bind_ok (getTask_eq _ _)]
    show deref (h.sys.task h.sys.cur).trapframe _ = _
    rw [htf]
    rfl
  rw [onSys, Exec.within, hsys]

/-- From the ELF header to the stack: the inode is released once, on every way out. -/
theorem loadFile_spec (htf : (h.sys.task h.sys.cur).trapframe = some tf) (ha : Apart m fun _ => 0)
    (hk : 0 < m.kernelEnd) :
    Ends E (loadFile f) (fun r h' => ∃ m' reads, h' = h.put m' (cs ++ reads ++ [.iunlockput f.ip, .endOp]) ∧
      Reads f.ip reads ∧ Outcome m (fun _ => 0) tf m' r) (h.put m cs) := by
  have hread : Reads f.ip [.readi f.ip 0 64] := Reads.cons _ _ (Reads.nil _)
  unfold loadFile
  refine Ends.step (readi_put _ _ _) ?_
  generalize Elf.ofBytes (f.read 0 64) = elf
  dsimp only
  split
  · exact Ends.step (bad_file _) (Ends.ret ⟨m, _, rfl, hread, Moves.refl m _⟩)
  refine Ends.step myproc_put (Ends.step (trapframe_put htf) ?_)
  refine (onMem_put_ends (procPagetable_spec ha)).seq ?_
  rintro r _ ⟨m₁, rfl, hnone, hsome⟩
  cases r with
  | none => exact Ends.step (bad_file _) (Ends.ret ⟨m₁, _, rfl, hread, hnone rfl⟩)
  | some root =>
    obtain ⟨t₁, hu₁, hm₁⟩ := hsome root rfl
    have hi₁ : Image m₁ root tf t₁ 0 := ⟨hu₁, fun u hu => absurd hu (Nat.not_lt_zero u)⟩
    have hm₁' : Moves m (fun _ => 0) m₁ (spaceOwn t₁ (pages 0)) := hm₁
    have hk₁ : 0 < m₁.kernelEnd := by
      rw [hm₁.kernelEnd]
      exact hk
    refine (loadSegments_spec hi₁ (ha.moves hm₁') hk₁ elf.phnum elf.phoff.toUInt32).seq ?_
    rintro r _ ⟨m₂, t₂, cs₂, rfl, hreads₂, hl⟩
    have hm₂ := hm₁'.trans hl.moves
    have ha₂ := ha.moves hm₂
    split
    · refine Ends.step (call_put _) (Ends.step (call_put _) ((makeStack_spec hl.image ha₂ elf.entry).mono ?_))
      rintro r' _ ⟨m₃, rfl, hout⟩
      refine ⟨m₃, _, ?_, hread.append hreads₂, ?_⟩
      · simp only [append_assoc, cons_append, nil_append]
      · cases r' with
        | none => exact hm₂.trans hout
        | some img =>
          obtain ⟨t₃, base, hsz, hst, hm₃⟩ := hout
          exact ⟨t₃, base, hsz, hst, hm₂.trans hm₃⟩
    · refine (bad_both hl.image.table ha₂ f.ip).seq ?_
      rintro _ _ ⟨m₃, rfl, hm₃⟩
      refine Ends.ret ⟨m₃, _, ?_, hread.append hreads₂, hm₂.trans hm₃⟩
      simp only [append_assoc]

theorem put_self (h : Host) : h.put h.sys.mem [] = h := by
  rw [Host.put, append_nil]

/-- What `exec` does before the arguments are copied. -/
theorem prepare_spec (file : Option File) (htf : (h.sys.task h.sys.cur).trapframe = some tf)
    (ha : Apart h.sys.mem fun _ => 0) (hk : 0 < h.sys.mem.kernelEnd) :
    Ends E (prepare file) (fun r h' => ∃ m cs, h' = h.put m cs ∧ Trace file cs ∧
      Outcome h.sys.mem (fun _ => 0) tf m r) h := by
  have hstart : ∀ c, call c h = .ok ((), h.put h.sys.mem [c]) := fun c => by
    have hcall := @call_put h h.sys.mem [] c
    rwa [put_self] at hcall
  unfold prepare
  refine Ends.step (hstart _) (Ends.step (call_put _) ?_)
  cases file with
  | none => exact Ends.step (call_put _) (Ends.ret ⟨_, _, rfl, rfl, Moves.refl _ _⟩)
  | some f =>
    refine Ends.step (call_put _) ((loadFile_spec htf ha hk).mono ?_)
    rintro r _ ⟨m', reads, rfl, hreads, hout⟩
    exact ⟨m', _, rfl, ⟨reads, hreads, rfl⟩, hout⟩

end Prepare

/-! ## The arguments -/

section Push

variable {h : Host} {m : Memory} {cs : List FsCall} {root tf n stackbase : Nat} {t : Table 2} {E : Prop}

theorem pushArgs_fills (hu : UserTable m root tf t n) (ha : Apart m (spaceOwn t n)) (hk : 0 < m.kernelEnd)
    (argv : List (List UInt8)) (sp : Nat) {ustack : List Nat} (hle : ustack.length ≤ MAXARG) :
    Ends E (pushArgs root stackbase argv sp ustack) (fun r h' => ∃ m', h' = h.put m' cs ∧
      Fills m t n m' ∧ ∀ sp' us', r = some (sp', us') →
        us'.length = ustack.length + argv.length ∧ us'.length ≤ MAXARG) (h.put m cs) := by
  induction argv generalizing m sp ustack with
  | nil =>
    refine Ends.ret ⟨m, rfl, Fills.refl m t n, fun sp' us' heq => ?_⟩
    cases heq
    exact ⟨rfl, hle⟩
  | cons arg argv ih =>
    unfold pushArgs
    split
    · exact Ends.ret ⟨m, rfl, Fills.refl m t n, nofun⟩
    rename_i hlt
    dsimp only
    generalize sub64 sp (arg.length + 1) - sub64 sp (arg.length + 1) % 16 = sp₁
    split
    · exact Ends.ret ⟨m, rfl, Fills.refl m t n, nofun⟩
    obtain ⟨b, m₁, hret, hfills⟩ := copyout_fills hu ha hk sp₁ (arg ++ [0])
    refine Ends.step (onMem_put hret) ?_
    cases b with
    | false => exact Ends.ret ⟨m₁, rfl, hfills, nofun⟩
    | true =>
      have hk₁ : 0 < m₁.kernelEnd := by
        rw [hfills.kernelEnd]
        exact hk
      refine (ih (hfills.table hu ha) (ha.moves hfills.moves) hk₁ sp₁ ?_).mono ?_
      · rw [length_append, length_singleton]
        omega
      rintro r _ ⟨m', rfl, hfills', hlen⟩
      refine ⟨m', rfl, hfills.trans hfills', fun sp' us' heq => ?_⟩
      obtain ⟨hl, hle'⟩ := hlen sp' us' heq
      rw [length_append, length_singleton] at hl
      exact ⟨by rw [hl, length_cons]; omega, hle'⟩

theorem pushPointers_fills (hu : UserTable m root tf t n) (ha : Apart m (spaceOwn t n))
    (hk : 0 < m.kernelEnd) (sp : Nat) {ustack : List Nat} (hE : ustack.length = MAXARG → E)
    (hle : ustack.length ≤ MAXARG) :
    Ends E (pushPointers root stackbase sp ustack)
      (fun _ h' => ∃ m', h' = h.put m' cs ∧ Fills m t n m') (h.put m cs) := by
  unfold pushPointers
  split
  · exact Ends.throws (hE (by omega))
  dsimp only
  generalize sub64 sp ((ustack ++ [0]).length * 8) - sub64 sp ((ustack ++ [0]).length * 8) % 16 = sp₁
  split
  · exact Ends.ret ⟨m, rfl, Fills.refl m t n⟩
  obtain ⟨b, m₁, hret, hfills⟩ := copyout_fills hu ha hk sp₁ ((ustack ++ [0]).flatMap wordBytes)
  refine Ends.step (onMem_put hret) ?_
  cases b with
  | false => exact Ends.ret ⟨m₁, rfl, hfills⟩
  | true => exact Ends.ret ⟨m₁, rfl, hfills⟩

end Push

/-! ## Taking the new address space -/

def Task.execed (k : Task) (path : List UInt8) (img : Prepared) : Task :=
  { k with
    name := safestrcpy k.name fun i => (lastName path path).getD i.val 0
    pagetable := some img.pagetable
    sz := UInt64.ofNat img.sz }

def setRegs (pg : Page) (sp : Nat) (entry : UInt64) : Page :=
  update (update (update pg a1Word (UInt64.ofNat sp)) epcWord entry) spWord
    (UInt64.ofNat sp)

theorem setWord_regs (m : Memory) (tf sp : Nat) (entry : UInt64) :
    ((m.setWord tf a1Word (UInt64.ofNat sp)).setWord tf epcWord entry).setWord tf spWord (UInt64.ofNat sp) =
      m.setPage tf (setRegs (m.page tf) sp entry) := by
  simp only [Memory.setWord, Memory.setPage, update_self, update_idem, setRegs]

theorem commit_spec {s : System} {m : Memory} {tf old oldsz sp : Nat} {told : Table 2} {E : Prop}
    (path : List UInt8) (img : Prepared) (htf : (s.task s.cur).trapframe = some tf)
    (hpt : (s.task s.cur).pagetable = some old) (hu : UserTable m old tf told (pages oldsz))
    (ha : Apart m fun q => spaceOwn told (pages oldsz) q + single tf q) :
    Ends E (commit path img oldsz sp) (fun _ s' => ∃ m',
      s' = s.build s.cur m' ((s.task s.cur).execed path img) s.nextpid s.held ∧
      Moves m (fun q => spaceOwn told (pages oldsz) q + single tf q) m' (single tf) ∧
      m'.page tf = setRegs (m.page tf) sp img.entry) (s.build s.cur m (s.task s.cur) s.nextpid s.held) := by
  have hcur : ∀ (m : Memory) (k : Task), myproc (s.build s.cur m k s.nextpid s.held) =
      .ok (s.cur, s.build s.cur m k s.nextpid s.held) := fun _ _ => rfl
  unfold commit
  refine Ends.step (hcur _ _) (Ends.step (getTask_build _ _ _ _ _ _) ?_)
  rw [htf]
  refine Ends.step (pure_apply _ _) (Ends.step (onMem_build_eq _ _ _ _ _ _ (modify_apply _ _)) ?_)
  refine Ends.step (modTask_build _ _ _ _ _ _ _) (Ends.step (getTask_build _ _ _ _ _ _) ?_)
  refine Ends.step (a := old) (by
    show deref (s.task s.cur).pagetable _ = _
    rw [hpt]
    rfl) ?_
  refine Ends.step (modTask_build _ _ _ _ _ _ _) (Ends.step (modTask_build _ _ _ _ _ _ _)
    (Ends.step (onMem_build_eq _ _ _ _ _ _ (modify_apply _ _))
      (Ends.step (onMem_build_eq _ _ _ _ _ _ (modify_apply _ _)) ?_)))
  rw [setWord_regs]
  have hpos : 0 < m.freelist.count tf + (spaceOwn told (pages oldsz) tf + single tf tf) := by
    rw [single_self]
    omega
  have hm : Moves m (fun q => spaceOwn told (pages oldsz) q + single tf q)
      (m.setPage tf (setRegs (m.page tf) sp img.entry))
      (fun q => spaceOwn told (pages oldsz) q + single tf q) := Moves.setPage hpos _
  have ha' := ha.moves hm
  have hu' : UserTable (m.setPage tf (setRegs (m.page tf) sp img.entry)) old tf told (pages oldsz) := by
    refine hu.congr (fun q hq => update_of_ne (fun heq => ?_) _ _) rfl
    have hone := ha.one q
    rw [heq, single_self] at hone
    rw [heq] at hq
    simp only [spaceOwn] at hone
    omega
  refine (onMem_build _ _ _ _ _ _ (procFreepagetable_spec hu'
    (ha'.mono fun _ => Nat.le_add_right _ _))).mono ?_
  rintro _ _ ⟨m', rfl, hm'⟩
  refine ⟨m', rfl, (hm.trans (hm'.extend (single tf))).congr (fun _ => rfl) fun q => (Nat.zero_add _).symm, ?_⟩
  rw [hm'.keeps ha' (by rw [single_self]; omega)]
  show update m.page tf _ tf = _
  rw [update_self]

/-! ## `exec` -/

/-- A process with its memory calls `exec`; `T` are the page tables and `r` is what else holds pages. -/
structure Calls (h : Host) (T : Slot → Table 2) (r : Owners) (old tf : Nat) : Prop where
  memories : Memories h.sys T r
  pagetable : (h.sys.task h.sys.cur).pagetable = some old
  trapframe : (h.sys.task h.sys.cur).trapframe = some tf
  kernel : 0 < h.sys.mem.kernelEnd

section Finish

variable {h : Host} {T : Slot → Table 2} {r : Owners} {old tf : Nat} {m : Memory} {own : Owners}
  {cs : List FsCall}

theorem Calls.apart (hc : Calls h T r old tf) (hm : Moves h.sys.mem (fun _ => 0) m own) :
    (Apart m fun q => own q + allOwn h.sys T r q) ∧
      ∀ q, 0 < allOwn h.sys T r q → m.page q = h.sys.mem.page q := by
  have ha : Apart h.sys.mem fun q => 0 + allOwn h.sys T r q :=
    hc.memories.apart.mono fun q => Nat.le_of_eq (Nat.zero_add _)
  exact ⟨ha.moves (hm.extend _), fun q hq => hm.keeps ha hq⟩

theorem Calls.own_le (hc : Calls h T r old tf) (q : Nat) :
    spaceOwn (T h.sys.cur) (pages (h.sys.task h.sys.cur).sz.toNat) q + single tf q ≤ allOwn h.sys T r q := by
  refine Nat.le_trans (Nat.le_of_eq ?_) (taskOwn_le_all h.sys T r h.sys.cur q)
  rw [taskOwn, hc.trapframe]
  rfl

theorem Calls.oldTable (hc : Calls h T r old tf) (hm : Moves h.sys.mem (fun _ => 0) m own) :
    UserTable m old tf (T h.sys.cur) (pages (h.sys.task h.sys.cur).sz.toNat) := by
  obtain ⟨tf', htf', hu⟩ := (hc.memories.task h.sys.cur).space hc.pagetable
  cases htf'.symm.trans hc.trapframe
  refine hu.congr (fun q hq => (hc.apart hm).2 q ?_) hm.trampoline
  have hle := hc.own_le q
  simp only [spaceOwn] at hle
  omega

theorem put_build (h : Host) (m : Memory) (cs : List FsCall) : (h.put m cs).sys =
    h.sys.build h.sys.cur m (h.sys.task h.sys.cur) h.sys.nextpid h.sys.held := by
  rw [build_self]
  rfl

theorem commit_put {E : Prop} (hc : Calls h T r old tf) (hm : Moves h.sys.mem (fun _ => 0) m own)
    (path : List UInt8) (img : Prepared) (sp : Nat) :
    Ends E (onSys (commit path img (h.sys.task h.sys.cur).sz.toNat sp)) (fun _ h' => ∃ m',
      h' = ⟨h.sys.build h.sys.cur m' ((h.sys.task h.sys.cur).execed path img) h.sys.nextpid h.sys.held,
        h.calls ++ cs⟩ ∧
      Moves m (fun q => spaceOwn (T h.sys.cur) (pages (h.sys.task h.sys.cur).sz.toNat) q + single tf q) m'
        (single tf) ∧
      m'.page tf = setRegs (m.page tf) sp img.entry) (h.put m cs) := by
  have ha : Apart m fun q =>
      spaceOwn (T h.sys.cur) (pages (h.sys.task h.sys.cur).sz.toNat) q + single tf q :=
    (hc.apart hm).1.mono fun q => by
      have hle := hc.own_le q
      omega
  have hcommit : Ends E (commit path img (h.sys.task h.sys.cur).sz.toNat sp) _
      (h.sys.build h.sys.cur m (h.sys.task h.sys.cur) h.sys.nextpid h.sys.held) :=
    commit_spec path img hc.trapframe hc.pagetable (hc.oldTable hm) ha
  rw [← put_build h m cs] at hcommit
  refine hcommit.within.mono ?_
  rintro _ _ ⟨_, rfl, m', rfl, hout⟩
  exact ⟨m', rfl, hout⟩

theorem ofNat_ne_neg {n : Nat} (hn : n ≤ MAXARG) : Int32.ofNat n ≠ -1 := by
  have hlim : MAXARG = 32 := rfl
  intro heq
  have hint := congrArg Int32.toInt heq
  rw [Int32.toInt_ofNat_of_lt (by omega)] at hint
  have hneg : (-1 : Int32).toInt = -1 := by decide
  omega

/-- After more of its pages were written, the image can still be taken apart. -/
theorem bad_filled {E : Prop} {m₁ : Memory} {t : Table 2} {base : Nat} {img : Prepared}
    (hst : Stacked m img.pagetable tf t base) (hsz : img.sz = (base + 2) * PGSIZE)
    (ha : Apart m (spaceOwn t (base + 2))) (hm : Moves h.sys.mem (fun _ => 0) m (spaceOwn t (base + 2)))
    (hf : Fills m t (base + 2) m₁) :
    Ends E (do
      bad (some img.pagetable) img.sz none
      pure (-1) : Run Int32) (fun v h' => v = -1 ∧ ∃ m', h' = h.put m' cs ∧
        Moves h.sys.mem (fun _ => 0) m' fun _ => 0) (h.put m₁ cs) := by
  have hpages : pages img.sz = base + 2 := by rw [hsz, pages_mul]
  have hu₁ := hf.table hst.table ha
  have ha₁ := ha.moves hf.moves
  rw [← hpages] at hu₁ ha₁
  refine (bad_image hu₁ ha₁).seq ?_
  rintro _ _ ⟨m', rfl, hm'⟩
  rw [hpages] at hm'
  exact Ends.ret ⟨rfl, m', rfl, (hm.trans hf.moves).trans hm'⟩

theorem finish_spec (hc : Calls h T r old tf) {t : Table 2} {base : Nat} {img : Prepared}
    (hst : Stacked m img.pagetable tf t base) (hsz : img.sz = (base + 2) * PGSIZE)
    (hm : Moves h.sys.mem (fun _ => 0) m (spaceOwn t (base + 2))) (path : List UInt8)
    (argv : List (List UInt8)) :
    Ends (argv.length = MAXARG) (finish path img argv) (fun v h' => v = -1 → ∃ m',
      h' = h.put m' cs ∧ Moves h.sys.mem (fun _ => 0) m' fun _ => 0) (h.put m cs) := by
  have hk : 0 < m.kernelEnd := by
    rw [hm.kernelEnd]
    exact hc.kernel
  have ha : Apart m (spaceOwn t (base + 2)) := (hc.apart hm).1.mono fun _ => Nat.le_add_right _ _
  unfold finish
  refine Ends.step myproc_put (Ends.step (a := h.sys.task h.sys.cur) rfl ?_)
  refine (pushArgs_fills hst.table ha hk argv img.sz (Nat.zero_le _)).seq ?_
  rintro v _ ⟨m₁, rfl, hf, hlen⟩
  cases v with
  | none => exact (bad_filled hst hsz ha hm hf).mono fun _ _ hv _ => hv.2
  | some v =>
    obtain ⟨hargc, hmax⟩ := hlen v.1 v.2 rfl
    rw [length_nil, Nat.zero_add] at hargc
    have hk₁ : 0 < m₁.kernelEnd := by
      rw [hf.kernelEnd]
      exact hk
    refine (pushPointers_fills (hf.table hst.table ha) (ha.moves hf.moves) hk₁ v.1
      (fun heq => by rw [← hargc]; exact heq) hmax).seq ?_
    rintro sp _ ⟨m₂, rfl, hf'⟩
    have hf₂ := hf.trans hf'
    cases sp with
    | none => exact (bad_filled hst hsz ha hm hf₂).mono fun _ _ hv _ => hv.2
    | some sp =>
      refine (commit_put hc (hm.trans hf₂.moves) path img sp).seq fun _ _ _ => ?_
      exact Ends.ret fun hv => absurd hv (ofNat_ne_neg hmax)

end Finish

theorem calls_solo {free : List Nat} (hnodup : (free ++ soloUsed).Nodup)
    (hreal : ∀ p ∈ free, 0x80020 ≤ p ∧ p < PHYSTOP) (cs : List FsCall) :
    Calls ⟨solo free, cs⟩ soloTables (fun _ => 0) 0x80020 0x80024 where
  memories := memories_solo hnodup hreal
  pagetable := congrArg Task.pagetable (solo_cur free)
  trapframe := congrArg Task.trapframe (solo_cur free)
  kernel := by
    show 0 < 0x80020
    decide

/-- When `exec` returns `-1`, the processes, their memory and the free pages are what they were, and the
inode was released once. -/
theorem exec_failed (h : Host) (T : Slot → Table 2) (r : Owners) (old tf : Nat) (hc : Calls h T r old tf)
    (path : List UInt8) (file : Option File) (argv : List (List UInt8)) :
    (argv.length ≠ MAXARG → ∃ v h', exec path file argv h = .ok (v, h')) ∧
    ∀ h', exec path file argv h = .ok (-1, h') → ∃ m cs,
      h' = ⟨{ h.sys with mem := m }, h.calls ++ cs⟩ ∧ Trace file cs ∧
      (∀ q, m.freelist.count q = h.sys.mem.freelist.count q) ∧
      ∀ q, q ∉ h.sys.mem.freelist → m.page q = h.sys.mem.page q := by
  have hspec : Ends (argv.length = MAXARG) (exec path file argv) (fun v h' => v = -1 → ∃ m cs,
      h' = h.put m cs ∧ Trace file cs ∧ Moves h.sys.mem (fun _ => 0) m fun _ => 0) h := by
    unfold exec
    refine (prepare_spec file hc.trapframe (hc.memories.apart.mono fun _ => Nat.zero_le _) hc.kernel).seq ?_
    rintro v _ ⟨m, cs, rfl, htrace, hout⟩
    cases v with
    | none => exact Ends.ret fun _ => ⟨m, cs, rfl, htrace, hout⟩
    | some img =>
      obtain ⟨t, base, hsz, hst, hm⟩ := hout
      refine (finish_spec hc hst hsz hm path argv).mono fun v h' hv heq => ?_
      obtain ⟨m', hput, hm'⟩ := hv heq
      exact ⟨m', cs, hput, htrace, hm'⟩
  refine ⟨fun hne => ?_, fun h' hret => ?_⟩
  · cases hrun : exec path file argv h with
    | ok v => exact ⟨v.1, v.2, rfl⟩
    | error e => exact absurd (hspec.of_error hrun) hne
  · obtain ⟨m, cs, hput, htrace, hm⟩ := hspec.of_ok hret rfl
    exact ⟨m, cs, hput, htrace, hm.count, fun q hq => hm.frame q (by rw [count_eq_zero.2 hq])⟩

/-- A file of 64 zero bytes is no program. -/
theorem exec_failed_zeros : ∃ m cs, exec [] (some ⟨0, replicate 64 0⟩) [] ⟨solo spare, []⟩ =
      .ok (-1, ⟨{ solo spare with mem := m }, [] ++ cs⟩) ∧ Trace (some ⟨0, replicate 64 0⟩) cs ∧
      ∀ q, m.freelist.count q = spare.count q := by
  have hret : returned (exec [] (some ⟨0, replicate 64 0⟩) []) ⟨solo spare, []⟩ = some (-1) := by
    decide +kernel
  obtain ⟨h', hh'⟩ := ok_of_returned hret
  have hall := exec_failed ⟨solo spare, []⟩ soloTables (fun _ => 0) 0x80020 0x80024
    (calls_solo (by decide) (by decide) []) [] (some ⟨0, replicate 64 0⟩) []
  obtain ⟨m, cs, rfl, htrace, hfree, -⟩ := hall.2 h' hh'
  exact ⟨m, cs, hh', htrace, hfree⟩

end Xv6Schedulers.Vm
