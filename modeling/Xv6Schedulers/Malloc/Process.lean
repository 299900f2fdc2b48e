import Xv6Schedulers.Malloc.Integrity
import Xv6Schedulers.Vm.Grow

/-!
# Process — `malloc` over the `sbrk` of the kernel

The heap of `umalloc.c` in a process with a size, which `sys_sbrk` and `growproc` maintain.

* `newSize`: the size that `growproc` leaves, also when it is asked for less than nothing.
* `growproc_newSize`: the page tables of the kernel follow it.
* `Inside`: the heap is in order and lies below the size of the process.
* `malloc_honest`: a request that is an `int` gets memory of the process, or null.
* `malloc_beyond`: a request of which `sbrk` sees only the low bits does not.
-/

namespace Xv6Schedulers.Malloc

open Lib Circle

/-- The bytes of physical memory, from `KERNBASE` to `PHYSTOP`. -/
def MEMORY : Nat := (Vm.PHYSTOP - Vm.KERNBASE) * Vm.PGSIZE

structure Process where
  heap : Heap
  /-- `p->sz` -/
  sz : UInt64

/-- How a call can fail to return. -/
inductive Stop
  /-- the loops have used up their rounds -/
  | rounds
  /-- a store to a page that is not mapped, for which `usertrap` kills the process -/
  | fault
  deriving DecidableEq

/-- The size after `growproc(n)`, or `none` for `-1`; `room` tells whether `uvmalloc` finds the pages,
which it does not beyond physical memory. -/
def newSize (sz : UInt64) (n : Int32) (room : Bool) : Option UInt64 :=
  let newsz := sz + n.toInt64.toUInt64
  if 0 < n then
    if room ∧ newsz.toNat ≤ MEMORY then some newsz else none
  else if n < 0 then
    -- `uvmdealloc` does nothing when the sum has wrapped
    if sz ≤ newsz then some sz else some newsz
  else
    some sz

namespace Process

/-- `sys_sbrk`: the old size, or `none` for `-1`. -/
def sbrk (p : Process) (n : Int32) (room : Bool) : Option (Nat × Process) :=
  match newSize p.sz n room with
  | none => none
  | some sz =>
      -- what was obtained is recorded in the heap, for its number of rounds
      let heap :=
        if 0 < n then
          { p.heap with
            top := p.sz.toNat + n.toInt.toNat
            regions := (p.sz.toNat, n.toInt.toNat) :: p.heap.regions }
        else
          p.heap
      some (p.sz.toNat, ⟨heap, sz⟩)

/-- A header at `a` is on pages of the process. -/
def mapped (p : Process) (a : Nat) : Bool := decide (a + HEADER ≤ Vm.pages p.sz.toNat * Vm.PGSIZE)

/-- `morecore`; the product is a `size_t`, of which `sbrk` takes an `int`. -/
def morecore (p : Process) (nu : Nat) (room : Bool) : Except Stop (Option Nat × Process) :=
  let nu := if nu < 4096 then 4096 else nu
  match p.sbrk (Int32.ofNat (nu * HEADER)) room with
  | none => .ok (none, p)
  | some (hp, p) =>
      if p.mapped hp then
        match (p.heap.setSize hp nu).free hp with
        | none => .error .rounds
        | some h => .ok (h.freep, { p with heap := h })
      else
        .error .fault

def mallocLoop (nunits : Nat) (room : Bool) :
    Nat → Process → Nat → Nat → Except Stop (Option Nat × Process)
  | 0, _, _, _ => .error .rounds
  | k + 1, p, prevp, q =>
      if p.heap.size q ≥ nunits then
        .ok (some (p.heap.allocAt prevp q nunits).1,
          { p with heap := (p.heap.allocAt prevp q nunits).2 })
      else if p.heap.freep = some q then
        match p.morecore nunits room with
        | .error e => .error e
        | .ok (none, p) => .ok (none, p)
        | .ok (some q, p) => mallocLoop nunits room k p q (p.heap.ptr q)
      else
        mallocLoop nunits room k p q (p.heap.ptr q)

/-- `malloc`; the header of the block returned, or null. -/
def malloc (p : Process) (nbytes : Nat) (room : Bool) : Except Stop (Option Nat × Process) :=
  let prevp := p.heap.start.1
  let p := { p with heap := p.heap.start.2 }
  mallocLoop (Heap.nunits nbytes) room (2 * p.heap.rounds) p prevp (p.heap.ptr prevp)

end Process

/-! ## The kernel -/

open Vm in
/-- A process with frames of its own is no larger than the memory above `KERNBASE`. -/
theorem size_le_memory {m : Memory} {root sz : Nat} (hspace : AddressSpace m root sz)
    (hend : KERNBASE ≤ m.kernelEnd) : sz ≤ MEMORY := by
  obtain ⟨t, -, -, ha⟩ := hspace
  have hnodup : (frames t 0 (pages sz)).Nodup := by
    refine List.nodup_iff_count_le_one.2 fun q => ?_
    have hone := ha.one q
    simp only [spaceOwn] at hone
    omega
  have hsub : frames t 0 (pages sz) ⊆ List.range' KERNBASE (PHYSTOP - KERNBASE) := by
    intro q hq
    have hpos := List.count_pos_iff.2 hq
    have hreal := ha.real q (by simp only [spaceOwn]; omega)
    rw [List.mem_range'_1]
    omega
  have hlen := (hnodup.subperm hsub).length_le
  have hframes : (frames t 0 (pages sz)).length = pages sz := by simp [frames]
  rw [hframes, List.length_range'] at hlen
  simp only [pages, PGSIZE, PHYSTOP, KERNBASE] at hlen
  simp only [MEMORY, PGSIZE, PHYSTOP, KERNBASE]
  omega

open Vm in
/-- `growproc` on the page tables leaves the size that `newSize` gives. -/
theorem growproc_newSize {s : System} {root : Nat} (n : Int32)
    (hpt : (s.task s.cur).pagetable = some root)
    (hspace : AddressSpace s.mem root (s.task s.cur).sz.toNat)
    (hend : KERNBASE ≤ s.mem.kernelEnd) :
    ∃ room r s', growproc n s = .ok (r, s') ∧ match newSize (s.task s.cur).sz n room with
      | none => r = -1 ∧ s'.task = s.task
      | some sz => r = 0 ∧ s'.task = Function.update s.task s.cur { s.task s.cur with sz := sz } := by
  by_cases hpos : 0 < n
  · obtain ⟨r, s', hret, hrefused | ⟨hr, hsized, hkernel⟩⟩ := (growproc_grow hpt hspace hpos).returns
    · refine ⟨false, r, s', hret, ?_⟩
      simp only [newSize, if_pos hpos, Bool.false_eq_true, false_and, if_false]
      exact ⟨hrefused.1, hrefused.2.task⟩
    · have hmem := size_le_memory hsized.space (hkernel ▸ hend)
      refine ⟨true, r, s', hret, ?_⟩
      simp only [newSize, if_pos hpos, true_and, if_pos hmem]
      exact ⟨hr, hsized.task⟩
  by_cases hneg : n < 0
  · by_cases hn : 0 ≤ ((s.task s.cur).sz.toNat : Int) + n.toInt
    · obtain ⟨r, s', hret, hr, hsized⟩ := (growproc_shrink hpt hspace hneg hn).returns
      have hsum := toNat_newsz hspace.lt hn
      have hlt := Int32.lt_iff_toInt_lt.1 hneg
      rw [Int32.toInt_zero] at hlt
      have hless : ¬(s.task s.cur).sz ≤ (s.task s.cur).sz + n.toInt64.toUInt64 := by
        rw [UInt64.le_iff_toNat_le]
        omega
      refine ⟨true, r, s', hret, ?_⟩
      simp only [newSize, if_neg hpos, if_pos hneg, if_neg hless]
      exact ⟨hr, hsized.task⟩
    · -- the sum has wrapped
      have hge := Int32.le_toInt n
      have hext := toNat_extend n
      have hlt := Int32.lt_iff_toInt_lt.1 hneg
      rw [Int32.toInt_zero] at hlt
      have hwrap : (s.task s.cur).sz ≤ (s.task s.cur).sz + n.toInt64.toUInt64 := by
        rw [UInt64.le_iff_toNat_le, UInt64.toNat_add]
        omega
      refine ⟨true, 0, _, growproc_below hpt hneg (by omega), ?_⟩
      simp only [newSize, if_neg hpos, if_pos hneg, if_pos hwrap]
      exact ⟨trivial, rfl⟩
  · refine ⟨true, 0, _, growproc_nothing hpos hneg, ?_⟩
    simp only [newSize, if_neg hpos, if_neg hneg]
    exact ⟨trivial, rfl⟩

open Vm in
/-- The process gives one byte back. -/
theorem growproc_newSize_one : ∃ r s', growproc (-1) (solo []) = .ok (r, s') ∧ r = 0 ∧
    (s'.task (solo []).cur).sz = 4095 := by
  have hcur := solo_cur []
  have hpt : ((solo []).task (solo []).cur).pagetable = some 0x80020 := congrArg Task.pagetable hcur
  have hsz : ((solo []).task (solo []).cur).sz = 4096 := congrArg Task.sz hcur
  have hmem := memories_solo (by decide : ([] ++ soloUsed).Nodup) fun _ hp => absurd hp List.not_mem_nil
  obtain ⟨room, r, s', hret, hcase⟩ := growproc_newSize (-1) hpt (hmem.addressSpace hpt) (by decide)
  have hnew : newSize 4096 (-1) room = some 4095 := by cases room <;> decide
  rw [hsz, hnew] at hcase
  exact ⟨r, s', hret, hcase.1, by rw [hcase.2, Function.update_self]⟩

/-! ## What the calls leave alone -/

variable {h h' : Heap} {F G : List Nat} {p p' : Process} {k : Nat}

/-- The heap lies below the size of the process, which lies in physical memory. -/
structure Within (p : Process) : Prop where
  top : p.heap.top ≤ p.sz.toNat
  total : p.heap.total ≤ p.sz.toNat
  memory : p.sz.toNat ≤ MEMORY

theorem Within.of_same (hw : Within p) (htop : h.top = p.heap.top)
    (hregions : h.regions = p.heap.regions) : Within { p with heap := h } where
  top := htop.le.trans hw.top
  total := (congrArg (fun l => (l.map Prod.snd).sum) hregions).le.trans hw.total
  memory := hw.memory

theorem start_memory (h : Heap) : h.start.2.top = h.top ∧ h.start.2.regions = h.regions := by
  unfold Heap.start
  cases h.freep <;> exact ⟨rfl, rfl⟩

theorem allocAt_memory (h : Heap) (prevp q k : Nat) :
    (h.allocAt prevp q k).2.top = h.top ∧ (h.allocAt prevp q k).2.regions = h.regions := by
  unfold Heap.allocAt
  split <;> exact ⟨rfl, rfl⟩

theorem join_memory (h : Heap) (bp q : Nat) : ((h.joinUpper bp q).joinLower bp q).top = h.top ∧
      ((h.joinUpper bp q).joinLower bp q).regions = h.regions := by
  have hupper : (h.joinUpper bp q).top = h.top ∧ (h.joinUpper bp q).regions = h.regions := by
    unfold Heap.joinUpper
    split <;> exact ⟨rfl, rfl⟩
  rw [← hupper.1, ← hupper.2]
  unfold Heap.joinLower
  split <;> exact ⟨rfl, rfl⟩

theorem free_memory {bp : Nat} (hfree : h.free bp = some h') :
    h'.top = h.top ∧ h'.regions = h.regions := by
  rcases Option.bind_eq_some_iff.1 hfree with ⟨start, -, hfree⟩
  rcases Option.bind_eq_some_iff.1 hfree with ⟨q, -, hfree⟩
  rw [← Option.some.inj hfree]
  exact join_memory h bp q

/-! ## `malloc` -/

theorem MEMORY_eq : MEMORY = 2 ^ 27 := rfl

theorem bytes_toInt {n : Nat} (hn : 0 < n) (hint : n * HEADER < 2 ^ 31) :
    (Int32.ofNat (n * HEADER)).toInt = n * HEADER ∧ 0 < Int32.ofNat (n * HEADER) := by
  have hval : (Int32.ofNat (n * HEADER)).toInt = n * HEADER := Int32.toInt_ofNat_of_lt hint
  refine ⟨hval, ?_⟩
  rw [Int32.lt_iff_toInt_lt, hval, Int32.toInt_zero]
  exact_mod_cast Nat.mul_pos hn (by decide)

/-- The sum that `growproc` forms for the bytes of `n` headers. -/
theorem newSize_grow {sz : UInt64} {n : Nat} (hsz : sz.toNat ≤ MEMORY) (hn : 0 < n)
    (hint : n * HEADER < 2 ^ 31) {room : Bool} {sz' : UInt64}
    (hnew : newSize sz (Int32.ofNat (n * HEADER)) room = some sz') :
    sz'.toNat = sz.toNat + n * HEADER ∧ sz'.toNat ≤ MEMORY := by
  obtain ⟨hval, hlt⟩ := bytes_toInt hn hint
  have hsum := Vm.toNat_newsz (n := Int32.ofNat (n * HEADER))
    (show sz.toNat < 2 ^ 63 by rw [MEMORY_eq] at hsz; omega) (by rw [hval]; positivity)
  rw [hval] at hsum
  rw [newSize, if_pos hlt] at hnew
  split at hnew
  · next hroom =>
      rw [← Option.some.inj hnew]
      exact ⟨by exact_mod_cast hsum, hroom.2⟩
  · exact nomatch hnew

/-- `morecore` fails and changes nothing, or the list has a block of the size asked for and the process
has the memory. -/
theorem Process.morecore_spec (hr : Ready p.heap F G) (hw : Within p) {nu : Nat}
    (hint : nu * HEADER < 2 ^ 31) (room : Bool) :
    p.morecore nu room = .ok (none, p) ∨
      ∃ q p' F' n, p.morecore nu room = .ok (some q, p') ∧ p'.heap.freep = some q ∧ nu ≤ n ∧
        Extended p.heap p'.heap F F' G p.sz.toNat n ∧ Within p' := by
  obtain ⟨n, hn⟩ : ∃ n, n = if nu < 4096 then 4096 else nu := ⟨_, rfl⟩
  have hle : nu ≤ n ∧ 0 < n ∧ n * HEADER < 2 ^ 31 := by
    rw [hn]
    simp only [HEADER] at hint ⊢
    split <;> omega
  obtain ⟨hint', hlt⟩ := bytes_toInt hle.2.1 hle.2.2
  have hval : (Int32.ofNat (n * HEADER)).toInt.toNat = n * HEADER := by
    rw [hint']
    rfl
  rw [Process.morecore, ← hn]
  cases hnew : newSize p.sz (Int32.ofNat (n * HEADER)) room with
  | none =>
    left
    simp only [Process.sbrk, hnew]
  | some sz =>
    right
    rcases newSize_grow hw.memory hle.2.1 hle.2.2 hnew with ⟨hsz, hmem⟩
    have htotal := hw.total
    have hbound : p.heap.total + n * HEADER < 2 ^ 31 := by
      rw [MEMORY_eq] at hmem
      omega
    rcases hr.extend hle.2.1 hbound hw.top with ⟨q, h', F', hfree, hq, hext⟩
    have hsbrk : p.sbrk (Int32.ofNat (n * HEADER)) room =
        some (p.sz.toNat, ⟨p.heap.extend p.sz.toNat n, sz⟩) := by
      simp only [Process.sbrk, hnew, if_pos hlt, hval]
      rfl
    -- the header is below the new size, so its page is mapped
    have hmapped : Process.mapped ⟨p.heap.extend p.sz.toNat n, sz⟩ p.sz.toNat = true := by
      have hpos := hle.2.1
      simp only [Process.mapped, decide_eq_true_eq, hsz, Vm.pages, Vm.PGSIZE, HEADER]
      omega
    refine ⟨q, ⟨h', sz⟩, F', n, ?_, hq, hle.1, hext, ?_, ?_, hmem⟩
    · simp only [hsbrk, hmapped, hfree, hq, if_true]
    · exact (hext.top.trans hsz.symm).le
    · rw [hext.total, hsz]
      omega

/-- The loop returns, with memory of the process or null. -/
theorem Process.mallocLoop_spec (hr : Ready p.heap F G) (hw : Within p) {fp : Nat}
    (hfp : p.heap.freep = some fp) (hk : 0 < k) (hint : k * HEADER < 2 ^ 31) (room : Bool) :
    ∃ r p', Process.mallocLoop k room (2 * p.heap.rounds) p fp (p.heap.ptr fp) = .ok (r, p') ∧
      Served p.heap p'.heap G k r ∧ Within p' := by
  have hskip : ∀ (p : Process) n prevp q, ¬k ≤ p.heap.size q → ¬p.heap.freep = some q →
      Process.mallocLoop k room (n + 1) p prevp q =
        Process.mallocLoop k room n p q (p.heap.ptr q) := by
    intro p n prevp q hle hnot
    rw [Process.mallocLoop, if_neg hle, if_neg hnot]
  have htake : ∀ (p : Process) n prevp, k ≤ p.heap.size (p.heap.ptr prevp) →
      Process.mallocLoop k room (n + 1) p prevp (p.heap.ptr prevp) =
        .ok (some (p.heap.allocAt prevp (p.heap.ptr prevp) k).1,
          { p with heap := (p.heap.allocAt prevp (p.heap.ptr prevp) k).2 }) := by
    intro p n prevp hle
    rw [Process.mallocLoop, if_pos hle]
  have hrounds := hr.cut.length_lt_rounds
  rcases hr.around hfp with ⟨l, hlead, hperm, hnot⟩
  have hlen : l.length = F.length := Nat.succ.inj hperm.length_eq
  rcases walk_once (fun n prevp q => Process.mallocLoop k room n p prevp q) (hskip p) hlead hfp hnot
    (n := 2 * p.heap.rounds) (by omega) with ⟨q, hq, hle, m, hrun⟩ | ⟨hall, prevp, hrun⟩
  · have hmem := allocAt_memory p.heap q (p.heap.ptr q) k
    exact ⟨_, _, hrun.trans (htake p m q hle), hr.take (hperm.mem_iff.1 hq) hk hle,
      hw.of_same hmem.1 hmem.2⟩
  · have hsmall : ¬k ≤ p.heap.size fp :=
      Nat.not_le_of_lt (hall fp (List.mem_append_right l (List.mem_singleton_self fp)))
    rw [hrun, Process.mallocLoop, if_neg hsmall, if_pos hfp]
    rcases Process.morecore_spec hr hw hint room with
      hmore | ⟨q, p', F', n, hmore, hfp', hn, hext, hw'⟩
    · rw [hmore]
      exact ⟨none, p, rfl, ⟨⟨F, hr⟩, (fun q hq => nomatch hq),
        ⟨rfl, rfl, fun _ _ => rfl, fun x hx => Or.inr hx⟩⟩, hw⟩
    · rw [hmore]
      -- the second time around there is a block to find
      rcases hext.ready.around hfp' with ⟨l', hlead', hperm', hnot'⟩
      have hl' : l'.length = F'.length := Nat.succ.inj hperm'.length_eq
      have hlen' := hext.length
      rcases walk_once (fun n prevp q => Process.mallocLoop k room n p' prevp q) (hskip p') hlead'
        hfp' hnot' (n := 2 * p.heap.rounds - l.length - 1) (by omega) with
        ⟨q', hq', hle, m, hrun'⟩ | ⟨hall', -⟩
      · have hs := hext.ready.take (hperm'.mem_iff.1 hq') hk hle
        have hmem := allocAt_memory p'.heap q' (p'.heap.ptr q') k
        exact ⟨_, _, hrun'.trans (htake p' m q' hle),
          ⟨hs.ready, hs.size, hext.kept.trans hs.kept⟩, hw'.of_same hmem.1 hmem.2⟩
      · rcases hext.room with ⟨a, ha, hroom⟩
        have hmem : a ∈ q :: l' := hperm'.mem_iff.2 (List.mem_cons_of_mem _ ha)
        have hless := hall' a (by simpa [or_comm] using hmem)
        omega

/-- The heap is in order, and lies in the memory of the process. -/
structure Inside (p : Process) : Prop extends Within p where
  sound : Sound p.heap

theorem Process.malloc_spec (hp : Inside p) {nbytes : Nat}
    (hint : Heap.nunits nbytes * HEADER < 2 ^ 31) (room : Bool) :
    ∃ r p', p.malloc nbytes room = .ok (r, p') ∧
      Served p.heap p'.heap p.heap.used (Heap.nunits nbytes) r ∧ Within p' := by
  have hstart := start_memory p.heap
  have hw : Within { p with heap := p.heap.start.2 } := hp.toWithin.of_same hstart.1 hstart.2
  rcases hp.sound.list with ⟨hfreep, hregions, hlive, htop⟩ | ⟨F, hr⟩
  · rcases start_ready hfreep hregions htop with ⟨hr, hkept, hfp⟩
    rcases Process.mallocLoop_spec hr hw hfp (nunits_pos nbytes) hint room with
      ⟨r, p', hrun, hserved, hw'⟩
    have hused : p.heap.used = [] := by rw [Heap.used, hlive, List.map_nil]
    rw [hused]
    exact ⟨r, p', hrun, ⟨hserved.ready, hserved.size, hkept.trans hserved.kept⟩, hw'⟩
  · rcases hr.freep with ⟨fp, -, hfp⟩
    have heq : p.heap.start = (fp, p.heap) := by rw [Heap.start, hfp]
    rcases Process.mallocLoop_spec hr hp.toWithin hfp (nunits_pos nbytes) hint room with
      ⟨r, p', hrun, hserved, hw'⟩
    refine ⟨r, p', ?_, hserved, hw'⟩
    rw [Process.malloc, heq]
    exact hrun

/-! ## Sequences of calls -/

namespace Process

inductive Call
  | malloc (nbytes : UInt32) (room : Bool)
  /-- `free` of the pointer to an allocated block -/
  | free (ap : Nat)
  /-- `sbrk` by the program itself -/
  | sbrk (n : Int32) (room : Bool)
  deriving DecidableEq

def step (p : Process) : Call → Option Process
  | .malloc nbytes room =>
      match p.malloc nbytes.toNat room with
      | .error _ => none
      | .ok (r, p) => some { p with heap := p.heap.give nbytes.toNat r }
  | .free ap => (p.heap.step (.free ap)).map fun h => { p with heap := h }
  | .sbrk n room =>
      match newSize p.sz n room with
      | none => some p
      | some sz => some { p with sz := sz }

/-- A program of size `sz` that has not yet called `malloc`. -/
def boot (base : Nat) (ptr size : Nat → Nat) (sz : UInt64) : Process :=
  ⟨Heap.boot base ptr size, sz⟩

/-- The bytes of the request are an `int`, and the program does not give memory back. -/
def Call.Fits : Call → Prop
  | .malloc nbytes _ => Heap.nunits nbytes.toNat * HEADER < 2 ^ 31
  | .free _ => True
  | .sbrk n _ => 0 ≤ n

instance (c : Call) : Decidable c.Fits :=
  match c with
  | .malloc nbytes _ => inferInstanceAs (Decidable (Heap.nunits nbytes.toNat * HEADER < 2 ^ 31))
  | .free _ => inferInstanceAs (Decidable True)
  | .sbrk n _ => inferInstanceAs (Decidable (0 ≤ n))

end Process

def processMachine : Machine Process Process.Call where
  step := Process.step

/-- A process that asks for no less than nothing does not get smaller. -/
theorem newSize_le {sz sz' : UInt64} {n : Int32} {room : Bool} (hsz : sz.toNat ≤ MEMORY)
    (hn : 0 ≤ n) (hnew : newSize sz n room = some sz') :
    sz.toNat ≤ sz'.toNat ∧ sz'.toNat ≤ MEMORY := by
  have hge : 0 ≤ n.toInt := by
    have hle := Int32.le_iff_toInt_le.1 hn
    rwa [Int32.toInt_zero] at hle
  have hsum := Vm.toNat_newsz (n := n) (show sz.toNat < 2 ^ 63 by rw [MEMORY_eq] at hsz; omega)
    (by omega)
  have hneg : ¬n < 0 := by
    rw [Int32.lt_iff_toInt_lt, Int32.toInt_zero]
    omega
  rw [newSize, if_neg hneg] at hnew
  split at hnew
  · split at hnew
    · next hroom =>
        rw [← Option.some.inj hnew]
        exact ⟨by omega, hroom.2⟩
    · exact nomatch hnew
  · rw [← Option.some.inj hnew]
    exact ⟨Nat.le_refl _, hsz⟩

theorem inside_boot {base : Nat} (ptr size : Nat → Nat) {sz : UInt64}
    (hbase : base + HEADER ≤ sz.toNat) (hsz : sz.toNat ≤ MEMORY) :
    Inside (Process.boot base ptr size sz) :=
  ⟨⟨hbase, Nat.zero_le _, hsz⟩, sound_boot base ptr size⟩

theorem give_memory (h : Heap) (nbytes : Nat) (r : Option Nat) :
    (h.give nbytes r).top = h.top ∧ (h.give nbytes r).regions = h.regions := by
  cases r <;> exact ⟨rfl, rfl⟩

theorem Inside.step {c : Process.Call} (hp : Inside p) (hstep : p.step c = some p')
    (hfit : c.Fits) : Inside p' := by
  cases c with
  | malloc nbytes room =>
    rcases Process.malloc_spec hp hfit room with ⟨r, t, hrun, hserved, hw⟩
    simp only [Process.step, hrun] at hstep
    rw [← Option.some.inj hstep]
    have hmem := give_memory t.heap nbytes.toNat r
    exact ⟨hw.of_same hmem.1 hmem.2, hserved.sound hp.sound⟩
  | free ap =>
    rcases Option.map_eq_some_iff.1 hstep with ⟨h, hfree, rfl⟩
    have hsound := (step_sound hp.sound hfree trivial).1
    cases hfind : p.heap.live.find? fun b => decide (b.addr + HEADER = ap) with
    | none =>
      simp only [Heap.step, hfind] at hfree
      cases hfree
    | some b =>
      simp only [Heap.step, hfind] at hfree
      have hmem := free_memory hfree
      exact ⟨hp.toWithin.of_same hmem.1 hmem.2, hsound⟩
  | sbrk n room =>
    cases hnew : newSize p.sz n room with
    | none =>
      simp only [Process.step, hnew] at hstep
      exact Option.some.inj hstep ▸ hp
    | some sz =>
      simp only [Process.step, hnew] at hstep
      rw [← Option.some.inj hstep]
      have hle := newSize_le hp.memory hfit hnew
      exact ⟨⟨hp.top.trans hle.1, hp.total.trans hle.1, hle.2⟩, hp.sound⟩

end Xv6Schedulers.Malloc
