import Xv6Schedulers.Vm.Clone
import Xv6Schedulers.Vm.FlatMemory
import Xv6Schedulers.Vm.Lifecycle
import Xv6Schedulers.Vm.Program

/-!
# Loading — the address space that `exec` builds

* `Image m root tf t sz`: a page table with `sz` bytes of user memory, all open to user code.
* `Fills m t n m'`: only the user pages of the table were written.
* `loadSegments_spec`, `makeStack_spec`, `prepare_spec`: each stage of `exec` leaves an image that the
  label `bad` can take apart.
-/

namespace Xv6Schedulers.Vm

open Lib Exec Kernel List
open Fs (Entry)

/-! ## Flags -/

theorem and_flags (w : UInt64) {f : UInt64} (h : 0x3FF &&& f = f) : w &&& f = pteFlags w &&& f := by
  rw [pteFlags, UInt64.and_assoc, h]

theorem and_entry (p : Nat) {perm f : UInt64} (hperm : perm.toNat < 1024) (h : 0x3FF &&& f = f) :
    (pa2pte p ||| perm ||| PTE_V) &&& f = (perm ||| PTE_V) &&& f := by
  rw [UInt64.or_assoc, and_flags _ h, pteFlags_entry p (flags_lt hperm)]

theorem and_or_ne {a f : UInt64} (h : a &&& f ≠ 0) (b : UInt64) : (a ||| b) &&& f ≠ 0 := by
  intro hz
  refine h (UInt64.toNat_inj.1 ?_)
  have hnat := congrArg UInt64.toNat hz
  rw [UInt64.toNat_and, UInt64.toNat_or, Nat.and_or_distrib_right] at hnat
  rw [UInt64.toNat_and]
  exact (Nat.or_eq_zero_iff.1 hnat).1

theorem pte2pa_clear (w : UInt64) : pte2pa (w &&& ~~~PTE_U) = pte2pa w := by
  have hshift : (w &&& ~~~PTE_U) >>> 10 = w >>> 10 := by
    refine UInt64.toBitVec_inj.1 ?_
    rw [UInt64.toBitVec_shiftRight, UInt64.toBitVec_shiftRight, UInt64.toBitVec_and, UInt64.toBitVec_not]
    show (w.toBitVec &&& ~~~(16#64)) >>> 10 = w.toBitVec >>> 10
    have hmask : ∀ j < 64, 10 ≤ j → (~~~(16#64)).getLsbD j = true := by decide
    ext i hi
    rw [BitVec.getElem_ushiftRight, BitVec.getElem_ushiftRight, BitVec.getLsbD_and]
    cases hbit : w.toBitVec.getLsbD (10 + i) with
    | false => rfl
    | true => exact hmask _ (BitVec.lt_of_getLsbD hbit) (by omega)
  rw [pte2pa, pte2pa, hshift]

theorem flags_clear (w : UInt64) : pteFlags (w &&& ~~~PTE_U) = pteFlags w &&& ~~~PTE_U := by
  rw [pteFlags, pteFlags, UInt64.and_assoc, UInt64.and_comm (~~~PTE_U), ← UInt64.and_assoc]

/-! ## User pages of a process -/

section Frames

variable {m m' : Memory} {root tf n : Nat} {t : Table 2}

theorem UserTable.leafPte (h : UserTable m root tf t n) (ha : Apart m (spaceOwn t n)) (a : Nat) :
    leafPte m root a = entry t (a / PGSIZE) :=
  leafPte_eq h.tree (ha.mono fun _ => Nat.le_add_right _ _) a

theorem UserTable.page_lt (h : UserTable m root tf t n) (ha : Apart m (spaceOwn t n)) {a : Nat}
    (hp : UserPage m root a) : a / PGSIZE < n := by
  obtain ⟨hmax, hvalid, huser⟩ := hp
  rw [h.leafPte ha] at hvalid huser
  have hslot := Vm.page_lt hmax
  by_contra hge
  rcases Nat.lt_or_ge (a / PGSIZE) TOP with hlt | htop
  · rw [h.space.high _ (by omega) hlt] at hvalid
    exact hvalid (by decide)
  · rcases (by omega : a / PGSIZE = TOP ∨ a / PGSIZE = TOP + 1 ∨ TOP + 2 ≤ a / PGSIZE) with heq | heq | hbig
    · rw [heq, h.trapframe, and_entry _ (by decide) (by decide)] at huser
      exact huser (by decide)
    · rw [heq, h.trampoline, and_entry _ (by decide) (by decide)] at huser
      exact huser (by decide)
    · rw [h.beyond _ (by simp only [TOP] at hbig; omega) hslot] at hvalid
      exact hvalid (by decide)

theorem frames_inj (hone : ∀ q, (frames t 0 n).count q ≤ 1) {u v : Nat} (hu : u < n) (hv : v < n)
    (h : pte2pa (entry t u) = pte2pa (entry t v)) : u = v := by
  have hnodup : (frames t 0 n).Nodup := nodup_iff_count_le_one.2 hone
  refine inj_on_of_nodup_map hnodup ?_ ?_ h
  · exact mem_range'_1.2 ⟨Nat.zero_le u, by omega⟩
  · exact mem_range'_1.2 ⟨Nat.zero_le v, by omega⟩

theorem UserTable.userFrames (h : UserTable m root tf t n) (ha : Apart m (spaceOwn t n))
    (hk : 0 < m.kernelEnd) : UserFrames m root := by
  have hpos : ∀ {a}, UserPage m root a → 0 < (frames t 0 n).count (frame m root a) := by
    intro a hp
    rw [frame, h.leafPte ha]
    exact frame_count_pos (Nat.zero_le _) (by
      have hlt := h.page_lt ha hp
      omega)
  have hone : ∀ q, t.holds q + (frames t 0 n).count q ≤ 1 := fun q => by
    have hq := ha.one q
    simp only [spaceOwn] at hq
    omega
  refine ⟨fun a b hpa hpb heq => ?_, fun a hp htable => ?_, fun a hp => ?_⟩
  · rw [frame, frame, h.leafPte ha, h.leafPte ha] at heq
    exact frames_inj (fun q => by
      have hq := hone q
      omega) (h.page_lt ha hpa) (h.page_lt ha hpb) heq
  · have hcount := tablesFrom_count h.tree.root h.tree.kept (fun q hq => ha.lt (by
      simp only [spaceOwn]
      omega)) (frame m root a)
    have hmem := count_pos_iff.2 htable
    have hq := hone (frame m root a)
    have hp' := hpos hp
    rw [tables] at hmem
    omega
  · have hreal := (ha.real (frame m root a) (by
      have hp' := hpos hp
      simp only [spaceOwn]
      omega)).1
    omega

end Frames

/-! ## Writing user pages -/

/-- Only the frames of the first `n` pages were written. -/
structure Fills (m : Memory) (t : Table 2) (n : Nat) (m' : Memory) : Prop where
  freelist : m'.freelist = m.freelist
  kernelEnd : m'.kernelEnd = m.kernelEnd
  trampoline : m'.trampoline = m.trampoline
  page : ∀ q, (frames t 0 n).count q = 0 → m'.page q = m.page q

section Fills

variable {m m' m'' : Memory} {root tf n : Nat} {t : Table 2}

theorem Fills.refl (m : Memory) (t : Table 2) (n : Nat) : Fills m t n m :=
  ⟨rfl, rfl, rfl, fun _ _ => rfl⟩

theorem Fills.trans (h₁ : Fills m t n m') (h₂ : Fills m' t n m'') : Fills m t n m'' where
  freelist := h₂.freelist.trans h₁.freelist
  kernelEnd := h₂.kernelEnd.trans h₁.kernelEnd
  trampoline := h₂.trampoline.trans h₁.trampoline
  page q hq := (h₂.page q hq).trans (h₁.page q hq)

theorem Fills.setPage {u : Nat} (hu : u < n) (v : Page) :
    Fills m t n (m.setPage (pte2pa (entry t u)) v) where
  freelist := rfl
  kernelEnd := rfl
  trampoline := rfl
  page q hq := by
    have hne : q ≠ pte2pa (entry t u) := by
      rintro rfl
      have hpos := frame_count_pos (t := t) (Nat.zero_le u) (show u < 0 + n by omega)
      omega
    exact Function.update_of_ne hne v m.page

theorem Fills.moves (h : Fills m t n m') : Moves m (spaceOwn t n) m' (spaceOwn t n) where
  count q := by rw [h.freelist]
  frame q hq := h.page q (by
    simp only [spaceOwn] at hq
    omega)
  kernelEnd := h.kernelEnd
  trampoline := h.trampoline

theorem Fills.table (h : Fills m t n m') (hu : UserTable m root tf t n) (ha : Apart m (spaceOwn t n)) :
    UserTable m' root tf t n := by
  refine hu.congr (fun q hq => h.page q ?_) h.trampoline
  have hone := ha.one q
  simp only [spaceOwn] at hone
  omega

theorem page_ext {a b : Page} (h : ∀ i < PGSIZE, byteAt a i = byteAt b i) : a = b := by
  funext w
  refine UInt64.toNat_inj.1 ?_
  have hvalue : ∀ pg : Page, (pg w).toNat = Bytes.value (fun j => byteAt pg (8 * w.val + j)) 8 := by
    intro pg
    have hdigits : (pg w).toNat = Bytes.value (Bytes.digits (pg w).toNat) 8 := by
      rw [Bytes.value_digits]
      exact (Nat.mod_eq_of_lt (pg w).toNat_lt).symm
    refine hdigits.trans (Bytes.value_congr fun j hj => ?_)
    have hdiv : (8 * w.val + j) / 8 = w.val := by omega
    have hmod : (8 * w.val + j) % 8 = j := by omega
    rw [byteAt, hdiv, hmod, Fin.ofNat_val_eq_self]
  rw [hvalue a, hvalue b]
  refine Bytes.value_congr fun j hj => h _ ?_
  have hw := w.isLt
  simp only [PGSIZE]
  omega

theorem copyout_fills (h : UserTable m root tf t n) (ha : Apart m (spaceOwn t n)) (hk : 0 < m.kernelEnd)
    (dstva : Nat) (src : List UInt8) :
    ∃ b m', copyout root dstva src m = .ok (b, m') ∧ Fills m t n m' := by
  obtain ⟨k, hk, m', hret, hgood, -, hst, -⟩ :=
    copyoutFrom_spec (h.userFrames ha hk) dstva (Nat.le_refl src.length)
  refine ⟨_, m', hret, hst.freelist, hst.kernelEnd, hst.trampoline, fun q hq => page_ext fun i hi => ?_⟩
  refine hst.same q i hi fun j hj heq => ?_
  rw [length_take, Nat.min_eq_left hk] at hj
  have hlt := h.page_lt ha (hgood (dstva + j) (by omega) (by omega)).1
  have hpos := frame_count_pos (t := t) (Nat.zero_le _) (show (dstva + j) / PGSIZE < 0 + n by omega)
  rw [← h.leafPte ha, ← frame, heq] at hpos
  omega

end Fills

/-! ## Growing an image -/

/-- A page table with `sz` bytes of user memory, all open to user code. -/
structure Image (m : Memory) (root tf : Nat) (t : Table 2) (sz : Nat) : Prop where
  table : UserTable m root tf t (pages sz)
  user : ∀ u < pages sz, entry t u &&& PTE_U ≠ 0

/-- What `uvmalloc` made of an image: `r` is what it returned. -/
structure Grown (m : Memory) (root tf : Nat) (t : Table 2) (sz newsz : Nat) (xperm : UInt64) (r : Nat)
    (m' : Memory) (t' : Table 2) : Prop where
  image : Image m' root tf t' (if r = 0 then sz else r)
  moves : Moves m (spaceOwn t (pages sz)) m' (spaceOwn t' (pages (if r = 0 then sz else r)))
  size : r ≠ 0 → r = max sz newsz
  same : ∀ u < pages sz, entry t' u = entry t u
  new : ∀ u, pages sz ≤ u → u < pages (if r = 0 then sz else r) →
    ∃ p < 2 ^ 52, entry t' u = pa2pte p ||| (PTE_R ||| PTE_U ||| xperm) ||| PTE_V

section Grown

variable {m : Memory} {root tf sz newsz : Nat} {t : Table 2} {xperm : UInt64} {E : Prop}

theorem phystop_top : PHYSTOP + PHYSTOP < TOP := by decide

theorem grown_undone {m' : Memory} {t' : Table 2} {perm : Nat → UInt64} {pg : Nat → Page} {n : Nat}
    (h : Image m root tf t sz)
    (hA : Allocated m root t perm pg (pages sz) (pages sz) n false m' t') :
    Grown m root tf t sz newsz xperm 0 m' t' := by
  have hentry : ∀ u < SLOTS, entry t' u = entry t u := fun u hu => by
    rw [hA.clear rfl u hu, if_neg (by omega)]
  have hs := h.table.space
  have hmoves : Moves m (fun q => t.holds q) m' fun q => t'.holds q :=
    (hA.back rfl).congr (fun q => by
      rw [Nat.sub_self]
      rfl) fun _ => rfl
  have hframes : frames t' 0 (pages sz) = frames t 0 (pages sz) :=
    frames_congr fun u _ hu => hentry u (hs.lt_slots (by omega))
  constructor
  · refine ⟨h.table.edit hA.tree (hs.congr hentry) hmoves.trampoline fun u hu _ => hentry u hu, ?_⟩
    intro u hu
    rw [hentry u (hs.lt_slots hu)]
    exact h.user u hu
  · refine (hmoves.extend fun q => (frames t 0 (pages sz)).count q).congr (fun _ => rfl) fun q => ?_
    rw [if_pos rfl, spaceOwn, hframes]
  · exact fun hno => absurd rfl hno
  · exact fun u hu => hentry u (hs.lt_slots hu)
  · intro u hge hlt
    rw [if_pos rfl] at hlt
    omega

theorem grown_done {m' : Memory} {t' : Table 2} {pg : Nat → Page} (h : Image m root tf t sz)
    (ha : Apart m (spaceOwn t (pages sz))) (hx : xperm.toNat < 1024) (hle : sz ≤ newsz)
    (hA : Allocated m root t (fun _ => PTE_R ||| PTE_U ||| xperm) pg (pages sz) (pages sz)
      (pages newsz - pages sz) true m' t') :
    Grown m root tf t sz newsz xperm newsz m' t' := by
  have hs := h.table.space
  have hpages := pages_mono hle
  have hadd : pages sz + (pages newsz - pages sz) = pages newsz := Nat.add_sub_of_le hpages
  have hsize : pages (if newsz = 0 then sz else newsz) = pages newsz := by
    split
    · rw [show sz = newsz by omega]
    · rfl
  have happ : Apart m fun q => t.holds q := ha.mono fun _ => Nat.le_add_right _ _
  have hfits : pages newsz ≤ TOP := by
    have hphys := frames_le_phystop (happ.moves (hA.moves rfl))
    have hphys' := pages_le_phystop ha
    have htop := phystop_top
    omega
  have hperm : (PTE_R ||| PTE_U ||| xperm).toNat < 1024 := by
    rw [UInt64.toNat_or]
    exact Nat.or_lt_two_pow (n := 10) (by decide) hx
  have hflag : ∀ {f : UInt64}, (PTE_R ||| PTE_U) &&& f ≠ 0 →
      (PTE_R ||| PTE_U ||| xperm ||| PTE_V) &&& f ≠ 0 :=
    fun hf => and_or_ne (and_or_ne hf xperm) PTE_V
  have hne : PTE_R ||| PTE_U ||| xperm ||| PTE_V ≠ PTE_V := fun heq =>
    hflag (f := PTE_U) (by decide) (by rw [heq]; decide)
  have hspace := hs.grow hA (fun _ => hperm) (fun _ _ _ => hne) (by omega)
  have hsame : ∀ u < pages sz, entry t' u = entry t u := fun u hu =>
    hA.same rfl u (hs.lt_slots hu) (Or.inl hu)
  have hnew : ∀ u, pages sz ≤ u → u < pages newsz →
      ∃ p < 2 ^ 52, entry t' u = pa2pte p ||| (PTE_R ||| PTE_U ||| xperm) ||| PTE_V := by
    intro u hge hlt
    obtain ⟨p, hp, hentry, -⟩ := hA.filled rfl u hge (by omega)
    exact ⟨p, hp, hentry⟩
  rw [hadd] at hspace
  constructor
  · refine ⟨?_, ?_⟩
    · rw [hsize]
      exact h.table.edit hA.tree hspace (Allocated.moves hA rfl).trampoline fun u hu hge =>
        hA.same rfl u hu (Or.inr (by omega))
    · intro u hu
      rw [hsize] at hu
      by_cases hold : u < pages sz
      · rw [hsame u hold]
        exact h.user u hold
      · obtain ⟨p, -, hentry⟩ := hnew u (by omega) hu
        rw [hentry, and_entry p hperm (by decide)]
        exact hflag (by decide)
  · have hframes : frames t' 0 (pages sz) = frames t 0 (pages sz) :=
      frames_congr fun u _ hu => hsame u (by omega)
    refine ((hA.moves rfl).extend fun q => (frames t 0 (pages sz)).count q).congr (fun _ => rfl) fun q => ?_
    have hsum := spaceOwn_add t' (pages sz) (pages newsz - pages sz) q
    rw [hadd, hframes] at hsum
    rw [hsize]
    exact hsum
  · exact fun _ => (Nat.max_eq_right hle).symm
  · exact hsame
  · intro u hge hlt
    rw [hsize] at hlt
    exact hnew u hge hlt

/-- `uvmalloc` on an image, for any size: too large a size runs out of memory. -/
theorem uvmalloc_image (h : Image m root tf t sz) (ha : Apart m (spaceOwn t (pages sz)))
    (hx : xperm.toNat < 1024) :
    Ends E (uvmalloc root sz newsz xperm)
      (fun r m' => ∃ t', Grown m root tf t sz newsz xperm r m' t') m := by
  by_cases hle : sz ≤ newsz
  · have happ : Apart m fun q => t.holds q := ha.mono fun _ => Nat.le_add_right _ _
    have hphys := pages_le_phystop ha
    have htop := phystop_top
    have hs := h.table.space
    refine (uvmalloc_spec h.table.tree hx hle hs.fits (Or.inr (by omega)) hs.high happ).mono ?_
    rintro r m' ⟨b, t', hr, hA⟩
    rw [hr]
    cases b with
    | true => exact ⟨t', grown_done h ha hx hle hA⟩
    | false => exact ⟨t', grown_undone h hA⟩
  · have hret : uvmalloc root sz newsz xperm m = .ok (sz, m) := by
      rw [uvmalloc, if_pos (by omega)]
      rfl
    have hnz : sz ≠ 0 := by omega
    refine Ends.of_eq hret ⟨t, ?_⟩
    constructor
    · rw [if_neg hnz]
      exact h
    · rw [if_neg hnz]
      exact Moves.refl m _
    · intro _
      exact (Nat.max_eq_left (by omega)).symm
    · exact fun _ _ => rfl
    · intro u hge hlt
      rw [if_neg hnz] at hlt
      omega

end Grown

/-! ## The host -/

/-- Memory is `m`, and these calls were made. -/
def Host.put (h : Host) (m : Memory) (cs : List FsCall) : Host :=
  ⟨{ h.sys with mem := m }, h.calls ++ cs⟩

/-- Calls that read the inode. -/
def Reads (ip : Entry) (cs : List FsCall) : Prop := ∀ c ∈ cs, ∃ off n, c = .readi ip off n

section Host

variable {h : Host} {m m' : Memory} {cs : List FsCall} {E : Prop} {α : Type}

theorem onMem_put {x : Code α} {a : α} (hx : x m = .ok (a, m')) :
    onSys (onMem x) (h.put m cs) = .ok (a, h.put m' cs) := by
  have hmem : onMem x (h.put m cs).sys = .ok (a, (h.put m' cs).sys) := by
    have hx' : x (h.put m cs).sys.mem = .ok (a, m') := hx
    rw [onMem, Exec.within, hx']
    rfl
  rw [onSys, Exec.within, hmem]
  rfl

theorem onMem_put_ends {x : Code α} {Q : α → Memory → Prop} (hx : Ends E x Q m) :
    Ends E (onSys (onMem x)) (fun a h' => ∃ m', h' = h.put m' cs ∧ Q a m') (h.put m cs) := by
  refine ⟨?_⟩
  cases hr : x m with
  | ok r =>
    rw [onMem_put hr]
    exact ⟨r.2, rfl, hx.of_ok hr⟩
  | error e =>
    have hmem : onMem x (h.put m cs).sys = .error e := by
      have hr' : x (h.put m cs).sys.mem = .error e := hr
      rw [onMem, Exec.within, hr']
    rw [onSys, Exec.within, hmem]
    exact hx.of_error hr

theorem call_put (c : FsCall) : call c (h.put m cs) = .ok ((), h.put m (cs ++ [c])) := by
  rw [call, modify_apply, Host.put, Host.put, append_assoc]

theorem readi_put (f : File) (off n : UInt32) : readi f off n (h.put m cs) =
    .ok (f.read off n, h.put m (cs ++ [.readi f.ip off n])) := by
  rw [readi, bind_ok (call_put _)]
  rfl

theorem Reads.nil (ip : Entry) : Reads ip [] := nofun

theorem Reads.cons {ip : Entry} (off n : UInt32) (hcs : Reads ip cs) : Reads ip (.readi ip off n :: cs) := by
  intro c hc
  rcases mem_cons.1 hc with rfl | hc
  · exact ⟨off, n, rfl⟩
  · exact hcs c hc

theorem Reads.append {ip : Entry} {cs' : List FsCall} (hcs : Reads ip cs) (hcs' : Reads ip cs') :
    Reads ip (cs ++ cs') := by
  intro c hc
  rcases mem_append.1 hc with hc | hc
  · exact hcs c hc
  · exact hcs' c hc

end Host

/-! ## The segments -/

section Segments

variable {h : Host} {m : Memory} {cs : List FsCall} {root tf sz : Nat} {t : Table 2} {f : File} {E : Prop}

theorem size_le (ha : Apart m (spaceOwn t (pages sz))) : sz ≤ 0x88000000 := by
  have hphys := pages_le_phystop ha
  have hstop : PHYSTOP = 0x88000 := rfl
  simp only [pages, PGSIZE] at hphys
  omega

theorem Image.userPage (hi : Image m root tf t sz) (ha : Apart m (spaceOwn t (pages sz))) {a : Nat}
    (hlt : a < sz) : UserPage m root a := by
  have hpage : a / PGSIZE < pages sz := by
    simp only [pages, PGSIZE]
    omega
  have hmax : a < MAXVA := by
    have hsize := size_le ha
    simp only [MAXVA]
    omega
  refine ⟨hmax, ?_, ?_⟩
  · rw [hi.table.leafPte ha]
    exact (hi.table.space.low _ hpage).1
  · rw [hi.table.leafPte ha]
    exact hi.user _ hpage

/-- The loop of `loadseg` writes only user pages of the image. -/
theorem loadPages_spec {offset seg : UInt32} {va : UInt64} (hi : Image m root tf t sz)
    (ha : Apart m (spaceOwn t (pages sz))) (hk : 0 < m.kernelEnd) (hfits : va.toNat + seg.toNat ≤ sz)
    {n k : Nat} {i : UInt32} (hik : i.toNat = k * PGSIZE) (hn : k + n = pages seg.toNat) :
    Ends E (loadPages root va f offset seg n i) (fun _ h' => ∃ m' cs', h' = h.put m' (cs ++ cs') ∧
      Reads f.ip cs' ∧ Fills m t (pages sz) m') (h.put m cs) := by
  induction n generalizing m k i cs with
  | zero => exact Ends.ret ⟨m, [], by rw [append_nil], Reads.nil _, Fills.refl _ _ _⟩
  | succ n ih =>
    have hsize := size_le ha
    have hlt : k * PGSIZE < seg.toNat := by
      simp only [pages, PGSIZE] at hn ⊢
      omega
    have haddr : (va + i.toUInt64).toNat = va.toNat + i.toNat := by
      rw [UInt64.toNat_add, UInt32.toNat_toUInt64]
      omega
    have hpage : UserPage m root (va.toNat + i.toNat) := hi.userPage ha (by omega)
    have hwalk := walkaddr_eq m root (va.toNat + i.toNat)
    rw [if_pos hpage] at hwalk
    have hframe := (hi.table.userFrames ha hk).ram _ hpage
    unfold loadPages
    rw [haddr]
    refine Ends.step (onMem_put hwalk) ?_
    rw [if_neg hframe]
    refine Ends.step (readi_put _ _ _) (Ends.step (onMem_put (modify_apply _ _)) ?_)
    rw [frame, hi.table.leafPte ha]
    generalize (if seg - i < 4096 then seg - i else 4096) = len
    have hfill : ∀ v, Fills m t (pages sz) (m.setPage (pte2pa (entry t ((va.toNat + i.toNat) / PGSIZE))) v) :=
      fun v => Fills.setPage (hi.table.page_lt ha hpage) v
    split
    · exact Ends.ret ⟨_, _, rfl, Reads.cons _ _ (Reads.nil _), hfill _⟩
    · have hi' : ∀ v, Image (m.setPage (pte2pa (entry t ((va.toNat + i.toNat) / PGSIZE))) v) root tf t sz :=
        fun v => ⟨(hfill v).table hi.table ha, hi.user⟩
      have hnext : (i + 4096).toNat = (k + 1) * PGSIZE := by
        rw [UInt32.toNat_add, Nat.succ_mul, hik]
        simp only [PGSIZE] at hlt hik ⊢
        show (k * 4096 + 4096) % 2 ^ 32 = _
        omega
      refine (ih (hi' _) (ha.moves (hfill _).moves) hk hnext (by omega)).mono ?_
      rintro _ _ ⟨m', cs', rfl, hreads, hfills⟩
      refine ⟨m', .readi f.ip (offset + i) len :: cs', ?_, Reads.cons _ _ hreads, (hfill _).trans hfills⟩
      rw [append_assoc]
      rfl

theorem flags2perm_lt (flags : UInt32) : (flags2perm flags).toNat < 1024 := by
  unfold flags2perm
  dsimp only
  split <;> split <;> decide

theorem toNat_sum {a b : UInt64} (h : ¬ a + b < a) : (a + b).toNat = a.toNat + b.toNat := by
  rw [UInt64.lt_iff_toNat_lt, UInt64.toNat_add] at h
  rw [UInt64.toNat_add]
  have ha := a.toNat_lt
  have hb := b.toNat_lt
  omega

/-- An image with other contents or another size, whose pages came from the free list. -/
structure Loaded (m : Memory) (root tf : Nat) (t : Table 2) (sz : Nat) (m' : Memory) (t' : Table 2)
    (sz' : Nat) : Prop where
  image : Image m' root tf t' sz'
  moves : Moves m (spaceOwn t (pages sz)) m' (spaceOwn t' (pages sz'))

theorem Loaded.trans {m₁ m₂ : Memory} {t₁ t₂ : Table 2} {sz₁ sz₂ : Nat}
    (h₁ : Loaded m root tf t sz m₁ t₁ sz₁) (h₂ : Loaded m₁ root tf t₁ sz₁ m₂ t₂ sz₂) :
    Loaded m root tf t sz m₂ t₂ sz₂ :=
  ⟨h₂.image, h₁.moves.trans h₂.moves⟩

theorem loadSegments_spec (hi : Image m root tf t sz) (ha : Apart m (spaceOwn t (pages sz)))
    (hk : 0 < m.kernelEnd) (n : Nat) (off : UInt32) :
    Ends E (loadSegments root f n off sz) (fun r h' => ∃ m' t' cs', h' = h.put m' (cs ++ cs') ∧
      Reads f.ip cs' ∧ Loaded m root tf t sz m' t' r.2) (h.put m cs) := by
  induction n generalizing m t sz off cs with
  | zero =>
    exact Ends.ret ⟨m, t, [], by rw [append_nil], Reads.nil _, hi, Moves.refl m _⟩
  | succ n ih =>
    -- the header is read, and nothing else happens
    have hstop : ∀ b : Bool, ∃ m' t' cs',
        h.put m (cs ++ [.readi f.ip off 56]) = h.put m' (cs ++ cs') ∧
        Reads f.ip cs' ∧ Loaded m root tf t sz m' t' (b, sz).2 := fun b =>
      ⟨m, t, _, rfl, Reads.cons _ _ (Reads.nil _), hi, Moves.refl m _⟩
    -- the rest of the loop, after more calls
    have hrest : ∀ {m₁ : Memory} {t₁ : Table 2} {sz₁ : Nat} {cs₁ : List FsCall},
        Reads f.ip cs₁ → Loaded m root tf t sz m₁ t₁ sz₁ →
        Ends E (loadSegments root f n (off + 56) sz₁) (fun r h' => ∃ m' t' cs',
          h' = h.put m' (cs ++ cs') ∧ Reads f.ip cs' ∧ Loaded m root tf t sz m' t' r.2)
          (h.put m₁ (cs ++ cs₁)) := by
      intro m₁ t₁ sz₁ cs₁ hreads hl
      have hk₁ : 0 < m₁.kernelEnd := by
        rw [hl.moves.kernelEnd]
        exact hk
      refine (ih hl.image (ha.moves hl.moves) hk₁ (off + 56)).mono ?_
      rintro r _ ⟨m', t', cs', rfl, hreads', hl'⟩
      exact ⟨m', t', cs₁ ++ cs', by rw [append_assoc], hreads.append hreads', hl.trans hl'⟩
    have hself : Loaded m root tf t sz m t sz := ⟨hi, Moves.refl m _⟩
    unfold loadSegments
    refine Ends.step (readi_put _ _ _) ?_
    generalize Ph.ofBytes (f.read off 56) = ph
    dsimp only
    split
    · exact Ends.ret (hstop false)
    split
    · exact hrest (Reads.cons _ _ (Reads.nil _)) hself
    split
    · exact Ends.ret (hstop false)
    split
    · exact Ends.ret (hstop false)
    rename_i hmem hsum
    split
    · exact Ends.ret (hstop false)
    refine (onMem_put_ends (uvmalloc_image hi ha (flags2perm_lt ph.flags))).seq ?_
    rintro r _ ⟨m₁, rfl, t₁, hg⟩
    have hl : Loaded m root tf t sz m₁ t₁ (if r = 0 then sz else r) := ⟨hg.image, hg.moves⟩
    split
    · rename_i hr
      rw [if_pos hr] at hl
      exact Ends.ret ⟨m₁, t₁, _, rfl, Reads.cons _ _ (Reads.nil _), hl⟩
    · rename_i hr
      rw [if_neg hr] at hl
      have hfile : ph.vaddr.toNat + ph.filesz.toUInt32.toNat ≤ r := by
        have hle : ph.filesz.toNat ≤ ph.memsz.toNat := by
          rw [UInt64.lt_iff_toNat_lt] at hmem
          omega
        have hsum' := toNat_sum hsum
        have hmax := hg.size hr
        rw [UInt64.toNat_toUInt32]
        omega
      have ha₁ := ha.moves hl.moves
      have hk₁ : 0 < m₁.kernelEnd := by
        rw [hl.moves.kernelEnd]
        exact hk
      refine (loadPages_spec (k := 0) hl.image ha₁ hk₁ hfile (by decide) (Nat.zero_add _)).seq ?_
      rintro b _ ⟨m₂, cs₂, rfl, hreads₂, hfills⟩
      have hl₂ : Loaded m root tf t sz m₂ t₁ r :=
        ⟨⟨hfills.table hl.image.table ha₁, hl.image.user⟩, hl.moves.trans hfills.moves⟩
      rw [append_assoc]
      cases b with
      | true => exact hrest (Reads.cons _ _ hreads₂) hl₂
      | false => exact Ends.ret ⟨m₂, t₁, _, rfl, Reads.cons _ _ hreads₂, hl₂⟩

end Segments

/-! ## The stack -/

section Stack

variable {m : Memory} {root tf sz : Nat} {t : Table 2} {E : Prop}

theorem uvmclear_spec (h : Tree m root t) (ha : Apart m fun q => t.holds q) {v : Nat} (hv : v < VPAGES)
    (hne : entry t v ≠ 0) :
    Ends E (uvmclear root (v * PGSIZE)) (fun _ m' => ∃ t', Tree m' root t' ∧
      Moves m (fun q => t.holds q) m' (fun q => t'.holds q) ∧
      ∀ u < SLOTS, entry t' u = if u = v then entry t v &&& ~~~PTE_U else entry t u) m := by
  obtain ⟨p, i, hslot⟩ := slot_of_entry hne
  have hwalk := walk_dry h ha (lt_maxva hv)
  rw [hslot] at hwalk
  have hget := h.get_slot hslot
  rw [Nat.mul_div_cancel _ (by decide)] at hget
  have hone : ∀ q, t.holds q ≤ 1 := fun q => Nat.le_trans (Nat.le_add_left _ _) (ha.one q)
  unfold uvmclear
  refine Ends.step hwalk (Ends.step hget (Ends.of_eq (modify_apply _ _) ?_))
  refine ⟨t.set (path (v * PGSIZE)) (entry t v &&& ~~~PTE_U), h.set hone hslot _,
    Moves.setWord hslot _, fun u hu => ?_⟩
  exact entry_set (lt_slots hv) (by rw [hslot]; nofun) _ hu

/-- An address space with a stack of one page on top, and below it a page closed to user code. -/
structure Stacked (m : Memory) (root tf : Nat) (t : Table 2) (base : Nat) : Prop where
  table : UserTable m root tf t (base + 2)
  guard : entry t base &&& PTE_U = 0
  user : entry t (base + 1) &&& PTE_U ≠ 0
  write : entry t (base + 1) &&& PTE_W ≠ 0

theorem stack_flags (p : Nat) :
    pteFlags (pa2pte p ||| (PTE_R ||| PTE_U ||| PTE_W) ||| PTE_V) = PTE_R ||| PTE_U ||| PTE_W ||| PTE_V := by
  rw [UInt64.or_assoc, pteFlags_entry p (by decide)]

theorem stacked_of_clear {m₁ m₂ : Memory} {t₁ t₂ : Table 2} {base p p' : Nat}
    (hu : UserTable m₁ root tf t₁ (base + 2))
    (hguard : entry t₁ base = pa2pte p ||| (PTE_R ||| PTE_U ||| PTE_W) ||| PTE_V)
    (hstack : entry t₁ (base + 1) = pa2pte p' ||| (PTE_R ||| PTE_U ||| PTE_W) ||| PTE_V)
    (htree : Tree m₂ root t₂) (hm : Moves m₁ (fun q => t₁.holds q) m₂ fun q => t₂.holds q)
    (hentry : ∀ u < SLOTS, entry t₂ u = if u = base then entry t₁ base &&& ~~~PTE_U else entry t₁ u) :
    Stacked m₂ root tf t₂ base ∧ Moves m₁ (spaceOwn t₁ (base + 2)) m₂ (spaceOwn t₂ (base + 2)) := by
  have hs := hu.space
  have hfits := hs.fits
  have hslot : ∀ u < base + 2, u < SLOTS := fun u hu => hs.lt_slots hu
  have hflags : pteFlags (entry t₁ base &&& ~~~PTE_U) = PTE_R ||| PTE_W ||| PTE_V := by
    rw [flags_clear, hguard, stack_flags]
    decide
  have hbase : entry t₂ base = entry t₁ base &&& ~~~PTE_U := by
    rw [hentry base (hslot base (by omega)), if_pos rfl]
  have hother : ∀ u < SLOTS, u ≠ base → entry t₂ u = entry t₁ u := fun u hu hne => by
    rw [hentry u hu, if_neg hne]
  have htop : entry t₂ (base + 1) = pa2pte p' ||| (PTE_R ||| PTE_U ||| PTE_W) ||| PTE_V := by
    rw [hother (base + 1) (hslot _ (by omega)) (by omega), hstack]
  have hspace : Space t₂ (base + 2) := by
    refine ⟨fun v hv => ?_, fun v hge hlt => ?_, hfits⟩
    · by_cases hvb : v = base
      · rw [hvb, hbase]
        refine ⟨?_, ?_⟩
        · rw [and_flags _ (by decide), hflags]
          decide
        · rw [hflags]
          decide
      · rw [hother v (hslot v hv) hvb]
        exact hs.low v hv
    · rw [hother v (lt_slots (Nat.lt_trans hlt top_lt)) (by omega)]
      exact hs.high v hge hlt
  have hframes : frames t₂ 0 (base + 2) = frames t₁ 0 (base + 2) := by
    refine map_congr_left fun u hu => ?_
    have hlt := (mem_range'_1.1 hu).2
    by_cases hub : u = base
    · rw [hub, hbase, pte2pa_clear]
    · rw [hother u (hslot u (by omega)) hub]
  refine ⟨⟨hu.edit htree hspace hm.trampoline fun u hlt hge => hother u hlt (by omega), ?_, ?_, ?_⟩, ?_⟩
  · rw [hbase, and_flags _ (by decide), hflags]
    decide
  · rw [htop, and_flags _ (by decide), stack_flags]
    decide
  · rw [htop, and_flags _ (by decide), stack_flags]
    decide
  · refine (hm.extend fun q => (frames t₁ 0 (base + 2)).count q).congr (fun _ => rfl) fun q => ?_
    rw [spaceOwn, hframes]

end Stack

end Xv6Schedulers.Vm
