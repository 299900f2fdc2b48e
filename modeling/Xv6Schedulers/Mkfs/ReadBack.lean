import Xv6Schedulers.Fs.Sound
import Xv6Schedulers.Mkfs.Session

/-!
# ReadBack — the kernel reads what `mkfs` wrote

`ilock` and `readi` run over the blocks of an image that `mkfs` made, on an entry of the inode table
that refers to the inode and has not read it yet.

* `readi_reads`: `readi` returns the bytes of the file in the range asked for.
* `read_back`: they are the bytes that the calls of `iappend` were given.
-/

namespace Xv6Schedulers.Mkfs

open Lib Fs Exec List
open Log (BlockNo Block BSIZE)

variable {m m' : Mk} {i : Nat} {c : List UInt8} {w : World} {e : Entry} {α : Type}

/-- Run over the operations of the kernel, `x` does not panic and returns in `Q`. -/
abbrev Reads (x : FsM α) (Q : α → World → Prop) (w : World) : Prop :=
  Prog.wp (handler super) (fun _ => True) (fun _ => False) x Q w

/-- Entry `e` refers to inode `i` of the image and has not read it. -/
structure Opened (w : World) (m : Mk) (i : Nat) (e : Entry) : Prop where
  disk : w.disk = m.data
  inum : (w.tab.inode e).inum = i
  ref : 1 ≤ (w.tab.inode e).ref
  locked : (w.tab.inode e).locked = false
  valid : (w.tab.inode e).valid = false

/-- Entry `e` has the inode `i` of the image. -/
structure Sees (w : World) (m : Mk) (i : Nat) (e : Entry) : Prop where
  disk : w.disk = m.data
  din : (w.tab.inode e).din = m.ino i

namespace Reads

variable {Q : α → World → Prop} {b : BlockNo}

theorem inode {k : Inode → FsM α} (h : Reads (k (w.tab.inode e)) Q w) :
    Reads (Fs.inode e >>= k) Q w :=
  ⟨trivial, h⟩

theorem setInode {k : Unit → FsM α} {ip : Inode} (h : Reads (k ()) Q (w.setInode e ip)) :
    Reads (Fs.setInode e ip >>= k) Q w :=
  ⟨trivial, trivial, h⟩

theorem bread {k : Unit → FsM α} (h : Reads (k ()) Q w) : Reads (Fs.bread b >>= k) Q w :=
  ⟨trivial, h⟩

theorem peek {k : Block → FsM α} (h : Reads (k (w.disk b)) Q w) : Reads (Fs.peek b >>= k) Q w :=
  ⟨trivial, h⟩

theorem brelse {k : Unit → FsM α} (h : Reads (k ()) Q w) : Reads (Fs.brelse b >>= k) Q w :=
  ⟨trivial, h⟩

end Reads

/-! ## `ilock` -/

theorem acquiresleep_reads (hlocked : (w.tab.inode e).locked = false) :
    Reads (acquiresleep e) (fun _ w' => w'.disk = w.disk ∧
      w'.tab.inode e = { w.tab.inode e with locked := true }) w := by
  refine Reads.inode ?_
  rw [hlocked]
  exact ⟨trivial, trivial, rfl, Function.update_self _ _ _⟩

theorem ilock_reads (h : Opened w m i e) (hf : File m i c) :
    Reads (ilock super e) (fun _ w' => Sees w' m i e) w := by
  have hino : m.ino i = Block.dinode (m.data (super.iblock i)) (i % IPB) :=
    image_ino (show i < super.ninodes from hf.lt)
  refine Reads.inode ?_
  rw [if_neg (Int.not_lt.2 h.ref)]
  refine (acquiresleep_reads h.locked).seq ?_
  rintro - w₁ ⟨hdisk, hself⟩
  refine Reads.inode ?_
  have hvalid : (w₁.tab.inode e).valid = false := by
    rw [hself]
    exact h.valid
  have hinum : (w₁.tab.inode e).inum = i := by
    rw [hself]
    exact h.inum
  rw [hvalid, hinum]
  refine Reads.bread (Reads.peek (Reads.brelse ?_))
  rw [hdisk, h.disk, ← hino]
  refine Reads.setInode ?_
  rw [if_neg hf.type]
  refine ⟨hdisk.trans h.disk, ?_⟩
  rw [setInode_self]

/-! ## `readi` -/

section Content

variable (hg : Good m) (hf : File m i c) (hs : Sees w m i e)

include hg hf hs

theorem bmap_reads {bn : Nat} (hbn : bn * BSIZE < c.length) :
    Reads (bmap super e bn) (fun a w' => a = slot m.blk (m.ino i) (dataSlot bn) ∧ w' = w) w := by
  have hlt := hf.holds.bn_lt hbn
  have hslot := (hf.holds.full bn hlt).2 hbn
  have hhit : ∀ j : Fin 13, (m.ino i).addrs j ≠ 0 → Reads (bmapSlot super e j)
      (fun a w' => a = (m.ino i).addrs j ∧ w' = w) w := by
    intro j hj
    refine Reads.inode ?_
    rw [hs.din, if_pos hj]
    exact ⟨rfl, rfl⟩
  unfold bmap
  rcases Nat.lt_or_ge bn NDIRECT with hdirect | hle
  · rw [if_pos hdirect]
    rw [dataSlot_direct hdirect] at hslot ⊢
    exact hhit _ hslot
  · rw [if_neg (Nat.not_lt.2 hle), if_pos (word_index hle hlt)]
    have hroot : (m.ino i).addrs 12 ≠ 0 := by
      refine hf.holds.root.2 (Nat.lt_of_le_of_lt ?_ hbn)
      exact Nat.mul_le_mul_right _ hle
    have hdata : super.InData ((m.ino i).addrs 12) :=
      (hg.ahead hf.lt hf.type).inData_slot (t := 12) (by decide) hroot
    have hblk : m.blk ((m.ino i).addrs 12) = m.data ((m.ino i).addrs 12) := image_blk hdata
    rw [slot_word hle hroot, hblk] at hslot ⊢
    refine Prog.wp.seq (hhit 12 hroot) ?_
    rintro root w₁ ⟨rfl, rfl⟩
    rw [if_neg hroot]
    refine Reads.bread (Reads.peek ?_)
    rw [hs.disk, if_pos hslot]
    exact Reads.brelse ⟨rfl, rfl⟩

theorem readLoop_reads {ok : Nat → Nat → Bool} (hok : ∀ tot k, ok tot k = true) {start n : Nat}
    (hend : start + n ≤ c.length) (k : Nat) {tot : Nat} {dst : Nat → UInt8} (hk : n ≤ tot + k)
    (htot : tot ≤ n) (hdst : ∀ j < tot, dst j = c.getD (start + j) 0) :
    Reads (readLoop super e ok n k tot (start + tot) dst) (fun r _ => r.1 = n ∧
      ∀ j < n, r.2 j = c.getD (start + j) 0) w := by
  -- by induction on the rounds left; the bytes below `tot` are there
  induction k generalizing tot dst with
  | zero =>
    have heq : tot = n := by omega
    subst heq
    exact ⟨rfl, hdst⟩
  | succ k ih =>
    unfold readLoop
    rcases Nat.lt_or_ge tot n with hlt | hge
    · rw [if_pos hlt]
      have hbn : (start + tot) / BSIZE * BSIZE < c.length := by
        simp only [BSIZE]
        omega
      have hmax := hf.holds.bn_lt hbn
      have hslot := (hf.holds.full _ hmax).2 hbn
      have hdata : super.InData (slot m.blk (m.ino i) (dataSlot ((start + tot) / BSIZE))) :=
        (hg.ahead hf.lt hf.type).inData_slot (dataSlot_lt hmax) hslot
      have hblk : m.blk _ = m.data _ := image_blk hdata
      refine Prog.wp.seq (bmap_reads hg hf hs hbn) ?_
      rintro a w₁ ⟨rfl, rfl⟩
      rw [if_neg hslot]
      refine Reads.bread (Reads.peek (Reads.brelse ?_))
      rw [hok, if_pos rfl, hs.disk, ← hblk, Nat.add_assoc]
      refine ih (by simp only [BSIZE]; omega) (by omega) fun j hj => ?_
      by_cases hnew : tot ≤ j ∧ j < tot + min (n - tot) (BSIZE - (start + tot) % BSIZE)
      · -- a byte of the block that was just read
        rw [if_pos hnew]
        have hdiv : (start + j) / BSIZE = (start + tot) / BSIZE := by
          simp only [BSIZE] at *
          omega
        have hmod : (start + tot) % BSIZE + (j - tot) = (start + j) % BSIZE := by
          simp only [BSIZE] at *
          omega
        have hbyte := hf.holds.bytes (start + j) (by rw [hdiv]; exact hbn)
        rw [fileByte, hdiv] at hbyte
        rw [hmod]
        exact hbyte
      · rw [if_neg hnew]
        exact hdst j (by omega)
    · rw [if_neg (Nat.not_lt.2 hge)]
      have heq : tot = n := by omega
      subst heq
      exact ⟨rfl, hdst⟩

/-- The bytes that `readi` copied. -/
def copied (r : Int × (Nat → UInt8)) : List UInt8 := (range r.1.toNat).map r.2

omit hg hf hs in
theorem copied_eq {r : Int × (Nat → UInt8)} {off n : Nat} (hlen : r.1 = (n : Int))
    (hend : off + n ≤ c.length) (hbytes : ∀ j < n, r.2 j = c.getD (off + j) 0) :
    copied r = (c.drop off).take n := by
  refine ext_getElem? fun j => ?_
  have hnat : r.1.toNat = n := by
    rw [hlen]
    rfl
  rw [copied, hnat, getElem?_map, getElem?_take, getElem?_drop]
  rcases Nat.lt_or_ge j n with hj | hj
  · have hin : off + j < c.length := by omega
    rw [getElem?_range hj, if_pos hj, getElem?_eq_getElem hin]
    show some (r.2 j) = _
    rw [hbytes j hj, getD_eq_getElem _ _ hin]
  · rw [getElem?_eq_none (by rw [length_range]; exact hj), if_neg (Nat.not_lt.2 hj)]
    rfl

theorem readi_reads {ok : Nat → Nat → Bool} (hok : ∀ tot k, ok tot k = true) {off n : UInt32}
    (hsum : off.toNat + n.toNat < 2 ^ 32) :
    Reads (readi super e ok off n) (fun r _ => copied r = (c.drop off.toNat).take n.toNat) w := by
  have hadd : (off + n).toNat = off.toNat + n.toNat := by
    rw [UInt32.toNat_add]
    exact Nat.mod_eq_of_lt hsum
  have hnowrap : ¬ off + n < off := by
    rw [UInt32.not_lt, UInt32.le_iff_toNat_le, hadd]
    exact Nat.le_add_right _ _
  refine Reads.inode ?_
  rw [hs.din]
  by_cases hout : (m.ino i).size < off
  · rw [if_pos (Or.inl hout)]
    have hlt := UInt32.lt_iff_toNat_lt.1 hout
    rw [hf.size] at hlt
    show copied (0, _) = _
    rw [drop_eq_nil_of_le hlt.le, take_nil]
    rfl
  · have hor : ¬((m.ino i).size < off ∨ off + n < off) := fun h => h.elim hout hnowrap
    rw [if_neg hor]
    have hle : off.toNat ≤ c.length := by
      rw [← hf.size]
      exact UInt32.le_iff_toNat_le.1 (UInt32.not_lt.1 hout)
    have hloop : ∀ k, off.toNat + k ≤ c.length → Reads (readLoop super e ok k k 0 off.toNat
        fun _ => 0) (fun r _ => copied r = (c.drop off.toNat).take k) w := by
      intro k hk
      refine Prog.wp_mono (readLoop_reads hg hf hs hok hk k (Nat.le_add_left _ _) (Nat.zero_le _)
        fun j hj => absurd hj (Nat.not_lt_zero _)) fun r _ hr => ?_
      exact copied_eq hr.1 hk hr.2
    by_cases hshort : (m.ino i).size < off + n
    · have hsub : ((m.ino i).size - off).toNat = c.length - off.toNat := by
        rw [UInt32.toNat_sub_of_le _ _ (UInt32.not_lt.1 hout), hf.size]
      have hlt := UInt32.lt_iff_toNat_lt.1 hshort
      rw [hf.size, hadd] at hlt
      have hall : (c.drop off.toNat).take n.toNat =
          (c.drop off.toNat).take (c.length - off.toNat) := by
        rw [take_of_length_le, take_of_length_le]
        · rw [length_drop]
        · rw [length_drop]
          omega
      rw [hall, ← hsub, if_pos hshort]
      refine hloop _ ?_
      rw [hsub]
      omega
    · have hge := UInt32.le_iff_toNat_le.1 (UInt32.not_lt.1 hshort)
      rw [hf.size, hadd] at hge
      rw [if_neg hshort]
      exact hloop _ hge

end Content

/-! ## Reading back -/

/-- `ilock`, and then `readi` of `n` bytes at `off`. -/
def readFile (e : Entry) (ok : Nat → Nat → Bool) (off n : UInt32) : FsM (List UInt8) := do
  ilock super e
  let r ← readi super e ok off n
  return copied r

/-- The kernel reads the bytes `c` from inode `i` of the image, in any range that does not wrap. -/
def Content (m : Mk) (i : Nat) (c : List UInt8) : Prop :=
  ∀ (w : World) (e : Entry), Opened w m i e → ∀ ok : Nat → Nat → Bool, (∀ tot k, ok tot k = true) →
    ∀ off n : UInt32, off.toNat + n.toNat < 2 ^ 32 →
      Reads (readFile e ok off n) (fun bs _ => bs = (c.drop off.toNat).take n.toNat) w

theorem File.content (hg : Good m) (hf : File m i c) : Content m i c := by
  intro w e hopen ok hok off n hsum
  refine Prog.wp.seq (ilock_reads hopen hf) ?_
  rintro - w₁ hsees
  exact Prog.wp.seq (readi_reads hg hf hsees hok hsum) fun r w₂ hr => hr

/-- The kernel reads what the appends to a fresh inode wrote, and an append to one inode leaves what
it reads from the others. -/
theorem read_back (hm : Session m) :
    (∀ i, 1 ≤ i → i < m.freeinode.toNat → (m.ino i).size = 0 → ∀ ps : List (List UInt8),
      ps.flatten.length ≤ MAXFILE * BSIZE →
      m.freeblock.toNat + blocks ps.flatten.length ≤ FSSIZE →
      ∃ m', copyFile i ps m = .ok ((), m') ∧ Content m' i ps.flatten) ∧
    ∀ i p m', 1 ≤ i → i < m.freeinode.toNat → iappend i p m = .ok ((), m') →
      ∀ i', 1 ≤ i' → i' < m.freeinode.toNat → i' ≠ i → ∃ c, Content m i' c ∧ Content m' i' c := by
  have hsane := session_sane hm
  constructor
  · intro i hpos hi hsize ps hlen hfree
    obtain ⟨c, hc⟩ := hsane.file hpos hi
    have hnil : c = [] := by
      refine eq_nil_of_length_eq_zero ?_
      rw [← hc.size, hsize]
      rfl
    subst hnil
    have hspec := copyFile_spec (E := False) ps hsane.good hc fun hover => ?_
    · obtain ⟨_, m', heq, hw⟩ := hspec.returns
      exact ⟨m', heq, hw.file.content hw.good⟩
    · rw [Overflows, length_nil, Nat.zero_add] at hover
      have hzero : blocks 0 = 0 := by decide
      omega
  · intro i p m' hpos hi heq i' hpos' hi' hne
    obtain ⟨c, hc⟩ := hsane.file hpos hi
    obtain ⟨c', hc'⟩ := hsane.file hpos' hi'
    have hw := (iappend_spec (E := True) hsane.good hc fun _ => trivial).of_ok heq
    exact ⟨c', hc'.content hsane.good, (hw.other hne hc').content hw.good⟩

/-- A world of the kernel over an image, with the first entry of the inode table on inode `i`. -/
def kernel (m : Mk) (i : Nat) : World where
  disk := m.data
  tab :=
    { inode := fun _ => ⟨ROOTDEV, i, 1, false, false, Dinode.zero⟩
      file := fun _ => ⟨.none, 0, false, false, 0, 0, 0⟩
      proc := fun _ => ⟨false, none, fun _ => none⟩ }
  found := []

theorem opened_kernel (m : Mk) (i : Nat) : Opened (kernel m i) m i 0 :=
  ⟨rfl, rfl, Int.le_refl 1, rfl, rfl⟩

theorem session_fresh : ∃ m, Session m ∧ m.freeinode.toNat = 3 ∧ (m.ino 2).size = 0 ∧
    m.freeblock.toNat = 47 := by
  obtain ⟨r, m, heq, -, hroot, hfree, hused⟩ := (start_spec (fun _ _ => 0)).returns
  have hlt : m.freeinode.toNat < NINODES := by
    rw [hfree]
    decide
  have halloc := ialloc_eq hroot.sane.good.toLaid hlt T_FILE
  refine ⟨m.ialloc T_FILE, .alloc (.start heq) (by decide) hlt halloc, ?_, ?_, hused⟩
  · exact (freeinode_succ hlt).trans (congrArg (· + 1) hfree)
  · rw [ialloc_ino hlt, hfree, Function.update_self]
    rfl

theorem read_back_three : ∃ m m' m'', Session m ∧ copyFile 2 [[1], [2, 3]] m = .ok ((), m') ∧
    Reads (readFile 0 toKernel 1 5) (fun bs _ => bs = [2, 3]) (kernel m' 2) ∧
    iappend 2 [1] m = .ok ((), m'') ∧
    ∃ c : List UInt8, Reads (readFile 0 toKernel 0 32) (fun bs _ => bs = c.take 32) (kernel m 1) ∧
      Reads (readFile 0 toKernel 0 32) (fun bs _ => bs = c.take 32) (kernel m'' 1) := by
  obtain ⟨m, hm, hfree, hsize, hused⟩ := session_fresh
  have hback := read_back hm
  have hlow : ∀ n, n ≤ 3 → m.freeblock.toNat + blocks n ≤ FSSIZE := by
    intro n hn
    have hmono := blocks_mono hn
    have hthree : blocks 3 = 1 := by decide
    have hsum : 47 + 1 ≤ FSSIZE := by decide
    omega
  obtain ⟨m', heq, hread⟩ := hback.1 2 (by decide) (by rw [hfree]; decide) hsize [[1], [2, 3]]
    (by decide) (hlow 3 (Nat.le_refl 3))
  obtain ⟨m'', heq', -⟩ := hback.1 2 (by decide) (by rw [hfree]; decide) hsize [[1]] (by decide)
    (hlow 1 (by decide))
  have happ : iappend 2 [1] m = .ok ((), m'') := by
    have hone : (iappend 2 [1] >>= fun _ => pure ()) m = .ok ((), m'') := heq'
    obtain ⟨_, t, ht, hpure⟩ := bind_eq_ok.1 hone
    cases hpure
    exact ht
  obtain ⟨c, hold, hnew⟩ := hback.2 2 [1] m'' (by decide) (by rw [hfree]; decide) happ 1 (by decide)
    (by rw [hfree]; decide) (by decide)
  refine ⟨m, m', m'', hm, heq, ?_, happ, c, ?_, ?_⟩
  · exact hread _ _ (opened_kernel m' 2) toKernel (fun _ _ => rfl) 1 5 (by decide)
  · exact hold _ _ (opened_kernel m 1) toKernel (fun _ _ => rfl) 0 32 (by decide)
  · exact hnew _ _ (opened_kernel m'' 1) toKernel (fun _ _ => rfl) 0 32 (by decide)

/-- A range that wraps gives no bytes, though the file has some at its start. -/
theorem read_wraps : ∃ m m', Session m ∧ copyFile 2 [[1, 2]] m = .ok ((), m') ∧
    Reads (readFile 0 toKernel 1 4294967295) (fun bs _ => bs = []) (kernel m' 2) ∧
    (([1, 2] : List UInt8).drop 1).take 4294967295 = [2] := by
  obtain ⟨m, hm, hfree, hsize, hused⟩ := session_fresh
  have hsane := session_sane hm
  obtain ⟨c, hc⟩ := hsane.file (i := 2) (by decide) (by rw [hfree]; decide)
  have hspec := copyFile_spec (E := False) [[1, 2]] hsane.good hc fun hover => ?_
  · obtain ⟨_, m', heq, hw⟩ := hspec.returns
    refine ⟨m, m', hm, heq, ?_, rfl⟩
    refine Prog.wp.seq (ilock_reads (opened_kernel m' 2) hw.file) ?_
    rintro - w hsees
    refine Prog.wp.seq (Reads.inode (Q := fun r _ => copied r = []) ?_) fun r _ hr => hr
    rw [if_pos (Or.inr (by decide))]
    exact (rfl : copied (0, fun _ => 0) = [])
  · have hlen : c.length = 0 := by
      rw [← hc.size, hsize]
      rfl
    rw [Overflows, hlen, hused] at hover
    exact absurd hover (by decide)

end Xv6Schedulers.Mkfs
