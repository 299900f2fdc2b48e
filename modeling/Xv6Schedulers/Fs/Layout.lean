import Mathlib.Data.Nat.Bitwise
import Xv6Schedulers.Log.Commit

/-!
# Layout — what the blocks of the file system hold

`fs.h`: on-disk inodes, the free map, directory entries and the superblock.

* `Dinode` is `struct dinode`; `Block.dinode` reads the one at an index of an inode block and
  `Block.setDinode` stores one.
* `Block.bit` and `Block.setBit` are the accesses of `balloc` to a block of the free map.
* `Dirent` is `struct dirent`, decoded from its sixteen bytes.
* `Super` is the superblock; its fields include the facts about the areas of the disk that `mkfs`
  establishes.
-/

namespace Xv6Schedulers.Fs

open Lib Log

/-! ## Parameters -/

def NDIRECT : Nat := 12
def NINDIRECT : Nat := 256
def MAXFILE : Nat := NDIRECT + NINDIRECT
def IPB : Nat := 16
def BPB : Nat := 8192
def DIRSIZ : Nat := 14
def ROOTDEV : Nat := 1
def ROOTINO : Nat := 1

/-! ## Inodes -/

structure Dinode where
  type : Int16
  major : Int16
  minor : Int16
  nlink : Int16
  size : UInt32
  addrs : Fin 13 → UInt32
  deriving DecidableEq

def T_DIR : Int16 := 1
def T_FILE : Int16 := 2
def T_DEVICE : Int16 := 3

/-- `memset(dip, 0, sizeof(*dip))`. -/
def Dinode.zero : Dinode := ⟨0, 0, 0, 0, 0, fun _ => 0⟩

def Block.short (v : Block) (off : Nat) : Int16 := (UInt16.ofNat (Bytes.get v off 2)).toInt16

def Block.setShort (v : Block) (off : Nat) (x : Int16) : Block := Bytes.set v off 2 x.toUInt16.toNat

instance neZero_addrs : NeZero 13 := ⟨by decide⟩

/-- The bytes of an array of `uint`. -/
def addrBytes (a : Fin 13 → UInt32) (j : Nat) : UInt8 :=
  Bytes.digits (a (Fin.ofNat 13 (j / 4))).toNat (j % 4)

/-- `*((struct dinode*)bp->data + k)`. -/
def Block.dinode (v : Block) (k : Nat) : Dinode where
  type := Block.short v (64 * k)
  major := Block.short v (64 * k + 2)
  minor := Block.short v (64 * k + 4)
  nlink := Block.short v (64 * k + 6)
  size := UInt32.ofNat (Bytes.get v (64 * k + 8) 4)
  addrs := fun j => UInt32.ofNat (Bytes.get v (64 * k + 12 + 4 * j.val) 4)

/-- The assignments to `*dip` in `iupdate`. -/
def Block.setDinode (v : Block) (k : Nat) (d : Dinode) : Block :=
  let v := Block.setShort v (64 * k) d.type
  let v := Block.setShort v (64 * k + 2) d.major
  let v := Block.setShort v (64 * k + 4) d.minor
  let v := Block.setShort v (64 * k + 6) d.nlink
  let v := Bytes.set v (64 * k + 8) 4 d.size.toNat
  Bytes.splice v (64 * k + 12) 52 (addrBytes d.addrs)

section Inodes

theorem short_setShort_self (v : Block) {off : Nat} (x : Int16) (h : off + 2 ≤ BSIZE) :
    Block.short (Block.setShort v off x) off = x := by
  have hget : Bytes.get (Block.setShort v off x) off 2 = x.toUInt16.toNat :=
    Bytes.get_set v h x.toUInt16.toNat_lt
  simp [Block.short, hget]

theorem short_of_get {v w : Block} {off : Nat} (h : Bytes.get v off 2 = Bytes.get w off 2) :
    Block.short v off = Block.short w off := by
  rw [Block.short, h, Block.short]

theorem short_setShort_of_disjoint (v : Block) {off off' : Nat} (x : Int16) (h : off + 2 ≤ BSIZE)
    (hdis : off + 2 ≤ off' ∨ off' + 2 ≤ off) :
    Block.short (Block.setShort v off' x) off = Block.short v off :=
  short_of_get (Bytes.get_set_of_disjoint v h hdis)

theorem short_set_of_disjoint (v : Block) {off off' n x : Nat} (h : off + 2 ≤ BSIZE)
    (hdis : off + 2 ≤ off' ∨ off' + n ≤ off) :
    Block.short (Bytes.set v off' n x) off = Block.short v off :=
  short_of_get (Bytes.get_set_of_disjoint v h hdis)

theorem short_splice_of_disjoint (v : Block) {off off' n : Nat} (src : Nat → UInt8)
    (h : off + 2 ≤ BSIZE) (hdis : off + 2 ≤ off' ∨ off' + n ≤ off) :
    Block.short (Bytes.splice v off' n src) off = Block.short v off :=
  short_of_get (Bytes.get_splice_of_disjoint v src h hdis)

theorem value_addrBytes (a : Fin 13 → UInt32) (j : Fin 13) :
    Bytes.value (fun t => addrBytes a (4 * j.val + t)) 4 = (a j).toNat := by
  have hbyte : ∀ t, t < 4 → addrBytes a (4 * j.val + t) = Bytes.digits (a j).toNat t := by
    intro t ht
    have hindex : Fin.ofNat 13 ((4 * j.val + t) / 4) = j := by
      refine Fin.ext ?_
      have hj := j.isLt
      rw [Fin.val_ofNat]
      omega
    have hdigit : (4 * j.val + t) % 4 = t := by omega
    rw [addrBytes, hindex, hdigit]
  rw [Bytes.value_congr hbyte, Bytes.value_digits]
  exact Nat.mod_eq_of_lt (a j).toNat_lt

theorem dinode_setDinode_self (v : Block) {k : Nat} (d : Dinode) (hk : k < IPB) :
    Block.dinode (Block.setDinode v k d) k = d := by
  have hk' : k < 16 := hk
  have hsize : BSIZE = 1024 := rfl
  cases d with
  | mk type major minor nlink size addrs =>
    simp only [Block.dinode, Block.setDinode, Dinode.mk.injEq]
    refine ⟨?_, ?_, ?_, ?_, ?_, ?_⟩
    · rw [short_splice_of_disjoint _ _ (by omega) (by omega),
        short_set_of_disjoint _ (by omega) (by omega),
        short_setShort_of_disjoint _ _ (by omega) (by omega),
        short_setShort_of_disjoint _ _ (by omega) (by omega),
        short_setShort_of_disjoint _ _ (by omega) (by omega), short_setShort_self _ _ (by omega)]
    · rw [short_splice_of_disjoint _ _ (by omega) (by omega),
        short_set_of_disjoint _ (by omega) (by omega),
        short_setShort_of_disjoint _ _ (by omega) (by omega),
        short_setShort_of_disjoint _ _ (by omega) (by omega), short_setShort_self _ _ (by omega)]
    · rw [short_splice_of_disjoint _ _ (by omega) (by omega),
        short_set_of_disjoint _ (by omega) (by omega),
        short_setShort_of_disjoint _ _ (by omega) (by omega), short_setShort_self _ _ (by omega)]
    · rw [short_splice_of_disjoint _ _ (by omega) (by omega),
        short_set_of_disjoint _ (by omega) (by omega), short_setShort_self _ _ (by omega)]
    · rw [Bytes.get_splice_of_disjoint _ _ (by omega) (by omega),
        Bytes.get_set _ (by omega) size.toNat_lt, UInt32.ofNat_toNat]
    · funext j
      have hj := j.isLt
      rw [Bytes.get_splice_inside _ _ (by omega) (by omega), value_addrBytes, UInt32.ofNat_toNat]

theorem get_setDinode_of_disjoint (v : Block) {k off n : Nat} (d : Dinode) (hin : off + n ≤ BSIZE)
    (hdis : off + n ≤ 64 * k ∨ 64 * k + 64 ≤ off) :
    Bytes.get (Block.setDinode v k d) off n = Bytes.get v off n := by
  simp only [Block.setDinode, Block.setShort]
  rw [Bytes.get_splice_of_disjoint _ _ hin (by omega),
    Bytes.get_set_of_disjoint _ hin (by omega), Bytes.get_set_of_disjoint _ hin (by omega),
    Bytes.get_set_of_disjoint _ hin (by omega), Bytes.get_set_of_disjoint _ hin (by omega),
    Bytes.get_set_of_disjoint _ hin (by omega)]

theorem dinode_setDinode_of_ne (v : Block) {k j : Nat} (d : Dinode) (hj : j < IPB) (hne : j ≠ k) :
    Block.dinode (Block.setDinode v k d) j = Block.dinode v j := by
  have hj' : j < 16 := hj
  have hsize : BSIZE = 1024 := rfl
  have hget : ∀ t n, t + n ≤ 64 →
      Bytes.get (Block.setDinode v k d) (64 * j + t) n = Bytes.get v (64 * j + t) n := by
    intro t n ht
    exact get_setDinode_of_disjoint v d (by omega) (by omega)
  simp only [Block.dinode, Dinode.mk.injEq]
  refine ⟨short_of_get (hget 0 2 (by omega)), short_of_get (hget 2 2 (by omega)),
    short_of_get (hget 4 2 (by omega)), short_of_get (hget 6 2 (by omega)), ?_, ?_⟩
  · rw [hget 8 4 (by omega)]
  · funext i
    have hi := i.isLt
    rw [Nat.add_assoc, hget (12 + 4 * i.val) 4 (by omega)]

end Inodes

/-! ## The free map -/

/-- `1 << (bi % 8)`. -/
def mask (bi : Nat) : UInt8 := 1 <<< UInt8.ofNat (bi % 8)

/-- `(bp->data[bi/8] & m) != 0`. -/
def Block.bit (v : Block) (bi : Nat) : Bool := Bytes.byte v (bi / 8) &&& mask bi != 0

/-- `bp->data[bi/8] |= m`. -/
def Block.setBit (v : Block) (bi : Nat) : Block :=
  Bytes.splice v (bi / 8) 1 fun _ => Bytes.byte v (bi / 8) ||| mask bi

section Bits

theorem mask_toNat (bi : Nat) : (mask bi).toNat = 2 ^ (bi % 8) := by
  have hlt : bi % 8 < 8 := Nat.mod_lt _ (by decide)
  have hall : ∀ i < 8, (1 <<< UInt8.ofNat i : UInt8).toNat = 2 ^ i := by decide
  exact hall _ hlt

theorem and_mask_ne_zero (x : UInt8) (bi : Nat) :
    (x &&& mask bi != 0) = x.toNat.testBit (bi % 8) := by
  have hval : (x &&& mask bi).toNat = (x.toNat.testBit (bi % 8)).toNat * 2 ^ (bi % 8) := by
    rw [UInt8.toNat_and, mask_toNat, Nat.and_two_pow]
  have hpos : 0 < 2 ^ (bi % 8) := Nat.two_pow_pos _
  cases hbit : x.toNat.testBit (bi % 8) with
  | false =>
    rw [hbit] at hval
    have hzero : x &&& mask bi = 0 := UInt8.toNat_inj.1 (by simpa using hval)
    simp [hzero]
  | true =>
    rw [hbit] at hval
    have hne : x &&& mask bi ≠ 0 := by
      intro hzero
      rw [hzero] at hval
      simp only [UInt8.toNat_zero, Bool.toNat_true, Nat.one_mul] at hval
      omega
    simpa using hne

theorem testBit_or_mask (x : UInt8) (bi bj : Nat) : (x ||| mask bi).toNat.testBit (bj % 8) =
      (x.toNat.testBit (bj % 8) || decide (bi % 8 = bj % 8)) := by
  rw [UInt8.toNat_or, Nat.testBit_or, mask_toNat, Nat.testBit_two_pow]

theorem bit_setBit (v : Block) {bi bj : Nat} (hj : bj < BPB) :
    Block.bit (Block.setBit v bi) bj = (Block.bit v bj || decide (bi = bj)) := by
  have hj' : bj < 8192 := hj
  have hin : bj / 8 < BSIZE := by
    show bj / 8 < 1024
    omega
  simp only [Block.bit, and_mask_ne_zero, Block.setBit, Bytes.byte_splice v _ _ _ hin]
  by_cases hbyte : bi / 8 = bj / 8
  · rw [if_pos (by omega), hbyte, testBit_or_mask]
    congr 1
    exact decide_eq_decide.2 (by omega)
  · rw [if_neg (by omega)]
    have hne : bi ≠ bj := by
      rintro rfl
      exact hbyte rfl
    simp [hne]

end Bits

/-! ## Directory entries -/

/-- A name in a directory: the characters before the first NUL, at most `DIRSIZ`. -/
abbrev Name := List UInt8

def dot : Name := [46]
def dotdot : Name := [46, 46]

structure Dirent where
  inum : UInt16
  name : Name
  deriving DecidableEq

/-- The entry in the bytes that `readi` copied to `de`. -/
def Dirent.decode (src : Nat → UInt8) : Dirent where
  inum := UInt16.ofNat (Bytes.value src 2)
  name := ((List.range DIRSIZ).map fun j => src (2 + j)).takeWhile (· ≠ 0)

/-- `strncpy(de.name, name, DIRSIZ)` and the assignment to `de.inum`. -/
def Dirent.encode (d : Dirent) (j : Nat) : UInt8 :=
  if j < 2 then Bytes.digits d.inum.toNat j else d.name.getD (j - 2) 0

/-- A name that fits into an entry. -/
def Name.Fits (n : Name) : Prop := n.length ≤ DIRSIZ ∧ 0 ∉ n

section Entries

theorem Dirent.decode_congr {src src' : Nat → UInt8} (h : ∀ j < 16, src j = src' j) :
    Dirent.decode src = Dirent.decode src' := by
  have hvalue : Bytes.value src 2 = Bytes.value src' 2 :=
    Bytes.value_congr fun j hj => h j (by omega)
  have hname : (List.range DIRSIZ).map (fun j => src (2 + j)) =
      (List.range DIRSIZ).map fun j => src' (2 + j) := by
    refine List.map_congr_left fun j hj => h _ ?_
    have hlt : j < 14 := List.mem_range.1 hj
    omega
  rw [Dirent.decode, Dirent.decode, hvalue, hname]

theorem Dirent.decode_encode_inum (d : Dirent) : (Dirent.decode d.encode).inum = d.inum := by
  have hvalue : Bytes.value d.encode 2 = d.inum.toNat := by
    have hbyte : ∀ j, j < 2 → d.encode j = Bytes.digits d.inum.toNat j := by
      intro j hj
      rw [Dirent.encode, if_pos hj]
    rw [Bytes.value_congr hbyte, Bytes.value_digits]
    exact Nat.mod_eq_of_lt d.inum.toNat_lt
  rw [Dirent.decode, hvalue, UInt16.ofNat_toNat]

theorem Dirent.decode_encode (d : Dirent) (h : d.name.Fits) : Dirent.decode d.encode = d := by
  have hlist : (List.range DIRSIZ).map (fun j => d.encode (2 + j)) =
      d.name ++ List.replicate (DIRSIZ - d.name.length) 0 := by
    refine List.ext_getElem (by simp [h.1]) fun j h₁ h₂ => ?_
    rw [List.getElem_map, List.getElem_range, Dirent.encode, if_neg (by omega),
      Nat.add_sub_cancel_left, List.getElem_append]
    by_cases hj : j < d.name.length
    · rw [dif_pos hj]
      simp [hj]
    · rw [dif_neg hj]
      simp [hj]
  have hname : (Dirent.decode d.encode).name = d.name := by
    rw [Dirent.decode, hlist, List.takeWhile_append_of_pos]
    · cases DIRSIZ - d.name.length with
      | zero => simp
      | succ n => simp [List.replicate_succ]
    · intro c hc
      have hne : c ≠ 0 := fun hzero => h.2 (hzero ▸ hc)
      simpa using hne
  exact congrArg₂ Dirent.mk (Dirent.decode_encode_inum d) hname

end Entries

/-! ## The superblock -/

/-- `struct superblock`, as `mkfs` lays the disk out: the inode blocks come before the free map, and
the free map before the data. -/
structure Super where
  size : Nat
  ninodes : Nat
  inodestart : Nat
  bmapstart : Nat
  inodes_fit : inodestart + ninodes / IPB + 1 ≤ bmapstart
  bmap_fits : bmapstart + size / BPB + 1 ≤ size
  size_lt : size < 2 ^ 31
  ninodes_le : ninodes ≤ 2 ^ 16
  root_lt : ROOTINO < ninodes

namespace Super

variable (sb : Super)

def iblock (i : Nat) : BlockNo := UInt32.ofNat (i / IPB + sb.inodestart)

def bblock (b : Nat) : BlockNo := UInt32.ofNat (b / BPB + sb.bmapstart)

/-- The first data block, `nmeta` in `mkfs`. -/
def dataStart : Nat := sb.bmapstart + sb.size / BPB + 1

/-- The blocks that hold the contents of files. -/
def InData (b : BlockNo) : Prop := sb.dataStart ≤ b.toNat ∧ b.toNat < sb.size

instance (b : BlockNo) : Decidable (sb.InData b) := inferInstanceAs (Decidable (_ ∧ _))

theorem toNat_iblock {i : Nat} (hi : i < sb.ninodes) :
    (sb.iblock i).toNat = i / IPB + sb.inodestart := by
  have h₁ := sb.inodes_fit
  have h₂ := sb.bmap_fits
  have h₃ := sb.size_lt
  simp only [IPB, BPB] at h₁ h₂ ⊢
  refine UInt32.toNat_ofNat_of_lt' ?_
  show i / 16 + sb.inodestart < 2 ^ 32
  omega

theorem toNat_bblock {b : Nat} (hb : b < sb.size) :
    (sb.bblock b).toNat = b / BPB + sb.bmapstart := by
  have h₂ := sb.bmap_fits
  have h₃ := sb.size_lt
  simp only [BPB] at h₂ ⊢
  refine UInt32.toNat_ofNat_of_lt' ?_
  show b / 8192 + sb.bmapstart < 2 ^ 32
  omega

theorem iblock_ne_bblock {i b : Nat} (hi : i < sb.ninodes) (hb : b < sb.size) :
    sb.iblock i ≠ sb.bblock b := by
  intro h
  have heq := congrArg UInt32.toNat h
  rw [sb.toNat_iblock hi, sb.toNat_bblock hb] at heq
  have h₁ := sb.inodes_fit
  simp only [IPB, BPB] at h₁ heq
  omega

theorem iblock_not_inData {i : Nat} (hi : i < sb.ninodes) : ¬ sb.InData (sb.iblock i) := by
  rintro ⟨hdata, _⟩
  rw [sb.toNat_iblock hi] at hdata
  have h₁ := sb.inodes_fit
  simp only [dataStart, IPB, BPB] at h₁ hdata
  omega

theorem bblock_not_inData {b : Nat} (hb : b < sb.size) : ¬ sb.InData (sb.bblock b) := by
  rintro ⟨hdata, _⟩
  rw [sb.toNat_bblock hb] at hdata
  simp only [dataStart, BPB] at hdata
  omega

end Super

end Xv6Schedulers.Fs
