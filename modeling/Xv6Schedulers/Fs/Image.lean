import Xv6Schedulers.Fs.Inode
import Xv6Schedulers.Lib.Owners

/-!
# Image — the file system that the blocks encode

An `Image` is what the blocks mean: the inodes, the free map and the data blocks.  Every write of
the code changes one of the three, so the rest of the development reasons about images.

* `slot` is a block number in the `addrs` of an inode or in its indirect block; `ents` are the
  entries of a directory, and `tree` is what the directories and link counts say.
* `Sound hand im`: the block numbers in the inodes are exactly the data blocks in use, each once,
  apart from a block `hand` that was just allocated; files have no holes, and directory entries name
  inodes of the disk.
-/

namespace Xv6Schedulers.Fs

open Lib Log Function

@[ext]
structure Image where
  ino : Nat → Dinode
  bit : BlockNo → Bool
  blk : BlockNo → Block

namespace Image

def setIno (im : Image) (i : Nat) (d : Dinode) : Image := { im with ino := update im.ino i d }

def setBit (im : Image) (b : BlockNo) (v : Bool) : Image := { im with bit := update im.bit b v }

def setBlk (im : Image) (b : BlockNo) (v : Block) : Image := { im with blk := update im.blk b v }

end Image

/-- What the blocks of a disk mean. -/
def Super.image (sb : Super) (d : Disk) : Image where
  ino i := if i < sb.ninodes then sb.dinode d i else Dinode.zero
  bit b := if b.toNat < sb.size then Block.bit (d (sb.bblock b.toNat)) (b.toNat % BPB) else false
  blk b := if sb.InData b then d b else fun _ => 0

section Updates

variable {sb : Super} {d : Disk}

theorem image_ino {i : Nat} (hi : i < sb.ninodes) : (sb.image d).ino i = sb.dinode d i := if_pos hi

theorem image_bit {b : BlockNo} (hb : b.toNat < sb.size) :
    (sb.image d).bit b = Block.bit (d (sb.bblock b.toNat)) (b.toNat % BPB) :=
  if_pos hb

theorem image_blk {b : BlockNo} (hb : sb.InData b) : (sb.image d).blk b = d b := if_pos hb

theorem iblock_inj {i j : Nat} (hi : i < sb.ninodes) (hj : j < sb.ninodes)
    (hblock : sb.iblock i = sb.iblock j) (hindex : i % IPB = j % IPB) : i = j := by
  have h := congrArg UInt32.toNat hblock
  rw [sb.toNat_iblock hi, sb.toNat_iblock hj] at h
  simp only [IPB] at h hindex
  omega

theorem image_setDinode {i : Nat} (hi : i < sb.ninodes) (x : Dinode) :
    sb.image (update d (sb.iblock i) (Block.setDinode (d (sb.iblock i)) (i % IPB) x)) =
      (sb.image d).setIno i x := by
  have hmod : i % IPB < IPB := Nat.mod_lt _ (by decide)
  refine Image.ext ?_ ?_ ?_
  · funext j
    simp only [Super.image, Image.setIno, Super.dinode]
    by_cases hji : j = i
    · subst hji
      rw [update_self, update_self, if_pos hi, dinode_setDinode_self _ _ hmod]
    · rw [update_of_ne hji]
      by_cases hj : j < sb.ninodes
      · rw [if_pos hj, if_pos hj]
        by_cases hblock : sb.iblock j = sb.iblock i
        · rw [hblock, update_self]
          refine dinode_setDinode_of_ne _ _ (Nat.mod_lt _ (by decide)) fun hindex => ?_
          exact hji (iblock_inj hj hi hblock hindex)
        · rw [update_of_ne hblock]
      · rw [if_neg hj, if_neg hj]
  · funext b
    simp only [Super.image, Image.setIno]
    by_cases hb : b.toNat < sb.size
    · rw [update_of_ne (sb.iblock_ne_bblock hi hb).symm]
    · rw [if_neg hb, if_neg hb]
  · funext b
    simp only [Super.image, Image.setIno]
    by_cases hb : sb.InData b
    · have hne : b ≠ sb.iblock i := by
        rintro rfl
        exact sb.iblock_not_inData hi hb
      rw [update_of_ne hne]
    · rw [if_neg hb, if_neg hb]

theorem image_setData {b : BlockNo} (hb : sb.InData b) (v : Block) :
    sb.image (update d b v) = (sb.image d).setBlk b v := by
  refine Image.ext ?_ ?_ ?_
  · funext j
    simp only [Super.image, Image.setBlk, Super.dinode]
    by_cases hj : j < sb.ninodes
    · have hne : sb.iblock j ≠ b := by
        rintro rfl
        exact sb.iblock_not_inData hj hb
      rw [update_of_ne hne]
    · rw [if_neg hj, if_neg hj]
  · funext c
    simp only [Super.image, Image.setBlk]
    by_cases hc : c.toNat < sb.size
    · have hne : sb.bblock c.toNat ≠ b := by
        rintro rfl
        exact sb.bblock_not_inData hc hb
      rw [update_of_ne hne]
    · rw [if_neg hc, if_neg hc]
  · funext c
    simp only [Super.image, Image.setBlk]
    by_cases hcb : c = b
    · subst hcb
      rw [update_self, update_self, if_pos hb]
    · rw [update_of_ne hcb, update_of_ne hcb]

end Updates

/-! ## Blocks of an inode and entries of a directory -/

/-- How many block numbers an inode has, with its indirect block. -/
def SLOTS : Nat := 13 + NINDIRECT

/-- `addrs[j]`, or the block number `j - 13` of the indirect block. -/
def slot (blk : BlockNo → Block) (d : Dinode) (j : Nat) : BlockNo :=
  if j < 13 then d.addrs (Fin.ofNat 13 j)
  else if d.addrs 12 = 0 then 0
  else Block.word (blk (d.addrs 12)) (j - 13)

/-- The slot that `bmap` uses for block `bn` of a file. -/
def dataSlot (bn : Nat) : Nat := if bn < NDIRECT then bn else bn + 1

/-- Entry `k` of a directory. -/
def dent (blk : BlockNo → Block) (d : Dinode) (k : Nat) : Dirent :=
  Dirent.decode fun j => Bytes.byte (blk (slot blk d (dataSlot (k / 64)))) (16 * (k % 64) + j)

def ents (blk : BlockNo → Block) (d : Dinode) : List Dirent :=
  (List.range (d.size.toNat / 16)).map (dent blk d)

/-- What an inode is in the directory tree. -/
structure Node where
  type : Int16
  nlink : Int16
  ents : List Dirent

def node (blk : BlockNo → Block) (d : Dinode) : Node :=
  ⟨d.type, d.nlink, if d.type = T_DIR then ents blk d else []⟩

abbrev Tree := Nat → Node

def Image.tree (im : Image) : Tree := fun i => node im.blk (im.ino i)

section Slots

variable {blk blk' : BlockNo → Block} {d : Dinode} {b : BlockNo} {v : Block} {j k bn : Nat}

theorem slot_direct (hj : j < 13) : slot blk d j = d.addrs (Fin.ofNat 13 j) := if_pos hj

theorem slot_indirect (hj : 13 ≤ j) (hroot : d.addrs 12 ≠ 0) :
    slot blk d j = Block.word (blk (d.addrs 12)) (j - 13) := by
  rw [slot, if_neg (by omega), if_neg hroot]

theorem slot_of_no_root (hj : 13 ≤ j) (hroot : d.addrs 12 = 0) : slot blk d j = 0 := by
  rw [slot, if_neg (by omega), if_pos hroot]

theorem word_zero (k : Nat) : Block.word (fun _ => 0) k = 0 := by
  show UInt32.ofNat (Bytes.value (fun _ => 0) 4) = 0
  rw [Bytes.value_zero]
  rfl

theorem slot_setAddr {j : Fin 13} {t : Nat}
    (hroot : j = 12 → d.addrs 12 = 0 ∧ blk b = fun _ => 0) :
    slot blk (d.setAddr j b) t = if t = j.val then b else slot blk d t := by
  by_cases ht : t < 13
  · rw [slot_direct ht, slot_direct ht]
    simp only [Dinode.setAddr]
    by_cases htj : t = j.val
    · subst htj
      rw [if_pos rfl, Fin.ofNat_val_eq_self, update_self]
    · rw [if_neg htj, update_of_ne]
      intro heq
      refine htj ?_
      rw [← heq, Fin.val_ofNat, Nat.mod_eq_of_lt ht]
  · have htj : t ≠ j.val := by omega
    rw [if_neg htj]
    by_cases hj : j = 12
    · subst hj
      rcases hroot rfl with ⟨hzero, hblank⟩
      rw [slot_of_no_root (by omega) hzero, slot, if_neg ht]
      simp only [Dinode.setAddr, update_self, hblank, word_zero, ite_self]
    · have hkeep : (d.setAddr j b).addrs 12 = d.addrs 12 :=
        update_of_ne (Ne.symm hj) _ _
      rw [slot, if_neg ht, hkeep, slot, if_neg ht]

theorem slot_setWord {k t : Nat} (hk : k < NINDIRECT) (ht : t < SLOTS) (hroot : d.addrs 12 ≠ 0) :
    slot (update blk (d.addrs 12) (Block.setWord (blk (d.addrs 12)) k b)) d t =
      if t = 13 + k then b else slot blk d t := by
  have ht' : t < 269 := ht
  by_cases hlt : t < 13
  · rw [slot_direct hlt, if_neg (by omega), slot_direct hlt]
  · rw [slot_indirect (by omega) hroot, update_self]
    by_cases htk : t = 13 + k
    · subst htk
      rw [if_pos rfl, Nat.add_sub_cancel_left, word_setWord_self _ _ hk]
    · rw [if_neg htk, slot_indirect (by omega) hroot, word_setWord_of_ne _ _ (by omega) (by omega)]

theorem dataSlot_of_lt (h : bn < NDIRECT) : dataSlot bn = bn := if_pos h

theorem dataSlot_of_le (h : NDIRECT ≤ bn) : dataSlot bn = bn + 1 := if_neg (Nat.not_lt.2 h)

theorem dataSlot_lt (h : bn < MAXFILE) : dataSlot bn < SLOTS := by
  have h' : bn < 268 := h
  show dataSlot bn < 269
  rcases Nat.lt_or_ge bn NDIRECT with hbn | hbn
  · rw [dataSlot_of_lt hbn]
    omega
  · rw [dataSlot_of_le hbn]
    omega

theorem dataSlot_ne : dataSlot bn ≠ 12 := by
  rcases Nat.lt_or_ge bn NDIRECT with hbn | hbn
  · rw [dataSlot_of_lt hbn]
    exact Nat.ne_of_lt hbn
  · rw [dataSlot_of_le hbn]
    exact Nat.ne_of_gt (Nat.lt_succ_of_le hbn)

theorem dataSlot_inj {bn bn' : Nat} (h : dataSlot bn = dataSlot bn') : bn = bn' := by
  rcases Nat.lt_or_ge bn NDIRECT with hbn | hbn <;> rcases Nat.lt_or_ge bn' NDIRECT with hbn' | hbn'
  · rwa [dataSlot_of_lt hbn, dataSlot_of_lt hbn'] at h
  · rw [dataSlot_of_lt hbn, dataSlot_of_le hbn'] at h
    omega
  · rw [dataSlot_of_le hbn, dataSlot_of_lt hbn'] at h
    omega
  · rw [dataSlot_of_le hbn, dataSlot_of_le hbn'] at h
    omega

theorem slot_update (hb : d.addrs 12 ≠ b) : slot (update blk b v) d j = slot blk d j := by
  unfold slot
  rw [update_of_ne hb]

theorem ents_congr {d' : Dinode} (hsize : d'.size = d.size)
    (h : ∀ bn, bn * BSIZE < d.size.toNat →
      blk' (slot blk' d' (dataSlot bn)) = blk (slot blk d (dataSlot bn))) :
    ents blk' d' = ents blk d := by
  rw [ents, ents, hsize]
  refine List.map_congr_left fun k hk => ?_
  have hk' := List.mem_range.1 hk
  have hbn : k / 64 * BSIZE < d.size.toNat := by
    simp only [BSIZE]
    omega
  rw [dent, dent, h _ hbn]

theorem ents_update (hslot : ∀ j < SLOTS, slot blk d j ≠ b)
    (hsize : d.size.toNat ≤ MAXFILE * BSIZE) :
    ents (update blk b v) d = ents blk d := by
  refine ents_congr rfl fun bn hbn => ?_
  have hlt : bn < MAXFILE := by
    simp only [MAXFILE, NDIRECT, NINDIRECT, BSIZE] at *
    omega
  rw [slot_update (hslot 12 (by decide)), update_of_ne (hslot _ (dataSlot_lt hlt))]

end Slots

end Xv6Schedulers.Fs
