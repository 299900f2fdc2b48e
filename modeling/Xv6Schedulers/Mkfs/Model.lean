import Xv6Schedulers.Fs.Inode
import Xv6Schedulers.Lib.Exec

/-!
# Model — `mkfs.c`

The program that writes the first image of the disk.  `die` and a failed `assert` stop it.

* The image is a file of `sectors` blocks; a read beyond its end gives fewer bytes, so `rsect` dies.
* `xshort` and `xint` put integers into the byte order of the disk, in which `Layout` reads them.
* An `Input` is an argument with what `read` returns for it until it returns no more.
-/

namespace Xv6Schedulers.Mkfs

open Lib Log Fs

def NINODES : Nat := 200
def FSSIZE : Nat := 2000

def nbitmap : Nat := FSSIZE / BPB + 1
def ninodeblocks : Nat := NINODES / IPB + 1
def nlog : Nat := LOGSIZE

/-- Boot block, superblock, log, inodes and bitmap. -/
def nmeta : Nat := 2 + nlog + ninodeblocks + nbitmap

def FSMAGIC : UInt32 := 0x10203040

/-- `sb`, as the kernel uses it. -/
def super : Super where
  size := FSSIZE
  ninodes := NINODES
  inodestart := 2 + nlog
  bmapstart := 2 + nlog + ninodeblocks
  inodes_fit := by decide
  bmap_fits := by decide
  size_lt := by decide
  ninodes_le := by decide
  root_lt := by decide

inductive Fail
  | die
  | assert
  deriving DecidableEq

/-- The image file and the two counters. -/
structure Mk where
  sectors : Nat
  data : Disk
  freeinode : UInt32
  freeblock : UInt32

abbrev MkM := Exec Fail Mk

def ensure (c : Prop) [Decidable c] : MkM Unit := if c then pure () else throw .assert

/-! ## Blocks and inodes -/

def rsect (sec : BlockNo) : MkM Block := fun m =>
  if sec.toNat < m.sectors then .ok (m.data sec, m) else .error .die

def wsect (sec : BlockNo) (v : Block) : MkM Unit :=
  modify fun m => { m with
    sectors := max m.sectors (sec.toNat + 1)
    data := Function.update m.data sec v }

def winode (inum : Nat) (ip : Dinode) : MkM Unit := do
  let v ← rsect (super.iblock inum)
  wsect (super.iblock inum) (Block.setDinode v (inum % IPB) ip)

def rinode (inum : Nat) : MkM Dinode := do
  let v ← rsect (super.iblock inum)
  return Block.dinode v (inum % IPB)

def ialloc (type : Int16) : MkM Nat := do
  let inum ← Exec.read Mk.freeinode
  modify fun m => { m with freeinode := m.freeinode + 1 }
  winode inum.toNat { Dinode.zero with type := type, nlink := 1 }
  return inum.toNat

/-- `freeblock++` -/
def takeBlock : MkM BlockNo := do
  let b ← Exec.read Mk.freeblock
  modify fun m => { m with freeblock := m.freeblock + 1 }
  return b

/-! ## `iappend` -/

/-- The indirect block of `din`, allocated when it is 0. -/
def rootFor (din : Dinode) : MkM Dinode :=
  if din.addrs 12 = 0 then do
    let b ← takeBlock
    return din.setAddr 12 b
  else pure din

/-- The block `x` for `fbn`, with what happens to `din`. -/
def blockFor (din : Dinode) (fbn : Nat) : MkM (Dinode × BlockNo) :=
  if fbn < NDIRECT then
    if din.addrs (Fin.ofNat 13 fbn) = 0 then do
      let b ← takeBlock
      return (din.setAddr (Fin.ofNat 13 fbn) b, b)
    else pure (din, din.addrs (Fin.ofNat 13 fbn))
  else do
    let din ← rootFor din
    let v ← rsect (din.addrs 12)
    if Block.word v (fbn - NDIRECT) = 0 then do
      let b ← takeBlock
      wsect (din.addrs 12) (Block.setWord v (fbn - NDIRECT) b)
      return (din, b)
    else return (din, Block.word v (fbn - NDIRECT))

/-- The loop of `iappend`; every round takes at least one byte of `p`. -/
def appendLoop : Nat → Dinode → Nat → List UInt8 → MkM (Dinode × Nat)
  | 0, din, off, _ => pure (din, off)
  | k + 1, din, off, p =>
      if p = [] then pure (din, off) else do
        ensure (off / BSIZE < MAXFILE)
        let (din, x) ← blockFor din (off / BSIZE)
        let n1 := min p.length ((off / BSIZE + 1) * BSIZE - off)
        let v ← rsect x
        wsect x (Bytes.splice v (off - off / BSIZE * BSIZE) n1 fun j => p.getD j 0)
        appendLoop k din (off + n1) (p.drop n1)

def iappend (inum : Nat) (p : List UInt8) : MkM Unit := do
  let din ← rinode inum
  let (din, off) ← appendLoop p.length din din.size.toNat p
  winode inum { din with size := UInt32.ofNat off }

/-! ## `main` -/

/-- The bitmap block that `balloc` writes. -/
def usedBits : Nat → Block
  | 0 => fun _ => 0
  | i + 1 => Block.setBit (usedBits i) i

def balloc (used : Nat) : MkM Unit := do
  ensure (used < BPB)
  wsect (UInt32.ofNat super.bmapstart) (usedBits used)

/-- An argument of `mkfs`, a C string, and the results of `read` before the last; `none` when the file
cannot be opened. -/
structure Input where
  path : List UInt8
  no_nul : 0 ∉ path
  reads : Option (List (List UInt8))

/-- `shortname`, before the leading `_` is skipped. -/
def Input.basename (a : Input) : List UInt8 :=
  if a.path.take 5 = [117, 115, 101, 114, 47] then a.path.drop 5 else a.path

def Input.shortname (a : Input) : Name :=
  if a.basename.head? = some 95 then a.basename.drop 1 else a.basename

/-- The sixteen bytes of `de`. -/
def direntBytes (inum : Nat) (name : Name) : List UInt8 :=
  (List.range 16).map (Dirent.encode ⟨UInt16.ofNat inum, name⟩)

/-- `while((cc = read(fd, buf, sizeof(buf))) > 0) iappend(inum, buf, cc)` -/
def copyFile (inum : Nat) : List (List UInt8) → MkM Unit
  | [] => pure ()
  | p :: ps => do
      iappend inum p
      copyFile inum ps

/-- The body of the loop over the arguments. -/
def addFile (rootino : Nat) (a : Input) : MkM Unit := do
  ensure (47 ∉ a.basename)
  match a.reads with
  | none => throw .die
  | some ps => do
      ensure (a.shortname.length ≤ DIRSIZ)
      let inum ← ialloc T_FILE
      iappend rootino (direntBytes inum a.shortname)
      copyFile inum ps

def addFiles (rootino : Nat) : List Input → MkM Unit
  | [] => pure ()
  | a :: as => do
      addFile rootino a
      addFiles rootino as

/-- Block 1. -/
def superBlock : Block :=
  Block.setEntries (Block.setWord (fun _ => 0) 0 FSMAGIC) 0
    [UInt32.ofNat FSSIZE, UInt32.ofNat (FSSIZE - nmeta), UInt32.ofNat NINODES, UInt32.ofNat nlog, 2,
      UInt32.ofNat super.inodestart, UInt32.ofNat super.bmapstart]

/-- Zeroed blocks, the superblock and a root directory with `.` and `..`. -/
def start : MkM Nat := do
  Exec.each (fun i => wsect (UInt32.ofNat i) fun _ => 0) FSSIZE 0
  wsect 1 superBlock
  let rootino ← ialloc T_DIR
  ensure (rootino = ROOTINO)
  iappend rootino (direntBytes rootino dot)
  iappend rootino (direntBytes rootino dotdot)
  return rootino

/-- `fix size of root inode dir` -/
def fixRoot (rootino : Nat) : MkM Unit := do
  let din ← rinode rootino
  winode rootino { din with size := UInt32.ofNat ((din.size.toNat / BSIZE + 1) * BSIZE) }

/-- `main`, from the opened image file on. -/
def main (args : List Input) : MkM Unit := do
  let rootino ← start
  addFiles rootino args
  fixRoot rootino
  let used ← Exec.read Mk.freeblock
  balloc used.toNat

/-- The truncated image file, with the counters as `main` sets them. -/
def Mk.empty (d : Disk) : Mk where
  sectors := 0
  data := d
  freeinode := 1
  freeblock := UInt32.ofNat nmeta

end Xv6Schedulers.Mkfs
