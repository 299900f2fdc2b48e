import Mathlib.Data.List.FinRange
import Xv6Schedulers.Fs.State

/-!
# Inode — the functions of `fs.c`

Blocks (`balloc`), locked inodes (`ilock`, `iunlock`, `iupdate`) and the contents of an inode (`bmap`,
`readi`, `writei`).

* The loops are `Prog.untilSome`, or recurse on a number of rounds that the source's loop cannot
  exceed.
* `copyin` stops at the first page that is not mapped; `Source.copied` is how far it got.
-/

namespace Xv6Schedulers.Fs

open Lib Log

variable (sb : Super)

/-! ## Blocks -/

def bzero (b : BlockNo) : FsM Unit := do
  bread b
  setData b fun _ => 0
  logWrite b
  brelse b

/-- The inner loop of `balloc` from `bi` on: the first free bit of the map block for `b`. -/
def freeBit (v : Block) (b : Nat) : Nat → Nat → Option Nat
  | 0, _ => none
  | n + 1, bi =>
      if b + bi < sb.size then
        if Block.bit v bi then freeBit v b n (bi + 1) else some bi
      else none

/-- One round of the outer loop of `balloc`, for `b = k * BPB`. -/
def ballocRound (k : Nat) : FsM (Option BlockNo) := do
  let bb := sb.bblock (k * BPB)
  bread bb
  let v ← peek bb
  match freeBit sb v (k * BPB) BPB 0 with
  | some bi =>
      setData bb (Block.setBit v bi)
      logWrite bb
      brelse bb
      bzero (UInt32.ofNat (k * BPB + bi))
      return some (UInt32.ofNat (k * BPB + bi))
  | none =>
      brelse bb
      return none

/-- `balloc`; 0 when the disk is full. -/
def balloc : FsM BlockNo := do
  match ← Prog.untilSome (ballocRound sb) ((sb.size + BPB - 1) / BPB) 0 with
  | some b => return b
  | none => return 0

/-! ## The inode table -/

def iupdate (e : Entry) : FsM Unit := do
  let ip ← inode e
  let ib := sb.iblock ip.inum
  bread ib
  let v ← peek ib
  setData ib (Block.setDinode v (ip.inum % IPB) ip.din)
  logWrite ib
  brelse ib

def acquiresleep (e : Entry) : FsM Unit := do
  let ip ← inode e
  if ip.locked then .halt .asleep else setInode e { ip with locked := true }

def releasesleep (e : Entry) : FsM Unit := do
  let ip ← inode e
  setInode e { ip with locked := false }

def ilock (e : Entry) : FsM Unit := do
  let ip ← inode e
  if ip.ref < 1 then .halt .ilock else
  acquiresleep e
  let ip ← inode e
  if ip.valid then return () else
  let ib := sb.iblock ip.inum
  bread ib
  let v ← peek ib
  brelse ib
  setInode e { ip with din := Block.dinode v (ip.inum % IPB), valid := true }
  if (Block.dinode v (ip.inum % IPB)).type = 0 then .halt .noType else return ()

def iunlock (e : Entry) : FsM Unit := do
  let ip ← inode e
  if ip.locked = false ∨ ip.ref < 1 then .halt .iunlock else releasesleep e

/-! ## Contents -/

/-- Assign the copy of the disk inode in `*ip`. -/
def setDin (e : Entry) (f : Dinode → Dinode) : FsM Unit := do
  let ip ← inode e
  setInode e { ip with din := f ip.din }

def Dinode.setAddr (d : Dinode) (j : Fin 13) (a : BlockNo) : Dinode :=
  { d with addrs := Function.update d.addrs j a }

/-- `ip->addrs[j]`, allocated when it is 0. -/
def bmapSlot (e : Entry) (j : Fin 13) : FsM BlockNo := do
  let ip ← inode e
  if ip.din.addrs j ≠ 0 then return ip.din.addrs j else
  let addr ← balloc sb
  if addr = 0 then return 0 else
  setDin e fun d => d.setAddr j addr
  return addr

def bmap (e : Entry) (bn : Nat) : FsM BlockNo := do
  if bn < NDIRECT then bmapSlot sb e (Fin.ofNat 13 bn) else
  if bn - NDIRECT < NINDIRECT then
    let root ← bmapSlot sb e 12
    if root = 0 then return 0 else
    bread root
    let v ← peek root
    if Block.word v (bn - NDIRECT) ≠ 0 then
      brelse root
      return Block.word v (bn - NDIRECT)
    else
    let addr ← balloc sb
    if addr = 0 then
      brelse root
      return 0
    else
    let v ← peek root
    setData root (Block.setWord v (bn - NDIRECT) addr)
    logWrite root
    brelse root
    return addr
  else
    .halt .bmapRange

/-- The loop of `readi`; `ok tot m` tells whether `either_copyout` of `m` bytes at `dst + tot`
succeeds. -/
def readLoop (e : Entry) (ok : Nat → Nat → Bool) (n : Nat) :
    Nat → Nat → Nat → (Nat → UInt8) → FsM (Int × (Nat → UInt8))
  | 0, tot, _, dst => return (tot, dst)
  | k + 1, tot, off, dst => do
      if tot < n then
        let addr ← bmap sb e (off / BSIZE)
        if addr = 0 then return ((tot : Int), dst) else
        bread addr
        let v ← peek addr
        let m := min (n - tot) (BSIZE - off % BSIZE)
        brelse addr
        if ok tot m then
          readLoop e ok n k (tot + m) (off + m) fun j =>
            if tot ≤ j ∧ j < tot + m then Bytes.byte v (off % BSIZE + (j - tot)) else dst j
        else return (-1, dst)
      else return ((tot : Int), dst)

def readi (e : Entry) (ok : Nat → Nat → Bool) (off n : UInt32) : FsM (Int × (Nat → UInt8)) := do
  let ip ← inode e
  if ip.din.size < off ∨ off + n < off then return (0, fun _ => 0) else
  let n := if ip.din.size < off + n then ip.din.size - off else n
  readLoop sb e ok n.toNat n.toNat 0 off.toNat fun _ => 0

/-- A copy to the kernel does not fail. -/
def toKernel : Nat → Nat → Bool := fun _ _ => true

def PGSIZE : Nat := 4096

/-- The pages of a process that are mapped for the user, with their bytes. -/
abbrev UserMem := Nat → Option (Nat → UInt8)

/-- How many bytes `copyin` of `len` bytes at `va` copies before it stops. -/
def UserMem.copied (u : UserMem) : Nat → Nat → Nat → Nat
  | 0, _, _ => 0
  | k + 1, va, len =>
      if len = 0 then 0 else
      match u (va / PGSIZE) with
      | none => 0
      | some _ =>
          min (PGSIZE - va % PGSIZE) len +
            u.copied k (va + min (PGSIZE - va % PGSIZE) len) (len - min (PGSIZE - va % PGSIZE) len)

def UserMem.byte (u : UserMem) (va : Nat) : UInt8 :=
  match u (va / PGSIZE) with
  | none => 0
  | some page => page (va % PGSIZE)

/-- The source of `either_copyin`. -/
inductive Source
  | kernel (src : Nat → UInt8)
  | user (u : UserMem) (addr : Nat)

/-- How many of the `m` bytes at `src + tot` are copied. -/
def Source.copied : Source → Nat → Nat → Nat
  | .kernel _, _, m => m
  | .user u addr, tot, m => u.copied m (addr + tot) m

def Source.byte : Source → Nat → UInt8
  | .kernel src, i => src i
  | .user u addr, i => u.byte (addr + i)

/-- The loop of `writei`, which ends with `tot` and `off`. -/
def writeLoop (e : Entry) (src : Source) (n : Nat) : Nat → Nat → Nat → FsM (Nat × Nat)
  | 0, tot, off => return (tot, off)
  | k + 1, tot, off => do
      if tot < n then
        let addr ← bmap sb e (off / BSIZE)
        if addr = 0 then return (tot, off) else
        bread addr
        let v ← peek addr
        let m := min (n - tot) (BSIZE - off % BSIZE)
        let c := src.copied tot m
        setData addr (Bytes.splice v (off % BSIZE) c fun j => src.byte (tot + j))
        if c < m then
          brelse addr
          return (tot, off)
        else
        logWrite addr
        brelse addr
        writeLoop e src n k (tot + m) (off + m)
      else return (tot, off)

/-- `if(off > ip->size) ip->size = off`. -/
def Dinode.reach (d : Dinode) (off : Nat) : Dinode :=
  if d.size.toNat < off then { d with size := UInt32.ofNat off } else d

def writei (e : Entry) (src : Source) (off n : UInt32) : FsM Int := do
  let ip ← inode e
  if ip.din.size < off ∨ off + n < off then return -1 else
  if MAXFILE * BSIZE < (off + n).toNat then return -1 else
  let (tot, off) ← writeLoop sb e src n.toNat n.toNat 0 off.toNat
  setDin e fun d => d.reach off
  iupdate sb e
  return tot

end Xv6Schedulers.Fs
