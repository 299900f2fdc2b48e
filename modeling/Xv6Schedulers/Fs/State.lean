import Mathlib.Logic.Function.Basic
import Xv6Schedulers.Fs.Layout
import Xv6Schedulers.Lib.Prog

/-!
# State — the tables of the file system and the operations of its code

The code of `fs.c`, `file.c` and `sysfile.c` runs one system call at a time here.  It is a program
over the operations of `Op`: reading and assigning the in-memory tables, and the calls into `bio.c`
and `log.c`.

* `Tables` holds `itable`, `ftable` and what a process has of the file system.
* `World` runs the operations over the blocks as the buffer cache presents them, so `log_write`,
  `begin_op` and `end_op` do nothing to it.
* `Op.note` is a ghost operation: it records the on-disk inode of a name that a lookup returned.
-/

namespace Xv6Schedulers.Fs

open Lib Log Function

/-! ## Tables -/

def NINODE : Nat := 50
def NFILE : Nat := 100
def NOFILE : Nat := 16
def NPROC : Nat := 64
def NDEV : Nat := 10

instance : NeZero NINODE := ⟨by decide⟩
instance : NeZero NFILE := ⟨by decide⟩
instance : NeZero NOFILE := ⟨by decide⟩
instance : NeZero NPROC := ⟨by decide⟩

/-- A pointer into `itable.inode`. -/
abbrev Entry := Fin NINODE

/-- `struct inode`: `din` is the copy of the disk inode. -/
structure Inode where
  dev : Nat
  inum : Nat
  ref : Int
  locked : Bool
  valid : Bool
  din : Dinode
  deriving DecidableEq

inductive FdType
  | none
  | pipe
  | inode
  | device
  deriving DecidableEq

structure File where
  type : FdType
  ref : Int
  readable : Bool
  writable : Bool
  ip : Entry
  off : UInt32
  major : Int16
  deriving DecidableEq

/-- What `struct proc` has of the file system; `live` is false in a slot that `allocproc` may
take. -/
structure Proc where
  live : Bool
  cwd : Option Entry
  ofile : Fin NOFILE → Option (Fin NFILE)
  deriving DecidableEq

structure Tables where
  inode : Entry → Inode
  file : Fin NFILE → File
  proc : Fin NPROC → Proc

/-! ## Operations -/

/-- Why a call does not return: the panics of the code, and `asleep` for a call that waits for a
sleep-lock it holds itself. -/
inductive Halt
  /-- `freeing free block` -/
  | freeingFreeBlock
  /-- `iget: no inodes` -/
  | noInodes
  /-- `ilock` -/
  | ilock
  /-- `ilock: no type` -/
  | noType
  /-- `iunlock` -/
  | iunlock
  /-- `bmap: out of range` -/
  | bmapRange
  /-- `dirlookup not DIR` -/
  | dirlookupNotDir
  /-- `dirlookup read` -/
  | dirlookupRead
  /-- `dirlink read` -/
  | dirlinkRead
  /-- `isdirempty: readi` -/
  | isdiremptyRead
  /-- `unlink: nlink < 1` -/
  | unlinkNlink
  /-- `unlink: writei` -/
  | unlinkWritei
  /-- `filedup` -/
  | filedup
  /-- `fileclose` -/
  | fileclose
  /-- `fileread` -/
  | fileread
  /-- `filewrite` -/
  | filewrite
  /-- `init exiting` -/
  | initExiting
  | asleep
  deriving DecidableEq

inductive Op
  | getTab
  | setTab (t : Tables)
  /-- `bread` -/
  | bread (b : BlockNo)
  /-- the data of a buffer that `bread` returned -/
  | peek (b : BlockNo)
  /-- assignments to `bp->data` -/
  | setData (b : BlockNo) (v : Block)
  /-- `log_write` -/
  | logWrite (b : BlockNo)
  /-- `brelse` -/
  | brelse (b : BlockNo)
  /-- `begin_op` -/
  | beginOp
  /-- `end_op` -/
  | endOp
  /-- a lookup returned the inode `inum` for a name -/
  | note (name : Name) (inum : Nat)

def Op.Ans : Op → Type
  | .getTab => Tables
  | .peek _ => Block
  | _ => Unit

def Ops : Interface := ⟨Op, Op.Ans⟩

abbrev FsM := Prog Ops Halt

section Operations

def getTab : FsM Tables := .op (.getTab : Op) fun t => .ret t
def setTab (t : Tables) : FsM Unit := .op (.setTab t : Op) fun _ => .ret ()
def bread (b : BlockNo) : FsM Unit := .op (.bread b : Op) fun _ => .ret ()
def peek (b : BlockNo) : FsM Block := .op (.peek b : Op) fun v => .ret v
def setData (b : BlockNo) (v : Block) : FsM Unit := .op (.setData b v : Op) fun _ => .ret ()
def logWrite (b : BlockNo) : FsM Unit := .op (.logWrite b : Op) fun _ => .ret ()
def brelse (b : BlockNo) : FsM Unit := .op (.brelse b : Op) fun _ => .ret ()
def beginOp : FsM Unit := .op (.beginOp : Op) fun _ => .ret ()
def endOp : FsM Unit := .op (.endOp : Op) fun _ => .ret ()
def note (name : Name) (inum : Nat) : FsM Unit := .op (.note name inum : Op) fun _ => .ret ()

/-- `*ip`. -/
def inode (e : Entry) : FsM Inode := do
  let t ← getTab
  return t.inode e

/-- Assign `*ip`. -/
def setInode (e : Entry) (ip : Inode) : FsM Unit := do
  let t ← getTab
  setTab { t with inode := update t.inode e ip }

/-- `*f`. -/
def file (f : Fin NFILE) : FsM File := do
  let t ← getTab
  return t.file f

def setFile (f : Fin NFILE) (x : File) : FsM Unit := do
  let t ← getTab
  setTab { t with file := update t.file f x }

def proc (p : Fin NPROC) : FsM Proc := do
  let t ← getTab
  return t.proc p

def setProc (p : Fin NPROC) (x : Proc) : FsM Unit := do
  let t ← getTab
  setTab { t with proc := update t.proc p x }

end Operations

/-! ## The operations over the blocks -/

/-- The blocks as the buffer cache presents them, the tables, and what the lookups returned. -/
structure World where
  disk : Disk
  tab : Tables
  found : List (Name × Dinode)

def World.setInode (s : World) (e : Entry) (ip : Inode) : World :=
  { s with tab := { s.tab with inode := update s.tab.inode e ip } }

@[simp] theorem setInode_self {s : World} {e : Entry} {ip : Inode} :
    (s.setInode e ip).tab.inode e = ip :=
  update_self _ _ _

/-- The inode `inum` as its block holds it. -/
def Super.dinode (sb : Super) (d : Disk) (inum : Nat) : Dinode :=
  Block.dinode (d (sb.iblock inum)) (inum % IPB)

/-- What the operations do. -/
def handler (sb : Super) : Prog.Handler Ops World
  | (.getTab : Op), w => (w.tab, w)
  | (.setTab t : Op), w => ((), { w with tab := t })
  | (.bread _ : Op), w => ((), w)
  | (.peek b : Op), w => (w.disk b, w)
  | (.setData b v : Op), w => ((), { w with disk := update w.disk b v })
  | (.logWrite _ : Op), w => ((), w)
  | (.brelse _ : Op), w => ((), w)
  | (.beginOp : Op), w => ((), w)
  | (.endOp : Op), w => ((), w)
  | (.note name inum : Op), w =>
      ((), { w with found := (name, sb.dinode w.disk inum) :: w.found })

end Xv6Schedulers.Fs
