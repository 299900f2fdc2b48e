import Xv6Schedulers.Vm.Copy
import Xv6Schedulers.Vm.Process

/-!
# Program — `exec`

`exec.c`: the ELF file is read into a new page table, a stack with the arguments is put above it, and
the process takes the new table; whatever fails before that goes to the label `bad`.

* What `namei` finds is an input of the call: no inode, or one with these bytes.
* `Host.calls` are the calls into the file system so far.
* A C string is a list of bytes without its NUL; it fits in memory, so its length is below `2 ^ 31`.
-/

namespace Xv6Schedulers.Vm

open Lib Kernel
open Fs (Entry)

/-! ## Calls into the file system -/

/-- The calls of `exec` into the file system. -/
inductive FsCall
  | beginOp
  | namei
  | ilock (ip : Entry)
  | readi (ip : Entry) (off n : UInt32)
  | iunlockput (ip : Entry)
  | endOp
  deriving DecidableEq, Repr

/-- The kernel, and the calls into the file system so far. -/
structure Host where
  sys : System
  calls : List FsCall

abbrev Run (α : Type) := Exec Panic Host α

def onSys {α : Type} (x : Sys α) : Run α := Exec.within Host.sys (fun s h => { h with sys := s }) x

def call (c : FsCall) : Run Unit := modify fun h => { h with calls := h.calls ++ [c] }

/-- An inode that `namei` found: its place in the inode table, and its bytes. -/
structure File where
  ip : Entry
  data : List UInt8

/-- The bytes that `readi(ip, 0, dst, off, n)` writes to `dst`. -/
def File.read (f : File) (off n : UInt32) : List UInt8 :=
  let size := UInt32.ofNat f.data.length
  if size < off ∨ off + n < off then
    []
  else if size < off + n then
    (f.data.drop off.toNat).take (size - off).toNat
  else
    (f.data.drop off.toNat).take n.toNat

def readi (f : File) (off n : UInt32) : Run (List UInt8) := do
  call (.readi f.ip off n)
  pure (f.read off n)

/-! ## ELF -/

/-- The little-endian integer in the `n` bytes at offset `off`. -/
def field (buf : List UInt8) (off n : Nat) : Nat := Bytes.value (fun j => buf.getD (off + j) 0) n

/-- `sizeof(struct elfhdr)` and `sizeof(struct proghdr)`. -/
def ELFHDR : Nat := 64
def PROGHDR : Nat := 56

def ELF_MAGIC : Nat := 0x464C457F
def ELF_PROG_LOAD : Nat := 1

/-- The fields of `struct elfhdr` that `exec` uses. -/
structure Elf where
  magic : Nat
  entry : UInt64
  phoff : UInt64
  phnum : Nat

def Elf.ofBytes (buf : List UInt8) : Elf where
  magic := field buf 0 4
  entry := UInt64.ofNat (field buf 24 8)
  phoff := UInt64.ofNat (field buf 32 8)
  phnum := field buf 56 2

/-- The fields of `struct proghdr` that `exec` uses. -/
structure Ph where
  type : Nat
  flags : UInt32
  off : UInt64
  vaddr : UInt64
  filesz : UInt64
  memsz : UInt64

def Ph.ofBytes (buf : List UInt8) : Ph where
  type := field buf 0 4
  flags := UInt32.ofNat (field buf 4 4)
  off := UInt64.ofNat (field buf 8 8)
  vaddr := UInt64.ofNat (field buf 16 8)
  filesz := UInt64.ofNat (field buf 32 8)
  memsz := UInt64.ofNat (field buf 40 8)

def flags2perm (flags : UInt32) : UInt64 :=
  let perm : UInt64 := if flags &&& 0x1 ≠ 0 then PTE_X else 0
  if flags &&& 0x2 ≠ 0 then perm ||| PTE_W else perm

/-! ## Loading -/

/-- The loop of `loadseg` for `n` pages, from the offset `i` of the segment on. -/
def loadPages (pagetable : Nat) (va : UInt64) (f : File) (offset sz : UInt32) :
    (n : Nat) → (i : UInt32) → Run Bool
  | 0, _ => pure true
  | n + 1, i => do
      let pa ← onSys (onMem (walkaddr pagetable (va + i.toUInt64).toNat))
      if pa = 0 then
        throw .loadseg
      else
        let len := if sz - i < 4096 then sz - i else 4096
        let bytes ← readi f (offset + i) len
        onSys (onMem (modify fun m => m.setPage pa (spliceAt (m.page pa) 0 bytes)))
        if bytes.length ≠ len.toNat then
          pure false
        else
          loadPages pagetable va f offset sz n (i + 4096)

/-- `loadseg`; false for `-1`. -/
def loadseg (pagetable : Nat) (va : UInt64) (f : File) (offset sz : UInt32) : Run Bool :=
  loadPages pagetable va f offset sz (pages sz.toNat) 0

/-- The loop over the program headers, `n` of them from `off` on: the new size, and whether `exec` goes
on. -/
def loadSegments (pagetable : Nat) (f : File) : (n : Nat) → (off : UInt32) → (sz : Nat) → Run (Bool × Nat)
  | 0, _, sz => pure (true, sz)
  | n + 1, off, sz => do
      let buf ← readi f off 56
      let ph := Ph.ofBytes buf
      if buf.length ≠ PROGHDR then
        pure (false, sz)
      else if ph.type ≠ ELF_PROG_LOAD then
        loadSegments pagetable f n (off + 56) sz
      else if ph.memsz < ph.filesz then
        pure (false, sz)
      else if ph.vaddr + ph.memsz < ph.vaddr then
        pure (false, sz)
      else if ph.vaddr.toNat % PGSIZE ≠ 0 then
        pure (false, sz)
      else
        let sz1 ← onSys (onMem (uvmalloc pagetable sz (ph.vaddr + ph.memsz).toNat (flags2perm ph.flags)))
        if sz1 = 0 then
          pure (false, sz)
        else if ← loadseg pagetable ph.vaddr f ph.off.toUInt32 ph.filesz.toUInt32 then
          loadSegments pagetable f n (off + 56) sz1
        else
          pure (false, sz1)

/-! ## The stack -/

def USERSTACK : Nat := 1
def MAXARG : Nat := 32

def sub64 (a b : Nat) : Nat := (a + (2 ^ 64 - b % 2 ^ 64)) % 2 ^ 64

/-- The loop over `argv`: `sp` and the addresses that are now in `ustack`. -/
def pushArgs (pagetable stackbase : Nat) :
    (argv : List (List UInt8)) → (sp : Nat) → (ustack : List Nat) → Run (Option (Nat × List Nat))
  | [], sp, ustack => pure (some (sp, ustack))
  | arg :: argv, sp, ustack =>
      if MAXARG ≤ ustack.length then
        pure none
      else do
        let sp := sub64 sp (arg.length + 1)
        let sp := sp - sp % 16
        if sp < stackbase then
          pure none
        else if ← onSys (onMem (copyout pagetable sp (arg ++ [0]))) then
          pushArgs pagetable stackbase argv sp (ustack ++ [sp])
        else
          pure none

def wordBytes (v : Nat) : List UInt8 := (List.range 8).map (Bytes.digits v)

/-- From `ustack[argc] = 0` to the second `copyout`: the final `sp`. -/
def pushPointers (pagetable stackbase sp : Nat) (ustack : List Nat) : Run (Option Nat) :=
  if MAXARG ≤ ustack.length then
    throw .ustack
  else do
    let ustack := ustack ++ [0]
    let sp := sub64 sp (ustack.length * 8)
    let sp := sp - sp % 16
    if sp < stackbase then
      pure none
    else if ← onSys (onMem (copyout pagetable sp (ustack.flatMap wordBytes))) then
      pure (some sp)
    else
      pure none

/-! ## `exec` -/

def bad (pagetable : Option Nat) (sz : Nat) (ip : Option Entry) : Run Unit := do
  match pagetable with
  | none => pure ()
  | some pt => onSys (onMem (procFreepagetable pt sz))
  match ip with
  | none => pure ()
  | some ip => do
      call (.iunlockput ip)
      call .endOp

/-- A new address space with its stack: the table, the size, and where the program starts. -/
structure Prepared where
  pagetable : Nat
  sz : Nat
  entry : UInt64

/-- From `sz = PGROUNDUP(sz)` to `uvmclear`. -/
def makeStack (pagetable sz : Nat) (entry : UInt64) : Run (Option Prepared) := do
  let sz := PGROUNDUP sz
  let sz1 ← onSys (onMem (uvmalloc pagetable sz ((sz + (USERSTACK + 1) * PGSIZE) % 2 ^ 64) PTE_W))
  if sz1 = 0 then
    bad (some pagetable) sz none
    pure none
  else
    onSys (onMem (uvmclear pagetable (sz1 - (USERSTACK + 1) * PGSIZE)))
    pure (some ⟨pagetable, sz1, entry⟩)

/-- From the check of the ELF header to the stack; the inode is locked. -/
def loadFile (f : File) : Run (Option Prepared) := do
  let buf ← readi f 0 64
  let elf := Elf.ofBytes buf
  if buf.length ≠ ELFHDR ∨ elf.magic ≠ ELF_MAGIC then
    bad none 0 (some f.ip)
    pure none
  else
    let p ← onSys myproc
    let trapframe ← onSys (do deref (← getTask p).trapframe)
    match ← onSys (onMem (procPagetable trapframe)) with
    | none =>
        bad none 0 (some f.ip)
        pure none
    | some pagetable =>
        let r ← loadSegments pagetable f elf.phnum elf.phoff.toUInt32 0
        if r.1 then
          call (.iunlockput f.ip)
          call .endOp
          makeStack pagetable r.2 elf.entry
        else
          bad (some pagetable) r.2 (some f.ip)
          pure none

/-- The part of `exec` before the arguments are copied; `none` when it has returned `-1`. -/
def prepare (file : Option File) : Run (Option Prepared) := do
  call .beginOp
  call .namei
  match file with
  | none => do
      call .endOp
      pure none
  | some f => do
      call (.ilock f.ip)
      loadFile f

/-- The name of the program: what follows the last slash of `path`. -/
def lastName : (s last : List UInt8) → List UInt8
  | [], last => last
  | c :: s, last => lastName s (if c = 47 then s else last)

/-- The places of `epc`, `sp` and `a1` in `struct trapframe`. -/
def epcWord : Fin 512 := 3
def spWord : Fin 512 := 6
def a1Word : Fin 512 := 15

/-- From `p->trapframe->a1 = sp` to the end of `exec`. -/
def commit (path : List UInt8) (img : Prepared) (oldsz sp : Nat) : Sys Unit := do
  let p ← myproc
  let trapframe ← deref (← getTask p).trapframe
  onMem (setWord trapframe a1Word (UInt64.ofNat sp))
  let last := lastName path path
  modTask p fun t => { t with name := safestrcpy t.name fun i => last.getD i.val 0 }
  let oldpagetable ← deref (← getTask p).pagetable
  modTask p fun t => { t with pagetable := some img.pagetable }
  modTask p fun t => { t with sz := UInt64.ofNat img.sz }
  onMem (setWord trapframe epcWord img.entry)
  onMem (setWord trapframe spWord (UInt64.ofNat sp))
  onMem (procFreepagetable oldpagetable oldsz)

/-- The part of `exec` that copies the arguments and takes the new address space. -/
def finish (path : List UInt8) (img : Prepared) (argv : List (List UInt8)) : Run Int32 := do
  let p ← onSys myproc
  let oldsz := (← onSys (getTask p)).sz.toNat
  let stackbase := img.sz - USERSTACK * PGSIZE
  match ← pushArgs img.pagetable stackbase argv img.sz [] with
  | none =>
      bad (some img.pagetable) img.sz none
      pure (-1)
  | some (sp, ustack) =>
      match ← pushPointers img.pagetable stackbase sp ustack with
      | none =>
          bad (some img.pagetable) img.sz none
          pure (-1)
      | some sp =>
          onSys (commit path img oldsz sp)
          pure (Int32.ofNat ustack.length)

def exec (path : List UInt8) (file : Option File) (argv : List (List UInt8)) : Run Int32 := do
  match ← prepare file with
  | none => pure (-1)
  | some img => finish path img argv

end Xv6Schedulers.Vm
