import Xv6Schedulers.Fs.State
import Xv6Schedulers.Kernel.Code
import Xv6Schedulers.Vm.PageTable

/-!
# Process — creating and freeing processes with their memory

The functions of `proc.c` that build and take apart a process, run by one hart: the process table
with the fields the schedulers do not use, physical memory, and the reference counts of files and
inodes.

* `Task` is `struct proc` without `kstack` and `context`.
* `System.held` are the spinlocks that the hart holds; `acquire` of one of them panics.
* `fork` and `forkprio` differ as the source has them differ.
-/

namespace Xv6Schedulers.Vm

open Lib Kernel Function
open Fs (Entry NFILE NOFILE)

/-! ## State -/

/-- `struct proc`. -/
structure Task extends Kernel.Proc where
  sz : UInt64
  pagetable : Option Nat
  trapframe : Option Nat
  ofile : Fin NOFILE → Option (Fin NFILE)
  cwd : Option Entry
  name : Fin 16 → UInt8

/-- What the calls of one hart work on; `cur` is `myproc()`. -/
structure System where
  mem : Memory
  task : Slot → Task
  nextpid : Int32
  held : Lock → Bool
  fileRef : Fin NFILE → Int32
  inodeRef : Entry → Int32
  cur : Slot

namespace System

@[simps]
def setHeld (s : System) (l : Lock) (b : Bool) : System := { s with held := update s.held l b }

@[simps]
def modTask (s : System) (i : Slot) (f : Task → Task) : System :=
  { s with task := update s.task i (f (s.task i)) }

end System

abbrev Sys (α : Type) := Exec Panic System α

def onMem {α : Type} (x : Code α) : Sys α :=
  Exec.within System.mem (fun m s => { s with mem := m }) x

def getTask (i : Slot) : Sys Task := Exec.read fun s => s.task i

def modTask (i : Slot) (f : Task → Task) : Sys Unit := modify fun s => s.modTask i f

def myproc : Sys Slot := Exec.read System.cur

/-- A pointer that the code follows. -/
def deref {α : Type} : Option α → Sys α
  | none => throw .kerneltrap
  | some a => pure a

def acquire (l : Lock) : Sys Unit := fun s =>
  if s.held l then .error .acquire else .ok ((), s.setHeld l true)

def release (l : Lock) : Sys Unit := fun s =>
  if s.held l then .ok ((), s.setHeld l false) else .error .release

/-! ## Files and names -/

def filedup (f : Fin NFILE) : Sys Unit := fun s =>
  if s.fileRef f < 1 then
    .error .filedup
  else
    .ok ((), { s with fileRef := update s.fileRef f (s.fileRef f + 1) })

def idup (e : Entry) : Sys Unit :=
  modify fun s => { s with inodeRef := update s.inodeRef e (s.inodeRef e + 1) }

/-- How many bytes `safestrcpy` copies: up to a NUL byte, and at most `n - 1`. -/
def strLen (t : Fin 16 → UInt8) : (n i : Nat) → Nat
  | 0, i => i
  | n + 1, i => if t (Fin.ofNat 16 i) = 0 then i else strLen t n (i + 1)

def safestrcpy (dst src : Fin 16 → UInt8) : Fin 16 → UInt8 :=
  let len := strLen src 15 0
  fun i => if i.val < len then src i else if i.val = len then 0 else dst i

/-! ## Page tables of processes -/

def procPagetable (trapframe : Nat) : Code (Option Nat) := do
  match ← uvmcreate with
  | none => pure none
  | some pagetable =>
      let trampoline ← Exec.read Memory.trampoline
      if ← mappages pagetable TRAMPOLINE PGSIZE trampoline (PTE_R ||| PTE_X) then
        if ← mappages pagetable TRAPFRAME PGSIZE trapframe (PTE_R ||| PTE_W) then
          pure (some pagetable)
        else
          uvmunmap pagetable TRAMPOLINE 1 false
          uvmfree pagetable 0
          pure none
      else
        uvmfree pagetable 0
        pure none

def procFreepagetable (pagetable sz : Nat) : Code Unit := do
  uvmunmap pagetable TRAMPOLINE 1 false
  uvmunmap pagetable TRAPFRAME 1 false
  uvmfree pagetable sz

/-! ## `freeproc` and `allocproc` -/

/-- The assignments of `freeproc`. -/
def Task.freed (t : Task) : Task :=
  { t with
    trapframe := none
    pagetable := none
    sz := 0
    pid := 0
    parent := none
    name := update t.name 0 0
    chan := none
    killed := 0
    xstate := 0
    state := .unused }

/-- The memory that `freeproc` gives back. -/
def freeMemory (t : Task) : Code Unit := do
  match t.trapframe with
  | none => pure ()
  | some p => kfree p
  match t.pagetable with
  | none => pure ()
  | some pt => procFreepagetable pt t.sz.toNat

def freeproc (i : Slot) : Sys Unit := do
  let t ← getTask i
  onMem (freeMemory t)
  modTask i Task.freed

def allocpid : Sys Int32 := do
  acquire .pid
  let pid ← Exec.read System.nextpid
  modify fun s => { s with nextpid := pid + 1 }
  release .pid
  pure pid

/-- The loop of `allocproc` over the table. -/
def findUnused : List Slot → Sys (Option Slot)
  | [] => pure none
  | i :: rest => do
      acquire (.proc i)
      if (← getTask i).state = .unused then
        pure (some i)
      else
        release (.proc i)
        findUnused rest

/-- The error exits of `allocproc`. -/
def giveUp (i : Slot) : Sys (Option Slot) := do
  freeproc i
  release (.proc i)
  pure none

/-- `allocproc`; the new process is returned locked. -/
def allocproc : Sys (Option Slot) := do
  match ← findUnused (List.finRange NPROC) with
  | none => pure none
  | some i =>
      let pid ← allocpid
      modTask i fun t => { t with pid := pid }
      modTask i fun t => { t with state := .used }
      let page ← onMem kalloc
      modTask i fun t => { t with trapframe := page }
      match page with
      | none => giveUp i
      | some trapframe =>
          let pagetable ← onMem (procPagetable trapframe)
          modTask i fun t => { t with pagetable := pagetable }
          match pagetable with
          | none => giveUp i
          | some _ =>
              modTask i fun t => { t with prioridade := 3 }
              pure (some i)

/-! ## `growproc` -/

/-- `growproc`; an `int` added to a `uint64` is extended by its sign. -/
def growproc (n : Int32) : Sys Int32 := do
  let p ← myproc
  let t ← getTask p
  let newsz := t.sz + n.toInt64.toUInt64
  if 0 < n then
    let pagetable ← deref t.pagetable
    let sz ← onMem (uvmalloc pagetable t.sz.toNat newsz.toNat PTE_W)
    if sz = 0 then
      pure (-1)
    else
      modTask p fun t => { t with sz := UInt64.ofNat sz }
      pure 0
  else if n < 0 then
    let pagetable ← deref t.pagetable
    let sz ← onMem (uvmdealloc pagetable t.sz.toNat newsz.toNat)
    modTask p fun t => { t with sz := UInt64.ofNat sz }
    pure 0
  else
    modTask p fun t => { t with sz := t.sz }
    pure 0

/-! ## `fork` and `forkprio` -/

/-- `uvmcopy(p->pagetable, np->pagetable, p->sz)`. -/
def copyMemory (p np : Slot) : Sys Bool := do
  let old ← deref (← getTask p).pagetable
  let new ← deref (← getTask np).pagetable
  onMem (uvmcopy old new (← getTask p).sz.toNat)

/-- The words of `struct trapframe`, and the place of `a0` among them. -/
def trapframeWords : Nat := 36
def a0Word : Fin 512 := 14

/-- `*(np->trapframe) = *(p->trapframe); np->trapframe->a0 = 0`. -/
def copyTrapframe (p np : Slot) : Sys Unit := do
  let src ← deref (← getTask p).trapframe
  let dst ← deref (← getTask np).trapframe
  onMem (modify fun m => m.setPage dst fun i =>
    if i.val < trapframeWords then m.page src i else m.page dst i)
  onMem (setWord dst a0Word 0)

/-- One round of the loop over the open files. -/
def dupFile (p np : Slot) (i : Fin NOFILE) : Sys Unit := do
  match (← getTask p).ofile i with
  | none => pure ()
  | some f =>
      filedup f
      modTask np fun t => { t with ofile := update t.ofile i (some f) }

/-- From `np->sz = p->sz` to `safestrcpy`; both functions have these lines. -/
def inherit (p np : Slot) : Sys Unit := do
  let parent ← getTask p
  modTask np fun t => { t with sz := parent.sz }
  copyTrapframe p np
  Exec.each (fun k => dupFile p np (Fin.ofNat NOFILE k)) NOFILE 0
  let cwd ← deref (← getTask p).cwd
  idup cwd
  modTask np fun t => { t with cwd := some cwd }
  let name := (← getTask p).name
  modTask np fun t => { t with name := safestrcpy t.name name }

/-- From `release(&np->lock)` to the end; both functions have these lines. -/
def start (p np : Slot) : Sys Unit := do
  release (.proc np)
  acquire .wait
  modTask np fun t => { t with parent := some p }
  release .wait
  acquire (.proc np)
  modTask np fun t => { t with state := .runnable }
  release (.proc np)

def fork (cls : Int32) : Sys Int32 := do
  let p ← myproc
  match ← allocproc with
  | none => pure (-1)
  | some np =>
      modTask np fun t => { t with classe := cls }
      if ← copyMemory p np then
        inherit p np
        let pid := (← getTask np).pid
        start p np
        pure pid
      else
        freeproc np
        release (.proc np)
        pure (-1)

/-- The scheduling parameters that `forkprio` sets. -/
def Task.setParams (prio : Int32) (t : Task) : Task :=
  { t with
    tickets := prioTickets prio
    stride := 10000 / prioTickets prio
    pass := 0 }

def forkprio (prio : Int32) : Sys Int32 := do
  let p ← myproc
  match ← allocproc with
  | none => pure (-1)
  | some np =>
      modTask np fun t => { t with classe := prio }
      if ← copyMemory p np then
        inherit p np
        let pid := (← getTask np).pid
        modTask np (Task.setParams prio)
        start p np
        pure pid
      else
        -- `np->lock` is still held from `allocproc`
        acquire (.proc np)
        freeproc np
        release (.proc np)
        pure (-1)

end Xv6Schedulers.Vm
