import Mathlib.Algebra.Ring.Nat
import Xv6Schedulers.Lib.Exec

/-!
# Memory — physical pages and their allocator

Physical memory is a function from page numbers to pages of 512 words, which hold user data or the
entries of a page table alike.  `kalloc` and `kfree` of `kalloc.c` move pages off and onto the free
list; `kmem.lock` is held only inside them and is left out.
-/

namespace Xv6Schedulers.Vm

open Lib

instance neZero_words : NeZero 512 := ⟨by decide⟩

/-- The panics of the memory system and of its callers. -/
inductive Panic
  /-- `kfree` -/
  | kfree
  /-- `walk` -/
  | walk
  /-- `mappages: va not aligned` -/
  | mappagesVa
  /-- `mappages: size not aligned` -/
  | mappagesAlign
  /-- `mappages: size` -/
  | mappagesSize
  /-- `mappages: remap` -/
  | remap
  /-- `uvmunmap: not aligned` -/
  | uvmunmapAlign
  /-- `uvmunmap: walk` -/
  | uvmunmapWalk
  /-- `uvmunmap: not mapped` -/
  | uvmunmapNotMapped
  /-- `uvmunmap: not a leaf` -/
  | uvmunmapNotLeaf
  /-- `freewalk: leaf` -/
  | freewalkLeaf
  /-- a page table with more than three levels -/
  | freewalkDeep
  /-- `uvmcopy: pte should exist` -/
  | uvmcopyPte
  /-- `uvmcopy: page not present` -/
  | uvmcopyPresent
  /-- `uvmclear` -/
  | uvmclear
  /-- `loadseg: address should exist` -/
  | loadseg
  /-- `acquire` -/
  | acquire
  /-- `release` -/
  | release
  /-- `filedup` -/
  | filedup
  /-- `kerneltrap`: a null pointer is used -/
  | kerneltrap
  /-- a write past the end of `ustack` in `exec` -/
  | ustack
  deriving DecidableEq, Repr

def PGSIZE : Nat := 4096

/-- `KERNBASE`, as a page number. -/
def KERNBASE : Nat := 0x80000

/-- `PHYSTOP`, as a page number. -/
def PHYSTOP : Nat := KERNBASE + 128 * 1024 * 1024 / PGSIZE

abbrev Page := Fin 512 → UInt64

/-- Physical memory: `kernelEnd` is the first page after the kernel, `trampoline` the page with the
code of `trampoline.S`. -/
structure Memory where
  page : Nat → Page
  freelist : List Nat
  kernelEnd : Nat
  trampoline : Nat

namespace Memory

@[simps]
def setPage (m : Memory) (p : Nat) (v : Page) : Memory :=
  { m with page := Function.update m.page p v }

@[simps]
def setFreelist (m : Memory) (l : List Nat) : Memory := { m with freelist := l }

def setWord (m : Memory) (p : Nat) (i : Fin 512) (w : UInt64) : Memory :=
  m.setPage p (Function.update (m.page p) i w)

end Memory

abbrev Code (α : Type) := Exec Panic Memory α

/-- `memset(p, c, PGSIZE)` for a byte `c` repeated in a word. -/
def memset (p : Nat) (w : UInt64) : Code Unit := modify fun m => m.setPage p fun _ => w

/-- `memmove(dst, src, PGSIZE)` for two pages. -/
def memmove (dst src : Nat) : Code Unit := modify fun m => m.setPage dst (m.page src)

def getWord (p : Nat) (i : Fin 512) : Code UInt64 := Exec.read fun m => m.page p i

def setWord (p : Nat) (i : Fin 512) (w : UInt64) : Code Unit := modify fun m => m.setWord p i w

/-- The page with every byte 5. -/
def junk : UInt64 := 0x0505050505050505

/-- The page with every byte 1. -/
def dangling : UInt64 := 0x0101010101010101

/-- `kalloc`; `none` is the null pointer. -/
def kalloc : Code (Option Nat) := fun m =>
  match m.freelist with
  | [] => .ok (none, m)
  | p :: rest => .ok (some p, (m.setFreelist rest).setPage p fun _ => junk)

def kfree (p : Nat) : Code Unit := fun m =>
  if p < m.kernelEnd ∨ PHYSTOP ≤ p then
    .error .kfree
  else
    .ok ((), (m.setPage p fun _ => dangling).setFreelist (p :: m.freelist))

end Xv6Schedulers.Vm
