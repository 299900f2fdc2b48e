import Xv6Schedulers.Vm.Memory

/-!
# PageTable — the three-level tables of `vm.c`

The functions of `vm.c` as they read and write the words of page-table pages.  A `pte_t *` is a page
and an index; a null pointer is `none`.  Loops over addresses count pages, so that `freewalk`, which
recurses as deep as the entries lead, is the only one that needs a bound.
-/

namespace Xv6Schedulers.Vm

open Lib

/-! ## Entries -/

def PTE_V : UInt64 := 1
def PTE_R : UInt64 := 2
def PTE_W : UInt64 := 4
def PTE_X : UInt64 := 8
def PTE_U : UInt64 := 16

/-- `PA2PTE`, of the page with number `p`. -/
def pa2pte (p : Nat) : UInt64 := UInt64.ofNat p <<< 10

/-- `PTE2PA`, as a page number. -/
def pte2pa (pte : UInt64) : Nat := (pte >>> 10).toNat % 2 ^ 52

def pteFlags (pte : UInt64) : UInt64 := pte &&& 0x3FF

def MAXVA : Nat := 2 ^ 38
def TRAMPOLINE : Nat := MAXVA - PGSIZE
def TRAPFRAME : Nat := TRAMPOLINE - PGSIZE

def px (level va : Nat) : Fin 512 := ⟨va / 2 ^ (12 + 9 * level) % 512, Nat.mod_lt _ (by decide)⟩

/-- The number of pages that `sz` bytes take: `PGROUNDUP(sz)/PGSIZE`. -/
def pages (sz : Nat) : Nat := (sz + PGSIZE - 1) / PGSIZE

/-- A `pte_t *`. -/
structure PteRef where
  page : Nat
  idx : Fin 512
  deriving DecidableEq

def PteRef.get (r : PteRef) : Code UInt64 := getWord r.page r.idx

def PteRef.set (r : PteRef) (w : UInt64) : Code Unit := setWord r.page r.idx w

/-! ## `walk` and `mappages` -/

/-- The loop of `walk` from a table of this level. -/
def walkFrom (va : Nat) (alloc : Bool) : (level table : Nat) → Code (Option PteRef)
  | 0, table => pure (some ⟨table, px 0 va⟩)
  | level + 1, table => do
      let pte ← getWord table (px (level + 1) va)
      if pte &&& PTE_V ≠ 0 then
        walkFrom va alloc level (pte2pa pte)
      else if alloc then
        match ← kalloc with
        | none => pure none
        | some p =>
            memset p 0
            setWord table (px (level + 1) va) (pa2pte p ||| PTE_V)
            walkFrom va alloc level p
      else
        pure none

def walk (pagetable va : Nat) (alloc : Bool) : Code (Option PteRef) :=
  if MAXVA ≤ va then
    throw .walk
  else
    walkFrom va alloc 2 pagetable

/-- The loop of `mappages`: `n` pages from `a` on, to the pages from `p` on. -/
def mapPages (pagetable : Nat) (perm : UInt64) : (n a p : Nat) → Code Bool
  | 0, _, _ => pure true
  | n + 1, a, p => do
      match ← walk pagetable a true with
      | none => pure false
      | some ref =>
          if (← ref.get) &&& PTE_V ≠ 0 then
            throw .remap
          else
            ref.set (pa2pte p ||| perm ||| PTE_V)
            mapPages pagetable perm n (a + PGSIZE) (p + 1)

/-- `mappages`, to the page `p`; false for `-1`. -/
def mappages (pagetable va size p : Nat) (perm : UInt64) : Code Bool :=
  if va % PGSIZE ≠ 0 then
    throw .mappagesVa
  else if size % PGSIZE ≠ 0 then
    throw .mappagesAlign
  else if size = 0 then
    throw .mappagesSize
  else
    mapPages pagetable perm (size / PGSIZE) va p

/-! ## User tables -/

/-- One round of `uvmunmap`. -/
def unmapPage (pagetable a : Nat) (doFree : Bool) : Code Unit := do
  match ← walk pagetable a false with
  | none => throw .uvmunmapWalk
  | some ref =>
      let pte ← ref.get
      if pte &&& PTE_V = 0 then
        throw .uvmunmapNotMapped
      else if pteFlags pte = PTE_V then
        throw .uvmunmapNotLeaf
      else
        if doFree then
          kfree (pte2pa pte)
        ref.set 0

def uvmunmap (pagetable va npages : Nat) (doFree : Bool) : Code Unit :=
  if va % PGSIZE ≠ 0 then
    throw .uvmunmapAlign
  else
    Exec.each (fun k => unmapPage pagetable (va + k * PGSIZE) doFree) npages 0

def uvmcreate : Code (Option Nat) := do
  match ← kalloc with
  | none => pure none
  | some p =>
      memset p 0
      pure (some p)

def PGROUNDUP (sz : Nat) : Nat := (sz + PGSIZE - 1) % 2 ^ 64 / PGSIZE * PGSIZE

/-- A number that is kept in an `int` and passed as a `uint64`. -/
def viaInt (n : Nat) : Nat := (Int32.ofNat n).toInt64.toUInt64.toNat

def uvmdealloc (pagetable oldsz newsz : Nat) : Code Nat :=
  if oldsz ≤ newsz then
    pure oldsz
  else do
    if PGROUNDUP newsz < PGROUNDUP oldsz then
      uvmunmap pagetable (PGROUNDUP newsz)
        (viaInt ((PGROUNDUP oldsz - PGROUNDUP newsz) / PGSIZE)) true
    pure newsz

/-- The loop of `uvmalloc` for `n` pages from `a` on; false when it has to undo. -/
def allocPages (pagetable : Nat) (perm : UInt64) (oldsz : Nat) : (n a : Nat) → Code Bool
  | 0, _ => pure true
  | n + 1, a => do
      match ← kalloc with
      | none =>
          let _ ← uvmdealloc pagetable a oldsz
          pure false
      | some mem =>
          memset mem 0
          if ← mappages pagetable a PGSIZE mem perm then
            allocPages pagetable perm oldsz n (a + PGSIZE)
          else
            kfree mem
            let _ ← uvmdealloc pagetable a oldsz
            pure false

/-- `uvmalloc`; `a` cannot pass `2 ^ 64`, as `walk` does not accept `MAXVA`. -/
def uvmalloc (pagetable oldsz newsz : Nat) (xperm : UInt64) : Code Nat :=
  if newsz < oldsz then
    pure oldsz
  else do
    let a := PGROUNDUP oldsz
    if ← allocPages pagetable (PTE_R ||| PTE_U ||| xperm) a (pages (newsz - a)) a then
      pure newsz
    else
      pure 0

/-- `freewalk`, for tables with at most this many levels. -/
def freewalk : (levels table : Nat) → Code Unit
  | 0, _ => throw .freewalkDeep
  | levels + 1, table => do
      Exec.each (fun k => do
        let i : Fin 512 := Fin.ofNat 512 k
        let pte ← getWord table i
        if pte &&& PTE_V ≠ 0 ∧ pte &&& (PTE_R ||| PTE_W ||| PTE_X) = 0 then
          freewalk levels (pte2pa pte)
          setWord table i 0
        else if pte &&& PTE_V ≠ 0 then
          throw .freewalkLeaf) 512 0
      kfree table

def uvmfree (pagetable sz : Nat) : Code Unit := do
  if 0 < sz then
    uvmunmap pagetable 0 (pages sz) true
  freewalk 3 pagetable

/-- The loop of `uvmcopy` for `n` pages, of which `k` are copied; the label `err` is inlined. -/
def copyPages (old new : Nat) : (n k : Nat) → Code Bool
  | 0, _ => pure true
  | n + 1, k => do
      match ← walk old (k * PGSIZE) false with
      | none => throw .uvmcopyPte
      | some ref =>
          let pte ← ref.get
          if pte &&& PTE_V = 0 then
            throw .uvmcopyPresent
          else
            match ← kalloc with
            | none =>
                uvmunmap new 0 k true
                pure false
            | some mem =>
                memmove mem (pte2pa pte)
                if ← mappages new (k * PGSIZE) PGSIZE mem (pteFlags pte) then
                  copyPages old new n (k + 1)
                else
                  kfree mem
                  uvmunmap new 0 k true
                  pure false

/-- `uvmcopy`; false for `-1`. -/
def uvmcopy (old new sz : Nat) : Code Bool := copyPages old new (pages sz) 0

def uvmclear (pagetable va : Nat) : Code Unit := do
  match ← walk pagetable va false with
  | none => throw .uvmclear
  | some ref =>
      let pte ← ref.get
      ref.set (pte &&& ~~~PTE_U)

end Xv6Schedulers.Vm
