import Xv6Schedulers.Lib.Bytes
import Xv6Schedulers.Vm.PageTable

/-!
# Copy — between the kernel and user memory

`walkaddr`, `copyout`, `copyin` and `copyinstr` of `vm.c` and `fetchstr` of `syscall.c`.  A page is
read and written by bytes, eight to a word.  Addresses are 64-bit numbers; the one sum that could pass
`2 ^ 64` is reduced.  The kernel's side of a copy is a list: the bytes that are to be written, or the
bytes that were written to `dst` when the call returns.
-/

namespace Xv6Schedulers.Vm

open Lib

/-! ## Bytes of a page -/

/-- The byte at offset `i` of a page. -/
def byteAt (pg : Page) (i : Nat) : UInt8 := Bytes.digits (pg (Fin.ofNat 512 (i / 8))).toNat (i % 8)

/-- `memmove` of `src` to offset `off` of a page. -/
def spliceAt (pg : Page) (off : Nat) (src : List UInt8) : Page := fun w =>
  UInt64.ofNat (Bytes.value (fun j =>
    let i := 8 * w.val + j
    if off ≤ i ∧ i < off + src.length then src.getD (i - off) 0 else byteAt pg i) 8)

/-- The bytes from offset `i` on. -/
def bytesOf (pg : Page) (i n : Nat) : List UInt8 := (List.range n).map fun j => byteAt pg (i + j)

theorem byteAt_spliceAt (pg : Page) (off : Nat) (src : List UInt8) {i : Nat} (hi : i < PGSIZE) :
    byteAt (spliceAt pg off src) i =
      if off ≤ i ∧ i < off + src.length then src.getD (i - off) 0 else byteAt pg i := by
  have hword : (Fin.ofNat 512 (i / 8)).val = i / 8 := Nat.mod_eq_of_lt (by
    simp only [PGSIZE] at hi
    omega)
  have hback : 8 * (i / 8) + i % 8 = i := Nat.div_add_mod i 8
  rw [byteAt, spliceAt, UInt64.toNat_ofNat_of_lt' (Bytes.value_lt _ 8),
    Bytes.digits_value _ (Nat.mod_lt i (by decide))]
  simp only [hword, hback]

/-! ## `walkaddr` and the copies -/

def PGROUNDDOWN (a : Nat) : Nat := a / PGSIZE * PGSIZE

/-- `walkaddr`, as a page number. -/
def walkaddr (pagetable va : Nat) : Code Nat :=
  if MAXVA ≤ va then
    pure 0
  else do
    match ← walk pagetable va false with
    | none => pure 0
    | some ref =>
        let pte ← ref.get
        if pte &&& PTE_V = 0 then
          pure 0
        else if pte &&& PTE_U = 0 then
          pure 0
        else
          pure (pte2pa pte)

/-- The loop of `copyout`, for at most this many rounds. -/
def copyoutFrom (pagetable : Nat) : (rounds dstva : Nat) → (src : List UInt8) → Code Bool
  | _, _, [] => pure true
  | 0, _, _ :: _ => pure false
  | rounds + 1, dstva, b :: bs => do
      let src := b :: bs
      let va0 := PGROUNDDOWN dstva
      if MAXVA ≤ va0 then
        pure false
      else
        match ← walk pagetable va0 false with
        | none => pure false
        | some ref =>
            let pte ← ref.get
            if pte &&& PTE_V = 0 ∨ pte &&& PTE_U = 0 ∨ pte &&& PTE_W = 0 then
              pure false
            else
              let pa0 := pte2pa pte
              let n := min (PGSIZE - (dstva - va0)) src.length
              modify fun m => m.setPage pa0 (spliceAt (m.page pa0) (dstva - va0) (src.take n))
              copyoutFrom pagetable rounds ((va0 + PGSIZE) % 2 ^ 64) (src.drop n)

/-- `copyout`; false for `-1`. -/
def copyout (pagetable dstva : Nat) (src : List UInt8) : Code Bool :=
  copyoutFrom pagetable src.length dstva src

/-- The loop of `copyin`, for at most this many rounds. -/
def copyinFrom (pagetable : Nat) : (rounds srcva len : Nat) → Code (Bool × List UInt8)
  | _, _, 0 => pure (true, [])
  | 0, _, _ + 1 => pure (false, [])
  | rounds + 1, srcva, len + 1 => do
      let va0 := PGROUNDDOWN srcva
      let pa0 ← walkaddr pagetable va0
      if pa0 = 0 then
        pure (false, [])
      else
        let n := min (PGSIZE - (srcva - va0)) (len + 1)
        let l ← Exec.read fun m => bytesOf (m.page pa0) (srcva - va0) n
        let r ← copyinFrom pagetable rounds ((va0 + PGSIZE) % 2 ^ 64) (len + 1 - n)
        pure (r.1, l ++ r.2)

/-- `copyin`: false for `-1`, and the bytes written to `dst`. -/
def copyin (pagetable srcva len : Nat) : Code (Bool × List UInt8) :=
  copyinFrom pagetable len srcva len

/-- The inner loop of `copyinstr`: whether a NUL byte was found, and the bytes written. -/
def copyBytes (pg : Page) : (n i : Nat) → Bool × List UInt8
  | 0, _ => (false, [])
  | n + 1, i =>
      if byteAt pg i = 0 then
        (true, [0])
      else
        ((copyBytes pg n (i + 1)).1, byteAt pg i :: (copyBytes pg n (i + 1)).2)

/-- The loop of `copyinstr`, for at most this many rounds. -/
def copyinstrFrom (pagetable : Nat) : (rounds srcva max : Nat) → Code (Bool × List UInt8)
  | _, _, 0 => pure (false, [])
  | 0, _, _ + 1 => pure (false, [])
  | rounds + 1, srcva, max + 1 => do
      let va0 := PGROUNDDOWN srcva
      let pa0 ← walkaddr pagetable va0
      if pa0 = 0 then
        pure (false, [])
      else
        let n := min (PGSIZE - (srcva - va0)) (max + 1)
        let r ← Exec.read fun m => copyBytes (m.page pa0) n (srcva - va0)
        if r.1 then
          pure r
        else
          let r' ← copyinstrFrom pagetable rounds ((va0 + PGSIZE) % 2 ^ 64) (max + 1 - n)
          pure (r'.1, r.2 ++ r'.2)

/-- `copyinstr`: false for `-1`, and the bytes written to `dst`. -/
def copyinstr (pagetable srcva max : Nat) : Code (Bool × List UInt8) :=
  copyinstrFrom pagetable max srcva max

/-! ## `fetchstr` -/

/-- `strlen`, of a buffer that holds these bytes. -/
def strlen (buf : List UInt8) : Int32 := Int32.ofNat (buf.findIdx (· = 0))

/-- `fetchstr` for a process with this page table: the value it returns, and the buffer. -/
def fetchstr (pagetable addr : Nat) (buf : List UInt8) (max : Int32) : Code (Int32 × List UInt8) := do
  let r ← copyinstr pagetable addr max.toInt64.toUInt64.toNat
  let buf := r.2 ++ buf.drop r.2.length
  if r.1 then
    pure (strlen buf, buf)
  else
    pure (-1, buf)

end Xv6Schedulers.Vm
