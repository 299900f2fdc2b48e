import Mathlib.Algebra.Ring.Int.Defs
import Mathlib.Algebra.Ring.Nat
import Xv6Schedulers.Lib.Circle
import Xv6Schedulers.Lib.Machine

/-!
# Model — `malloc` and `free` of `umalloc.c`

Headers live in memory at byte addresses; `ptr` and `size` read their two fields.  Pointer arithmetic
on `Header *` is in steps of `sizeof(Header)`, and `s.size` is a 32-bit number of headers.

* `sbrk` is the environment: it returns `-1`, or the bytes it is asked for, above all that it returned
  before and above the static `base`, as long as the heap stays below `2 ^ 31` bytes.  Its argument is
  an `int`, which `morecore` computes as a `size_t`.
* The loops of `free` and `malloc` get a number of rounds that grows with the heap; a run that needs
  more would have no next state.
* `live` records what is allocated, `touched` the headers written by the last call.
-/

namespace Xv6Schedulers.Malloc

open Lib

/-- `sizeof(Header)`. -/
def HEADER : Nat := 16

/-- An allocated block: the address of its header, and the bytes asked for. -/
structure Block where
  addr : Nat
  nbytes : Nat
  deriving DecidableEq, Repr

structure Heap where
  /-- `&base` -/
  base : Nat
  ptr : Nat → Nat
  size : Nat → Nat
  freep : Option Nat
  /-- the first address above the memory obtained -/
  top : Nat
  /-- what `sbrk` has returned: start and length in bytes -/
  regions : List (Nat × Nat)
  live : List Block
  touched : List Nat

namespace Heap

def setPtr (h : Heap) (p q : Nat) : Heap :=
  { h with ptr := Function.update h.ptr p q, touched := p :: h.touched }

def setSize (h : Heap) (p : Nat) (k : Nat) : Heap :=
  { h with size := Function.update h.size p k, touched := p :: h.touched }

/-- The length of the block at `a`, in bytes. -/
def len (h : Heap) (a : Nat) : Nat := HEADER * h.size a

def total (h : Heap) : Nat := (h.regions.map Prod.snd).sum

/-- Enough rounds to go once around the free list. -/
def rounds (h : Heap) : Nat := h.total / HEADER + 2

/-! ## `free` -/

/-- The two conditions that end the loop of `free`. -/
def stops (h : Heap) (bp p : Nat) : Bool :=
  decide ((bp > p ∧ bp < h.ptr p) ∨ (p ≥ h.ptr p ∧ (bp > p ∨ bp < h.ptr p)))

/-- `if(bp + bp->s.size == p->s.ptr)` and its branches. -/
def joinUpper (h : Heap) (bp p : Nat) : Heap :=
  if bp + h.len bp = h.ptr p then
    let h := h.setSize bp ((h.size bp + h.size (h.ptr p)) % 2 ^ 32)
    h.setPtr bp (h.ptr (h.ptr p))
  else
    h.setPtr bp (h.ptr p)

/-- `if(p + p->s.size == bp)` and its branches. -/
def joinLower (h : Heap) (bp p : Nat) : Heap :=
  if p + h.len p = bp then
    let h := h.setSize p ((h.size p + h.size bp) % 2 ^ 32)
    h.setPtr p (h.ptr bp)
  else
    h.setPtr p bp

/-- `free`, for the header at `bp`. -/
def free (h : Heap) (bp : Nat) : Option Heap := do
  let start ← h.freep
  let p ← Circle.seek h.ptr (h.stops bp) h.rounds start
  let h := (h.joinUpper bp p).joinLower bp p
  some { h with freep := some p }

/-! ## `malloc` -/

/-- Conversion to `int`, the type of the argument of `sbrk`. -/
def toInt (n : Nat) : Int :=
  if n % 2 ^ 32 < 2 ^ 31 then (n % 2 ^ 32 : Nat) else (n % 2 ^ 32 : Nat) - 2 ^ 32

/-- `sbrk(k)`: `ans` is the gap that it leaves above the memory obtained before, or `none` for
`-1`. -/
def sbrk (h : Heap) (k : Int) (ans : Option Nat) : Option (Nat × Heap) :=
  match ans with
  | none => none
  | some gap =>
      if 0 ≤ k ∧ h.total + k.toNat < 2 ^ 31 then
        some (h.top + gap, { h with
            top := h.top + gap + k.toNat
            regions := (h.top + gap, k.toNat) :: h.regions })
      else
        none

/-- `morecore`; the first component is null when `sbrk` fails. -/
def morecore (h : Heap) (nu : Nat) (ans : Option Nat) : Option (Option Nat × Heap) :=
  let nu := if nu < 4096 then 4096 else nu
  match h.sbrk (toInt (nu * HEADER)) ans with
  | none => some (none, h)
  | some (hp, h) => do
      let h ← (h.setSize hp nu).free hp
      some (h.freep, h)

/-- The body of `if(p->s.size >= nunits)`: the header of the block returned. -/
def allocAt (h : Heap) (prevp p : Nat) (nunits : Nat) : Nat × Heap :=
  if h.size p = nunits then
    (p, { h.setPtr prevp (h.ptr p) with freep := some prevp })
  else
    let h := h.setSize p (h.size p - nunits)
    let q := p + h.len p
    (q, { h.setSize q nunits with freep := some prevp })

def mallocLoop (nunits : Nat) (ans : Option Nat) :
    Nat → Heap → Nat → Nat → Option (Option Nat × Heap)
  | 0, _, _, _ => none
  | k + 1, h, prevp, p =>
      if h.size p ≥ nunits then
        some (some (h.allocAt prevp p nunits).1, (h.allocAt prevp p nunits).2)
      else if h.freep = some p then
        match h.morecore nunits ans with
        | none => none
        | some (none, h) => some (none, h)
        | some (some p, h) => mallocLoop nunits ans k h p (h.ptr p)
      else
        mallocLoop nunits ans k h p (h.ptr p)

/-- `nunits` for a request. -/
def nunits (nbytes : Nat) : Nat := (nbytes + HEADER - 1) / HEADER + 1

/-- The initialisation of `base` in the first call. -/
def start (h : Heap) : Nat × Heap :=
  match h.freep with
  | some p => (p, h)
  | none => (h.base, ({ h.setPtr h.base h.base with freep := some h.base }).setSize h.base 0)

/-- `malloc`; the header of the block returned, or null. -/
def malloc (h : Heap) (nbytes : Nat) (ans : Option Nat) : Option (Option Nat × Heap) :=
  let (prevp, h) := h.start
  mallocLoop (nunits nbytes) ans (2 * h.rounds) h prevp (h.ptr prevp)

end Heap

/-! ## Sequences of calls -/

inductive Call
  | malloc (nbytes : UInt32) (ans : Option Nat)
  /-- `free` of the pointer to an allocated block -/
  | free (ap : Nat)
  deriving DecidableEq

namespace Heap

def step (h : Heap) : Call → Option Heap
  | .malloc nbytes ans =>
      match ({ h with touched := [] } : Heap).malloc nbytes.toNat ans with
      | none => none
      | some (none, h) => some h
      | some (some p, h) => some { h with live := ⟨p, nbytes.toNat⟩ :: h.live }
  | .free ap =>
      match h.live.find? fun b => decide (b.addr + HEADER = ap) with
      | none => none
      | some b =>
          ({ h with touched := [], live := h.live.filter fun c => decide (c.addr ≠ b.addr) } : Heap).free
            b.addr

/-- A program that has not yet called `malloc`. -/
def boot (base : Nat) (ptr : Nat → Nat) (size : Nat → Nat) : Heap where
  base := base
  ptr := ptr
  size := size
  freep := none
  top := base + HEADER
  regions := []
  live := []
  touched := []

end Heap

def machine : Machine Heap Call where
  step := Heap.step

end Xv6Schedulers.Malloc
