import Mathlib.Algebra.Ring.Nat
import Mathlib.Data.List.FinRange
import Xv6Schedulers.Lib.DList
import Xv6Schedulers.Lib.Machine

/-!
# Cache — the list of buffers in `bio.c`

The critical sections of `bcache.lock`: `bget`, `brelse`, `bpin` and `bunpin`, each one step.

* A node of the list is a buffer or `bcache.head`, which is `none`.
* `Cache` is `bcache`; its last fields only record history: who still has what, which buffers were
  ever used, and when `brelse` last dropped a reference count to 0.
* A caller releases what it got and unpins what it pinned, so a step needs an outstanding one.

`refcnt` is a `uint` in the source; here it is the number of references itself.
-/

namespace Xv6Schedulers.Bio

open Lib Function

def NBUF : Nat := 30

instance : NeZero NBUF := ⟨by decide⟩

abbrev Buf := Fin NBUF

/-- `struct buf` without its data and its sleep-lock. -/
structure Cache where
  links : Links (Option Buf)
  dev : Buf → UInt32
  blockno : Buf → UInt32
  valid : Buf → Bool
  refcnt : Buf → Nat
  /-- `panic("bget: no buffers")` -/
  panicked : Bool
  /-- the gets not yet released -/
  gets : Buf → Nat
  /-- the pins not yet undone -/
  pins : Buf → Nat
  /-- `bget` has given this buffer its block -/
  assigned : Buf → Bool
  /-- `bget` has returned this buffer -/
  used : Buf → Bool
  clock : Nat
  /-- when `brelse` last dropped the reference count to 0 -/
  freedAt : Buf → Option Nat

inductive Act
  | bget (dev blockno : UInt32)
  | brelse (b : Buf)
  | bpin (b : Buf)
  | bunpin (b : Buf)
  deriving DecidableEq, Repr

namespace Cache

/-- `binit`: each buffer is put in front of the list. -/
def binit : Links (Option Buf) :=
  (List.finRange NBUF).foldl (fun L b => L.pushFront none (some b)) ⟨fun _ => none, fun _ => none⟩

/-- The buffers from `bcache.head.next` on. -/
def forward (s : Cache) : List Buf :=
  (Links.walk s.links.next none NBUF (s.links.next none)).filterMap id

/-- The buffers from `bcache.head.prev` on. -/
def backward (s : Cache) : List Buf :=
  (Links.walk s.links.prev none NBUF (s.links.prev none)).filterMap id

/-- The first loop of `bget`. -/
def cached (s : Cache) (dev blockno : UInt32) : Option Buf :=
  s.forward.find? fun b => s.dev b = dev ∧ s.blockno b = blockno

/-- The second loop of `bget`. -/
def unused (s : Cache) : Option Buf := s.backward.find? fun b => s.refcnt b = 0

/-- One more reference by a get. -/
def hit (s : Cache) (b : Buf) : Cache :=
  { s with
    refcnt := update s.refcnt b (s.refcnt b + 1)
    gets := update s.gets b (s.gets b + 1)
    used := update s.used b true }

/-- The buffer is given another block. -/
def recycle (s : Cache) (b : Buf) (dev blockno : UInt32) : Cache :=
  { s with
    dev := update s.dev b dev
    blockno := update s.blockno b blockno
    valid := update s.valid b false
    refcnt := update s.refcnt b 1
    gets := update s.gets b (s.gets b + 1)
    assigned := update s.assigned b true
    used := update s.used b true }

def bget (s : Cache) (dev blockno : UInt32) : Cache :=
  match s.cached dev blockno with
  | some b => s.hit b
  | none =>
      match s.unused with
      | some b => s.recycle b dev blockno
      | none => { s with panicked := true }

/-- Move a buffer to the head of the most-recently-used list. -/
def toFront (s : Cache) (b : Buf) : Cache :=
  { s with
    links := (s.links.unlink (some b)).pushFront none (some b)
    clock := s.clock + 1
    freedAt := update s.freedAt b (some s.clock) }

def drop (s : Cache) (b : Buf) : Cache :=
  { s with
    refcnt := update s.refcnt b (s.refcnt b - 1)
    gets := update s.gets b (s.gets b - 1) }

def brelse (s : Cache) (b : Buf) : Cache :=
  if (s.drop b).refcnt b = 0 then (s.drop b).toFront b else s.drop b

def bpin (s : Cache) (b : Buf) : Cache :=
  { s with
    refcnt := update s.refcnt b (s.refcnt b + 1)
    pins := update s.pins b (s.pins b + 1) }

def bunpin (s : Cache) (b : Buf) : Cache :=
  { s with
    refcnt := update s.refcnt b (s.refcnt b - 1)
    pins := update s.pins b (s.pins b - 1) }

def step (s : Cache) (a : Act) : Option Cache :=
  if s.panicked then
    none
  else
    match a with
    | .bget dev blockno => some (s.bget dev blockno)
    | .brelse b => if 0 < s.gets b then some (s.brelse b) else none
    | .bpin b => some (s.bpin b)
    | .bunpin b => if 0 < s.pins b then some (s.bunpin b) else none

def boot : Cache where
  links := binit
  dev := fun _ => 0
  blockno := fun _ => 0
  valid := fun _ => false
  refcnt := fun _ => 0
  panicked := false
  gets := fun _ => 0
  pins := fun _ => 0
  assigned := fun _ => false
  used := fun _ => false
  clock := 0
  freedAt := fun _ => none

end Cache

def machine : Machine Cache Act where
  step := Cache.step

/-! ## What a step can do -/

inductive Step (s : Cache) : Act → Cache → Prop
  | hit {dev blockno : UInt32} {b : Buf} (hb : s.cached dev blockno = some b) :
      Step s (.bget dev blockno) (s.hit b)
  | recycle {dev blockno : UInt32} {b : Buf} (hnone : s.cached dev blockno = none)
      (hb : s.unused = some b) : Step s (.bget dev blockno) (s.recycle b dev blockno)
  | dry {dev blockno : UInt32} (hnone : s.cached dev blockno = none) (hb : s.unused = none) :
      Step s (.bget dev blockno) { s with panicked := true }
  | release {b : Buf} (hget : 0 < s.gets b) (hlast : s.refcnt b - 1 = 0) :
      Step s (.brelse b) ((s.drop b).toFront b)
  | drop {b : Buf} (hget : 0 < s.gets b) (hmore : s.refcnt b - 1 ≠ 0) :
      Step s (.brelse b) (s.drop b)
  | bpin (b : Buf) : Step s (.bpin b) (s.bpin b)
  | bunpin {b : Buf} (hpin : 0 < s.pins b) : Step s (.bunpin b) (s.bunpin b)

theorem step_cases {s t : Cache} {a : Act} (h : s.step a = some t) :
    s.panicked = false ∧ Step s a t := by
  unfold Cache.step at h
  split at h
  · cases h
  · rename_i hrun
    refine ⟨by simpa using hrun, ?_⟩
    cases a with
    | bget dev blockno =>
      cases h
      unfold Cache.bget
      split
      · exact .hit (by assumption)
      · split
        · exact .recycle (by assumption) (by assumption)
        · exact .dry (by assumption) (by assumption)
    | brelse b =>
      simp only at h
      split at h <;> cases h
      have hdrop : (s.drop b).refcnt b = s.refcnt b - 1 := update_self _ _ _
      unfold Cache.brelse
      rw [hdrop]
      split
      · exact .release (by assumption) (by assumption)
      · exact .drop (by assumption) (by assumption)
    | bpin b =>
      cases h
      exact .bpin b
    | bunpin b =>
      simp only at h
      split at h <;> cases h
      exact .bunpin (by assumption)

end Xv6Schedulers.Bio
