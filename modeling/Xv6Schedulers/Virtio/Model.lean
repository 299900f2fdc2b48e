import Mathlib.Data.UInt
import Mathlib.Logic.Function.Basic
import Xv6Schedulers.Lib.Machine

/-!
# Model — `virtio_disk.c` with its device

Threads call `virtio_disk_rw` or run `virtio_disk_intr`; the device takes chains from the avail ring
and returns them through the used ring in any order, also while a thread holds `vdisk_lock`.

* A thread is at a place (`Place`) of its code, waiting for the lock, holding it, or asleep.
* `bread` and `bwrite` call `virtio_disk_rw` with the buffer's sleep-lock held; `owner` is that lock.
* `reqs`, `fetched`, `returned`, `acked` and `freed` are history: request `n` is the `n`-th one put into
  the avail ring.
-/

namespace Xv6Schedulers.Virtio

open Lib Function

/-- Descriptors; also the length of both rings. -/
def NUM : Nat := 8

def BSIZE : UInt32 := 1024

def VRING_DESC_F_NEXT : UInt16 := 1
def VRING_DESC_F_WRITE : UInt16 := 2

def VIRTIO_BLK_T_IN : UInt32 := 0
def VIRTIO_BLK_T_OUT : UInt32 := 1

variable {T B : Type}

/-- What an address in a descriptor points to. -/
inductive Addr (B : Type)
  | null
  | ops (i : Nat)
  | data (b : B)
  | status (i : Nat)
  deriving DecidableEq

structure Desc (B : Type) where
  addr : Addr B
  len : UInt32
  flags : UInt16
  next : UInt16

structure BlkReq where
  type : UInt32
  reserved : UInt32
  sector : UInt64
  deriving DecidableEq

structure Info (B : Type) where
  b : Option B
  status : UInt8

/-- `idx[3]` -/
structure Chain where
  i0 : Nat
  i1 : Nat
  i2 : Nat
  deriving DecidableEq

def Chain.toList (c : Chain) : List Nat := [c.i0, c.i1, c.i2]

/-- The arguments of a call of `virtio_disk_rw`. -/
structure Io (B : Type) where
  buf : B
  write : Bool
  sector : UInt64
  deriving DecidableEq

/-- A call with its descriptors. -/
structure Req (B : Type) extends Io B where
  idx : Chain
  deriving DecidableEq

/-- The command header of a request. -/
def Io.header (io : Io B) : BlkReq where
  type := if io.write then VIRTIO_BLK_T_OUT else VIRTIO_BLK_T_IN
  reserved := 0
  sector := io.sector

inductive Place (B : Type)
  /-- at `alloc3_desc` -/
  | alloc (io : Io B)
  | format (r : Req B)
  /-- the ring entry is written, `avail->idx` is not -/
  | publish (r : Req B)
  /-- at `while(b->disk == 1)`, with request `n` -/
  | wait (r : Req B) (n : Nat)
  | finish (r : Req B) (n : Nat)
  /-- at `release` -/
  | leave
  /-- at the loop of `virtio_disk_intr` -/
  | handle
  deriving DecidableEq

inductive Chan (B : Type)
  /-- `&disk.free[0]` -/
  | free
  | buf (b : B)
  deriving DecidableEq

inductive Mode (B : Type)
  /-- in `acquire(&disk.vdisk_lock)` -/
  | spin
  | hold
  | doze (c : Chan B)
  deriving DecidableEq

/-- `none` is outside both functions. -/
abbrev Pc (B : Type) := Option (Mode B × Place B)

/-- A chain as the device has read it. -/
structure Job (B : Type) where
  serial : Nat
  head : Nat
  req : Option BlkReq
  data : Addr B
  status : Addr B
  deriving DecidableEq

/-- The places where the code panics; a store to `b->disk` through a null `b`; a `free_chain` that
does not end. -/
inductive Stop
  | freeDesc1
  | freeDesc2
  | status
  | nullBuf
  | endless
  deriving DecidableEq

structure State (T B : Type) where
  desc : Nat → Desc B
  availIdx : UInt16
  availRing : Nat → UInt16
  /-- `used->idx` -/
  deviceIdx : UInt16
  /-- the ids in `used->ring` -/
  usedRing : Nat → UInt32
  free : Nat → Bool
  /-- `disk.used_idx` -/
  usedIdx : UInt16
  info : Nat → Info B
  ops : Nat → BlkReq
  lock : Option T
  pc : T → Pc B
  /-- `b->disk` -/
  disk : B → Bool
  blockno : B → UInt32
  /-- the holder of `b->lock` -/
  owner : B → Option T
  stopped : Option Stop
  /-- the chains the device works on -/
  jobs : List (Job B)
  reqs : List (Req B)
  fetched : Nat
  returned : List (Job B)
  acked : Nat
  freed : List Nat

namespace State

/-- `wakeup`: the sleepers on `c` go for the lock again. -/
def wakeup (s : State T B) [DecidableEq B] (c : Chan B) : State T B :=
  { s with
    pc := fun t =>
      match s.pc t with
      | some (.doze c', k) => if c' = c then some (.spin, k) else some (.doze c', k)
      | pc => pc }

variable [DecidableEq T] [DecidableEq B]

def setPc (s : State T B) (t : T) (pc : Pc B) : State T B := { s with pc := update s.pc t pc }

/-! ## Descriptors -/

def allocDesc (s : State T B) : Option (Nat × State T B) :=
  match (List.range NUM).find? s.free with
  | some i => some (i, { s with free := update s.free i false })
  | none => none

def freeDesc (s : State T B) (i : Nat) : Except Stop (State T B) :=
  if NUM ≤ i then
    .error .freeDesc1
  else if s.free i then
    .error .freeDesc2
  else
    .ok ({ s with
      desc := update s.desc i ⟨.null, 0, 0, 0⟩
      free := update s.free i true } |>.wakeup .free)

/-- `free_chain`: more rounds than there are descriptors would free one twice. -/
def freeChain : Nat → State T B → Nat → Except Stop (State T B)
  | 0, _, _ => .error .endless
  | k + 1, s, i =>
      let flag := (s.desc i).flags
      let nxt := (s.desc i).next
      match s.freeDesc i with
      | .error e => .error e
      | .ok s => if flag &&& VRING_DESC_F_NEXT ≠ 0 then freeChain k s nxt.toNat else .ok s

/-- The loop that gives descriptors back. -/
def freeAll : State T B → List Nat → Except Stop (State T B)
  | s, [] => .ok s
  | s, i :: idx =>
      match s.freeDesc i with
      | .error e => .error e
      | .ok s => freeAll s idx

/-- The loop of `alloc3_desc`: `k` to go, `idx` allocated. -/
def allocMore : Nat → State T B → List Nat → Except Stop (Option (List Nat) × State T B)
  | 0, s, idx => .ok (some idx, s)
  | k + 1, s, idx =>
      match s.allocDesc with
      | some (i, s) => allocMore k s (idx ++ [i])
      | none => (s.freeAll idx).map fun s => (none, s)

/-- `alloc3_desc`; `none` is `-1`. -/
def alloc3Desc (s : State T B) : Except Stop (Option Chain × State T B) :=
  match allocMore 3 s [] with
  | .error e => .error e
  | .ok (some [i0, i1, i2], s) => .ok (some ⟨i0, i1, i2⟩, s)
  | .ok (_, s) => .ok (none, s)

/-! ## `virtio_disk_rw` -/

/-- From `format the three descriptors` to the entry in the avail ring. -/
def format (s : State T B) (r : Req B) : State T B :=
  let i0 := r.idx.i0
  let i1 := r.idx.i1
  let i2 := r.idx.i2
  let flags1 := (if r.write then 0 else VRING_DESC_F_WRITE) ||| VRING_DESC_F_NEXT
  let desc := update s.desc i0 ⟨.ops i0, 16, VRING_DESC_F_NEXT, UInt16.ofNat i1⟩
  let desc := update desc i1 ⟨.data r.buf, BSIZE, flags1, UInt16.ofNat i2⟩
  let desc := update desc i2 ⟨.status i0, 1, VRING_DESC_F_WRITE, 0⟩
  { s with
    ops := update s.ops i0 r.header
    desc := desc
    info := update s.info i0 ⟨some r.buf, 0xff⟩
    disk := update s.disk r.buf true
    availRing := update s.availRing (s.availIdx.toNat % NUM) (UInt16.ofNat i0) }

/-- `avail->idx += 1` -/
def publish (s : State T B) (r : Req B) : State T B :=
  { s with availIdx := s.availIdx + 1, reqs := s.reqs ++ [r] }

/-- The end of `virtio_disk_rw`, before `release`. -/
def finish (s : State T B) (r : Req B) (n : Nat) : Except Stop (State T B) :=
  let i0 := r.idx.i0
  let s := { s with info := update s.info i0 { s.info i0 with b := none } }
  (freeChain (NUM + 1) s i0).map fun s => { s with freed := n :: s.freed }

/-! ## `virtio_disk_intr` -/

/-- One round of the loop. -/
def handle (s : State T B) : Except Stop (State T B) :=
  let id := (s.usedRing (s.usedIdx.toNat % NUM)).toNat
  if (s.info id).status ≠ 0 then
    .error .status
  else
    let s := { s with usedIdx := s.usedIdx + 1, acked := s.acked + 1 }
    match (s.info id).b with
    | none => .error .nullBuf
    | some b => .ok ({ s with disk := update s.disk b false } |>.wakeup (.buf b))

/-! ## Threads -/

/-- Panics end everything. -/
def orStop (s : State T B) : Except Stop (State T B) → State T B
  | .ok t => t
  | .error e => { s with stopped := some e }

/-- `sleep`: the lock is given up. -/
def sleep (s : State T B) (t : T) (c : Chan B) (k : Place B) : State T B :=
  { s with lock := none }.setPc t (some (.doze c, k))

/-- The thread that holds the lock runs on. -/
def run (s : State T B) (t : T) : Place B → State T B
  | .alloc io =>
      match s.alloc3Desc with
      | .error e => { s with stopped := some e }
      | .ok (some idx, s) => s.setPc t (some (.hold, .format ⟨io, idx⟩))
      | .ok (none, s) => s.sleep t .free (.alloc io)
  | .format r => (s.format r).setPc t (some (.hold, .publish r))
  | .publish r => (s.publish r).setPc t (some (.hold, .wait r s.reqs.length))
  | .wait r n =>
      if s.disk r.buf then s.sleep t (.buf r.buf) (.wait r n)
      else s.setPc t (some (.hold, .finish r n))
  | .finish r n => s.orStop ((s.finish r n).map fun s => s.setPc t (some (.hold, .leave)))
  | .leave => { s with lock := none }.setPc t none
  | .handle =>
      if s.usedIdx ≠ s.deviceIdx then s.orStop s.handle
      else s.setPc t (some (.hold, .leave))

end State

/-! ## The device -/

/-- The command header at an address. -/
def State.header (s : State T B) : Addr B → Option BlkReq
  | .ops i => some (s.ops i)
  | _ => none

/-- The device reads the chain that starts at `head`. -/
def State.readChain (s : State T B) (head : Nat) : Job B :=
  let d0 := s.desc head
  let d1 := s.desc d0.next.toNat
  let d2 := s.desc d1.next.toNat
  { serial := s.fetched, head := head, req := s.header d0.addr, data := d1.addr, status := d2.addr }

/-- The device takes the next entry of the avail ring. -/
def State.fetch (s : State T B) : State T B :=
  { s with
    jobs := s.readChain (s.availRing (s.fetched % NUM)).toNat :: s.jobs
    fetched := s.fetched + 1 }

/-- The device writes 0 to the status byte. -/
def State.writeStatus (s : State T B) : Addr B → Nat → Info B
  | .status i => update s.info i { s.info i with status := 0 }
  | _ => s.info

def State.complete [DecidableEq B] (s : State T B) (j : Job B) : State T B :=
  { s with
    info := s.writeStatus j.status
    usedRing := update s.usedRing (s.deviceIdx.toNat % NUM) (UInt32.ofNat j.head)
    deviceIdx := s.deviceIdx + 1
    jobs := s.jobs.erase j
    returned := s.returned ++ [j] }

inductive Act (T B : Type)
  /-- `bget` locks a buffer, which holds block `blockno` from then on -/
  | lockBuf (t : T) (b : B) (blockno : UInt32)
  | unlockBuf (t : T) (b : B)
  | rw (t : T) (b : B) (write : Bool)
  | intr (t : T)
  | run (t : T)
  /-- `kill` wakes a sleeper -/
  | kill (t : T)
  | fetch
  | complete (j : Job B)
  deriving DecidableEq

variable [DecidableEq T] [DecidableEq B]

def State.step (s : State T B) : Act T B → Option (State T B)
  | .lockBuf t b no =>
      if s.pc t = none ∧ s.owner b = none then
        some { s with
          owner := update s.owner b (some t)
          blockno := update s.blockno b no }
      else none
  | .unlockBuf t b =>
      if s.pc t = none ∧ s.owner b = some t then
        some { s with owner := update s.owner b none }
      else none
  | .rw t b write =>
      if s.pc t = none ∧ s.owner b = some t then
        some (s.setPc t (some (.spin, .alloc ⟨b, write, (s.blockno b * 2).toUInt64⟩)))
      else none
  | .intr t => if s.pc t = none then some (s.setPc t (some (.spin, .handle))) else none
  | .run t =>
      match s.pc t with
      | some (.spin, k) =>
          if s.lock = none then some ({ s with lock := some t }.setPc t (some (.hold, k))) else none
      | some (.hold, k) => if s.stopped = none then some (s.run t k) else none
      | _ => none
  | .kill t =>
      match s.pc t with
      | some (.doze _, k) => some (s.setPc t (some (.spin, k)))
      | _ => none
  | .fetch => if UInt16.ofNat s.fetched ≠ s.availIdx then some s.fetch else none
  | .complete j => if j ∈ s.jobs then some (s.complete j) else none

/-- After `virtio_disk_init`. -/
def boot (blockno : B → UInt32) : State T B where
  desc _ := ⟨.null, 0, 0, 0⟩
  availIdx := 0
  availRing _ := 0
  deviceIdx := 0
  usedRing _ := 0
  free _ := true
  usedIdx := 0
  info _ := ⟨none, 0⟩
  ops _ := ⟨0, 0, 0⟩
  lock := none
  pc _ := none
  disk _ := false
  blockno := blockno
  owner _ := none
  stopped := none
  jobs := []
  reqs := []
  fetched := 0
  returned := []
  acked := 0
  freed := []

def machine : Machine (State T B) (Act T B) where
  step := State.step

end Xv6Schedulers.Virtio
