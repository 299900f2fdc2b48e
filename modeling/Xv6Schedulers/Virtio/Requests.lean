import Xv6Schedulers.Lib.Spin
import Xv6Schedulers.Virtio.Descriptors

/-!
# Requests — who owns which descriptors, and how far each request has come

The invariant has one part for each group of variables, so that a step deals with the parts it changes.

* `Chains`: a descriptor is taken exactly when it is in the chain of one thread.
* `Formed`: the chains that the device may see are linked, and `info` names their buffers.
* `Account`: requests are handed to the device, returned, acknowledged and freed once each.
* `Rings`: the entries between two 16-bit indices are the requests between two counts.
-/

namespace Xv6Schedulers.Virtio

open Lib State List

variable {T B : Type}

/-! ## Places -/

namespace Place

/-- The call that the thread is in. -/
def io : Place B → Option (Io B)
  | .alloc io => some io
  | .format r => some r.toIo
  | .publish r => some r.toIo
  | .wait r _ => some r.toIo
  | .finish r _ => some r.toIo
  | .leave => none
  | .handle => none

/-- The call with its descriptors, once it has them. -/
def req : Place B → Option (Req B)
  | .format r => some r
  | .publish r => some r
  | .wait r _ => some r
  | .finish r _ => some r
  | _ => none

/-- The call with its descriptors, once they are formatted. -/
def formed : Place B → Option (Req B)
  | .publish r => some r
  | .wait r _ => some r
  | .finish r _ => some r
  | _ => none

/-- The request that the device has been told of. -/
def flight : Place B → Option (Req B × Nat)
  | .wait r n => some (r, n)
  | .finish r n => some (r, n)
  | _ => none

/-- Places where a thread may be without the lock. -/
def rests : Place B → Bool
  | .alloc _ => true
  | .wait _ _ => true
  | .handle => true
  | _ => false

variable {k : Place B} {r : Req B} {n : Nat}

theorem req_of_formed (h : k.formed = some r) : k.req = some r := by
  cases k <;> first | exact h | cases h

theorem formed_of_flight (h : k.flight = some (r, n)) : k.formed = some r := by
  cases k <;> cases h <;> rfl

theorem io_of_req (h : k.req = some r) : k.io = some r.toIo := by
  cases k <;> cases h <;> rfl

end Place

abbrev Places (T B : Type) := T → Option (Place B)

namespace Places

def io (pl : Places T B) (t : T) : Option (Io B) := (pl t).bind Place.io

def req (pl : Places T B) (t : T) : Option (Req B) := (pl t).bind Place.req

def formed (pl : Places T B) (t : T) : Option (Req B) := (pl t).bind Place.formed

def flight (pl : Places T B) (t : T) : Option (Req B × Nat) := (pl t).bind Place.flight

variable {pl : Places T B} {t : T} {r : Req B} {n : Nat}

theorem req_of_formed (h : pl.formed t = some r) : pl.req t = some r := by
  rcases Option.bind_eq_some_iff.1 h with ⟨k, hk, hr⟩
  exact Option.bind_eq_some_iff.2 ⟨k, hk, Place.req_of_formed hr⟩

theorem formed_of_flight (h : pl.flight t = some (r, n)) : pl.formed t = some r := by
  rcases Option.bind_eq_some_iff.1 h with ⟨k, hk, hr⟩
  exact Option.bind_eq_some_iff.2 ⟨k, hk, Place.formed_of_flight hr⟩

theorem req_of_flight (h : pl.flight t = some (r, n)) : pl.req t = some r :=
  req_of_formed (formed_of_flight h)

theorem io_of_req (h : pl.req t = some r) : pl.io t = some r.toIo := by
  rcases Option.bind_eq_some_iff.1 h with ⟨k, hk, hr⟩
  exact Option.bind_eq_some_iff.2 ⟨k, hk, Place.io_of_req hr⟩

end Places

variable {s s' : State T B} {pl pl' : Places T B} {t t' : T} {k k' : Place B} {r r' : Req B}
  {i n n' : Nat} {b : B}

/-! ## The parts of the invariant -/

/-- A thread works on a buffer that it has locked. -/
def Owners (owner : B → Option T) (io : T → Option (Io B)) : Prop :=
  ∀ t a, io t = some a → owner a.buf = some t

structure Chains (free : Nat → Bool) (req : T → Option (Req B)) : Prop where
  ok : ∀ {t r}, req t = some r → r.idx.Ok
  apart : ∀ {t t' r r' i}, req t = some r → req t' = some r' → i ∈ r.idx.toList →
    i ∈ r'.idx.toList → t = t'
  taken : ∀ {i}, i < NUM → (free i = false ↔ ∃ t r, req t = some r ∧ i ∈ r.idx.toList)

structure Formed (s : State T B) (formed : T → Option (Req B)) : Prop where
  linked : ∀ {t r}, formed t = some r → Linked s.desc s.ops r
  info : ∀ {t r}, formed t = some r → (s.info r.idx.i0).b = some r.buf

/-- The requests that `virtio_disk_intr` has seen come back. -/
def State.acks (s : State T B) : List Nat := (s.returned.take s.acked).map Job.serial

/-- What the device reads when it takes request `n`. -/
def Req.job (r : Req B) (n : Nat) : Job B :=
  ⟨n, r.idx.i0, some r.header, .data r.buf, .status r.idx.i0⟩

structure Account (s : State T B) (flight : T → Option (Req B × Nat)) : Prop where
  known : ∀ {t r n}, flight t = some (r, n) → s.reqs[n]? = some r ∧ n ∉ s.freed
  unique : ∀ {t t' r r' n}, flight t = some (r, n) → flight t' = some (r', n) → t = t'
  live : ∀ {n}, n < s.reqs.length → n ∉ s.freed → ∃ t r, flight t = some (r, n)
  perm : ((s.jobs ++ s.returned).map Job.serial).Perm (range s.fetched)
  fetched : s.fetched ≤ s.reqs.length
  read : ∀ j ∈ s.jobs ++ s.returned, ∃ r, s.reqs[j.serial]? = some r ∧ j = r.job j.serial
  acked : s.acked ≤ s.returned.length
  once : s.freed.Nodup
  freed : ∀ n ∈ s.freed, n ∈ s.acks

/-- What a place says about the request. -/
def Stage (s : State T B) : Place B → Prop
  | .publish r => s.disk r.buf = true ∧ s.availRing (s.reqs.length % NUM) = UInt16.ofNat r.idx.i0
  | .wait r n => s.disk r.buf = true ↔ n ∉ s.acks
  | .finish _ n => n ∈ s.acks
  | _ => True

structure Rings (s : State T B) : Prop where
  availIdx : s.availIdx = UInt16.ofNat s.reqs.length
  avail : ∀ {n r}, s.fetched ≤ n → s.reqs[n]? = some r →
    s.availRing (n % NUM) = UInt16.ofNat r.idx.i0
  usedIdx : s.usedIdx = UInt16.ofNat s.acked
  deviceIdx : s.deviceIdx = UInt16.ofNat s.returned.length
  used : ∀ {m j}, s.acked ≤ m → s.returned[m]? = some j →
    s.usedRing (m % NUM) = UInt32.ofNat j.head ∧ (s.info j.head).status = 0

/-- The parts about the data, with the threads at `pl`. -/
structure Core (s : State T B) (pl : Places T B) : Prop where
  owners : Owners s.owner pl.io
  chains : Chains s.free pl.req
  formed : Formed s pl.formed
  account : Account s pl.flight
  stage : ∀ {t k}, pl t = some k → Stage s k
  rings : Rings s

structure Inv (s : State T B) : Prop where
  lock : Held s.lock fun t => ∃ k, s.pc t = some (.hold, k)
  rests : ∀ {t m k}, s.pc t = some (m, k) → m = .hold ∨ k.rests = true
  core : Core s s.place
  stopped : s.stopped = none

/-! ## Requests in flight -/

variable {flight : T → Option (Req B × Nat)} {req : T → Option (Req B)} {j : Job B}

theorem acks_subset (s : State T B) : ∀ n ∈ s.acks, ∃ j ∈ s.returned, j.serial = n := by
  intro n hn
  rcases mem_map.1 hn with ⟨j, hj, rfl⟩
  exact ⟨j, mem_of_mem_take hj, rfl⟩

namespace Account

theorem serials_nodup (h : Account s flight) : ((s.jobs ++ s.returned).map Job.serial).Nodup :=
  h.perm.nodup_iff.2 nodup_range

theorem serial_lt (h : Account s flight) (hj : j ∈ s.jobs ++ s.returned) : j.serial < s.fetched :=
  mem_range.1 (h.perm.mem_iff.1 (mem_map_of_mem hj))

theorem freed_lt (h : Account s flight) (hn : n ∈ s.freed) : n < s.fetched := by
  rcases acks_subset s n (h.freed n hn) with ⟨j, hj, rfl⟩
  exact h.serial_lt (mem_append_right _ hj)

theorem job_not_freed (h : Account s flight) (hj : j ∈ s.jobs) : j.serial ∉ s.freed := by
  intro hfreed
  rcases acks_subset s _ (h.freed _ hfreed) with ⟨j', hj', heq⟩
  have hnodup := h.serials_nodup
  rw [map_append, nodup_append] at hnodup
  exact hnodup.2.2 _ (mem_map_of_mem hj) _ (mem_map_of_mem hj') heq.symm

theorem not_acked (h : Account s flight) (hj : j ∈ s.returned.drop s.acked) : j.serial ∉ s.acks := by
  intro hack
  have hnodup := h.serials_nodup
  rw [map_append, nodup_append] at hnodup
  have hret := hnodup.2.1
  rw [← take_append_drop s.acked s.returned, map_append, nodup_append] at hret
  exact hret.2.2 _ hack _ (mem_map_of_mem hj) rfl

theorem flight_of (h : Account s flight) (hj : j ∈ s.jobs ++ s.returned)
    (hfreed : j.serial ∉ s.freed) :
    ∃ t r, flight t = some (r, j.serial) ∧ j = r.job j.serial := by
  rcases h.read j hj with ⟨r, hr, hjob⟩
  have hlt : j.serial < s.reqs.length := (List.getElem?_eq_some_iff.1 hr).1
  rcases h.live hlt hfreed with ⟨t, r', ht⟩
  have heq : r' = r := Option.some.inj ((h.known ht).1.symm.trans hr)
  exact ⟨t, r', ht, heq ▸ hjob⟩

end Account

theorem head_mem (c : Chain) : c.i0 ∈ c.toList := mem_cons_self

theorem flights_lt (hc : Chains s.free pl.req) (ha : Account s pl.flight) {L : List Nat}
    (hnodup : L.Nodup) (hL : ∀ n ∈ L, ∃ t r, pl.flight t = some (r, n)) (ht : pl.req t = some r)
    (hout : ∀ n ∈ L, ∀ r', pl.flight t ≠ some (r', n)) : L.length < NUM := by
  let head : Nat → Nat := fun n => ((s.reqs[n]?).map fun r => r.idx.i0).getD 0
  have hhead : ∀ {t r n}, pl.flight t = some (r, n) → head n = r.idx.i0 := by
    intro t r n hf
    show ((s.reqs[n]?).map fun r => r.idx.i0).getD 0 = _
    rw [(ha.known hf).1]
    rfl
  have hmap : (L.map head).Nodup := by
    refine hnodup.map_on fun a ha' b hb heq => ?_
    rcases hL a ha' with ⟨ta, ra, hfa⟩
    rcases hL b hb with ⟨tb, rb, hfb⟩
    rw [hhead hfa, hhead hfb] at heq
    have htt : ta = tb := hc.apart (Places.req_of_flight hfa) (Places.req_of_flight hfb)
      (head_mem ra.idx) (heq ▸ head_mem rb.idx)
    subst htt
    rw [hfa] at hfb
    exact congrArg Prod.snd (Option.some.inj hfb)
  have hnew : r.idx.i0 ∉ L.map head := by
    intro hmem
    rcases mem_map.1 hmem with ⟨n, hn, heq⟩
    rcases hL n hn with ⟨t', r', hf⟩
    rw [hhead hf] at heq
    have htt : t' = t := hc.apart (Places.req_of_flight hf) ht (head_mem r'.idx)
      (heq ▸ head_mem r.idx)
    subst htt
    exact hout n hn r' hf
  have hsub : (r.idx.i0 :: L.map head) ⊆ range NUM := by
    intro a ha'
    rw [mem_range]
    rcases mem_cons.1 ha' with rfl | hmem
    · exact (hc.ok ht).2 _ (head_mem r.idx)
    · rcases mem_map.1 hmem with ⟨n, hn, rfl⟩
      rcases hL n hn with ⟨t', r', hf⟩
      rw [hhead hf]
      exact (hc.ok (Places.req_of_flight hf)).2 _ (head_mem r'.idx)
  have hle := ((nodup_cons.2 ⟨hnew, hmap⟩).subperm hsub).length_le
  rw [length_cons, length_map, length_range] at hle
  exact hle

end Xv6Schedulers.Virtio
