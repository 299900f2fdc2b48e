import Mathlib.Data.List.Basic
import Mathlib.Data.UInt

/-!
# Fifo — a ring addressed by counters that wrap

A ring of `N` cells is addressed by 32-bit counters taken modulo `N`.  The counters wrap at
`2 ^ 32`; when `N` divides that, the ring does not notice.

* `ring data r len` lists the `len` cells from counter `r` on, oldest first.
* `ring_succ` takes the oldest cell off, `ring_put` adds a cell at the other end.
-/

namespace Xv6Schedulers.Lib
namespace Fifo

open Function

universe u

variable {α : Type u} {N : Nat} [NeZero N]

def slot (N : Nat) [NeZero N] (c : UInt32) : Fin N := Fin.ofNat N c.toNat

def ring (data : Fin N → α) (r : UInt32) (len : Nat) : List α :=
  (List.range len).map fun k => data (slot N (r + UInt32.ofNat k))

@[simp] theorem ring_zero (data : Fin N → α) (r : UInt32) : ring data r 0 = [] := rfl

theorem ofNat_succ (k : Nat) : UInt32.ofNat (k + 1) = 1 + UInt32.ofNat k := by
  rw [UInt32.ofNat_add, add_comm]
  rfl

theorem ring_succ (data : Fin N → α) (r : UInt32) (len : Nat) :
    ring data r (len + 1) = data (slot N r) :: ring data (r + 1) len := by
  unfold ring
  rw [List.range_succ_eq_map, List.map_cons, List.map_map]
  congr 1
  · exact congrArg (fun c => data (slot N c)) (add_zero r)
  · apply List.map_congr_left
    intro k _
    exact congrArg (fun c => data (slot N c)) (by rw [ofNat_succ, add_assoc])

theorem slot_inj (hN : N ∣ 2 ^ 32) {r : UInt32} {a b : Nat} (ha : a < N) (hb : b < N)
    (h : slot N (r + UInt32.ofNat a) = slot N (r + UInt32.ofNat b)) : a = b := by
  have hmod : ∀ k, (r + UInt32.ofNat k).toNat % N = (r.toNat + k) % N := by
    intro k
    rw [UInt32.toNat_add, UInt32.toNat_ofNat', Nat.add_mod_mod, Nat.mod_mod_of_dvd _ hN]
  have hval := congrArg Fin.val h
  simp only [slot, Fin.val_ofNat, hmod] at hval
  have hcongr : a ≡ b [MOD N] := Nat.ModEq.add_left_cancel' r.toNat hval
  exact Nat.ModEq.eq_of_lt_of_lt hcongr ha hb

theorem ring_put (hN : N ∣ 2 ^ 32) (data : Fin N → α) (r : UInt32) {len : Nat} (hlen : len < N)
    (x : α) :
    ring (update data (slot N (r + UInt32.ofNat len)) x) r (len + 1)
      = ring data r len ++ [x] := by
  unfold ring
  rw [List.range_succ, List.map_append]
  congr 1
  · apply List.map_congr_left
    intro k hk
    have hk' : k < len := List.mem_range.1 hk
    refine update_of_ne (fun heq => ?_) _ _
    exact Nat.ne_of_lt hk' (slot_inj hN (hk'.trans hlen) hlen heq)
  · simp only [List.map_cons, List.map_nil, update_self]

end Fifo
end Xv6Schedulers.Lib
