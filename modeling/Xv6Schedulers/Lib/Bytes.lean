import Mathlib.Algebra.Ring.Nat
import Mathlib.Data.Fin.Basic
import Mathlib.Tactic.Common

/-!
# Bytes — fixed-size byte arrays and the integers stored in them

`Bytes k` is an array of `k` bytes.  `splice` copies a run of bytes into it; `get off n` reads the
little-endian integer in the `n` bytes at offset `off`, and `set` stores one.  The lemmas say that a
stored integer is read back, and that a copy elsewhere does not change what is read.
-/

namespace Xv6Schedulers.Lib

abbrev Bytes (k : Nat) := Fin k → UInt8

namespace Bytes

variable {k : Nat} [NeZero k]

def byte (b : Bytes k) (i : Nat) : UInt8 := b (Fin.ofNat k i)

/-- Copy `len` bytes of `src` to offset `off`. -/
def splice (b : Bytes k) (off len : Nat) (src : Nat → UInt8) : Bytes k := fun i =>
  if off ≤ i.val ∧ i.val < off + len then src (i.val - off) else b i

theorem byte_splice (b : Bytes k) (off len : Nat) (src : Nat → UInt8) {i : Nat} (hi : i < k) :
    (b.splice off len src).byte i =
      if off ≤ i ∧ i < off + len then src (i - off) else b.byte i := by
  simp [byte, splice, Fin.ofNat, Nat.mod_eq_of_lt hi]

theorem byte_splice_of_disjoint (b : Bytes k) {off len : Nat} (src : Nat → UInt8) {i : Nat}
    (hi : i < k) (h : i < off ∨ off + len ≤ i) : (b.splice off len src).byte i = b.byte i := by
  rw [byte_splice b off len src hi, if_neg]
  omega

/-! ## Integers -/

/-- The little-endian integer of the first `n` bytes of `src`. -/
def value (src : Nat → UInt8) : Nat → Nat
  | 0 => 0
  | n + 1 => value src n + (src n).toNat * 256 ^ n

/-- The little-endian bytes of `v`. -/
def digits (v : Nat) (j : Nat) : UInt8 := UInt8.ofNat (v / 256 ^ j % 256)

theorem value_digits (v n : Nat) : value (digits v) n = v % 256 ^ n := by
  induction n with
  | zero => simp [value, Nat.mod_one]
  | succ n ih =>
    have hdigit : (digits v n).toNat = v / 256 ^ n % 256 := by
      simp [digits]
    calc
      value (digits v) (n + 1) = v % 256 ^ n + v / 256 ^ n % 256 * 256 ^ n := by
        rw [value, ih, hdigit]
      _ = v % (256 ^ n * 256) := by rw [Nat.mod_mul, Nat.mul_comm (256 ^ n)]
      _ = v % 256 ^ (n + 1) := by rw [Nat.pow_succ]

theorem value_lt (src : Nat → UInt8) (n : Nat) : value src n < 256 ^ n := by
  induction n with
  | zero => exact Nat.one_pos
  | succ n ih =>
    have hbyte : (src n).toNat + 1 ≤ 256 := (src n).toNat_lt
    calc
      value src (n + 1) < 256 ^ n + (src n).toNat * 256 ^ n := Nat.add_lt_add_right ih _
      _ = ((src n).toNat + 1) * 256 ^ n := by rw [Nat.succ_mul, Nat.add_comm]
      _ ≤ 256 * 256 ^ n := Nat.mul_le_mul_right _ hbyte
      _ = 256 ^ (n + 1) := by rw [Nat.pow_succ, Nat.mul_comm]

theorem digits_value (src : Nat → UInt8) {n j : Nat} (hj : j < n) : digits (value src n) j = src j := by
  induction n with
  | zero => exact absurd hj (Nat.not_lt_zero j)
  | succ n ih =>
    have hlt := value_lt src n
    rcases Nat.lt_succ_iff_lt_or_eq.1 hj with hj | rfl
    · have hsplit : (src n).toNat * 256 ^ n = 256 ^ j * ((src n).toNat * 256 ^ (n - j - 1) * 256) := by
        have hpow : 256 ^ n = 256 ^ j * (256 ^ (n - j - 1) * 256) := by
          rw [← Nat.pow_succ, ← Nat.pow_add]
          congr 1
          omega
        rw [hpow, Nat.mul_left_comm, Nat.mul_assoc]
      rw [digits, value, hsplit, Nat.add_mul_div_left _ _ (Nat.pow_pos (by decide)), Nat.add_mul_mod_self_right]
      exact ih hj
    · rw [digits, value, Nat.add_mul_div_right _ _ (Nat.pow_pos (by decide)),
        Nat.div_eq_of_lt hlt, Nat.zero_add, Nat.mod_eq_of_lt (src j).toNat_lt]
      exact UInt8.ofNat_toNat

theorem value_zero (n : Nat) : value (fun _ => 0) n = 0 := by
  induction n with
  | zero => rfl
  | succ n ih => simp [value, ih]

theorem value_congr {src src' : Nat → UInt8} {n : Nat} (h : ∀ j, j < n → src j = src' j) :
    value src n = value src' n := by
  induction n with
  | zero => rfl
  | succ n ih =>
    have hn : src n = src' n := h n (Nat.lt_succ_self n)
    rw [value, value, hn, ih fun j hj => h j (Nat.lt_succ_of_lt hj)]

/-- The integer in the `n` bytes at offset `off`. -/
def get (b : Bytes k) (off n : Nat) : Nat := value (fun j => b.byte (off + j)) n

/-- Store `v` in the `n` bytes at offset `off`. -/
def set (b : Bytes k) (off n v : Nat) : Bytes k := b.splice off n (digits v)

theorem get_splice_of_disjoint (b : Bytes k) {off n off' len : Nat} (src : Nat → UInt8)
    (hin : off + n ≤ k) (h : off + n ≤ off' ∨ off' + len ≤ off) :
    (b.splice off' len src).get off n = b.get off n := by
  refine value_congr fun j hj => ?_
  exact byte_splice_of_disjoint b src (by omega) (by omega)

theorem get_splice_self (b : Bytes k) {off n : Nat} (src : Nat → UInt8) (hin : off + n ≤ k) :
    (b.splice off n src).get off n = value src n := by
  refine value_congr fun j hj => ?_
  rw [byte_splice b off n src (by omega), if_pos (by omega), Nat.add_sub_cancel_left]

theorem get_splice_inside (b : Bytes k) {off len d n : Nat} (src : Nat → UInt8)
    (hin : off + len ≤ k) (h : d + n ≤ len) :
    (b.splice off len src).get (off + d) n = value (fun j => src (d + j)) n := by
  refine value_congr fun j hj => ?_
  rw [byte_splice b off len src (by omega), if_pos (by omega)]
  congr 1
  omega

theorem get_set (b : Bytes k) {off n v : Nat} (hin : off + n ≤ k) (hv : v < 256 ^ n) :
    (b.set off n v).get off n = v := by
  rw [set, get_splice_self b _ hin, value_digits, Nat.mod_eq_of_lt hv]

theorem get_set_of_disjoint (b : Bytes k) {off n off' n' v : Nat} (hin : off + n ≤ k)
    (h : off + n ≤ off' ∨ off' + n' ≤ off) : (b.set off' n' v).get off n = b.get off n :=
  get_splice_of_disjoint b _ hin h

end Bytes

end Xv6Schedulers.Lib
