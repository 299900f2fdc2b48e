import Mathlib.Algebra.Ring.Nat
import Mathlib.Logic.Function.Basic

/-!
# Memmove — copying between ranges that may overlap

`memmove` of `kernel/string.c` and `memmove` of `user/ulib.c`.  The two choose the direction by
different tests, the kernel's going down only when the destination starts inside the source.

* `copyUp` and `copyDown` are the loops of both.
* `Moved m dst src n m'`: `m'` is `m` with the range at `dst` holding what the range at `src` held.
* A loop gives that memory if it overwrites no byte it has still to read (`copyUp_moved`,
  `copyDown_moved`); `memmove_moved` is the result for both functions.
-/

namespace Xv6Schedulers.Text

abbrev Memory := UInt64 → UInt8

/-- `while(n-- > 0) *d++ = *s++;` -/
def copyUp (m : Memory) (d s : UInt64) : Nat → Memory
  | 0 => m
  | n + 1 => copyUp (Function.update m d (m s)) (d + 1) (s + 1) n

/-- `while(n-- > 0) *--d = *--s;` -/
def copyDown (m : Memory) (d s : UInt64) : Nat → Memory
  | 0 => m
  | n + 1 => copyDown (Function.update m (d - 1) (m (s - 1))) (d - 1) (s - 1) n

/-- `memmove` of the kernel: the pointer it returns, and the memory after it. -/
def memmove (m : Memory) (dst src : UInt64) (n : UInt32) : UInt64 × Memory :=
  if n = 0 then (dst, m)
  else if src < dst ∧ src + n.toUInt64 > dst then
    (dst, copyDown m (dst + n.toUInt64) (src + n.toUInt64) n.toNat)
  else (dst, copyUp m dst src n.toNat)

/-- `memmove` of the user library; a negative `n` copies nothing. -/
def User.memmove (m : Memory) (vdst vsrc : UInt64) (n : Int32) : UInt64 × Memory :=
  if vsrc > vdst then (vdst, copyUp m vdst vsrc n.toInt.toNat)
  else
    let k := n.toInt64.toUInt64
    (vdst, copyDown m (vdst + k) (vsrc + k) n.toInt.toNat)

/-- The memory after a copy through a temporary buffer. -/
structure Moved (m : Memory) (dst src : UInt64) (n : Nat) (m' : Memory) : Prop where
  copied : ∀ i < n, m' (dst + .ofNat i) = m (src + .ofNat i)
  other : ∀ a : UInt64, a.toNat < dst.toNat ∨ dst.toNat + n ≤ a.toNat → m' a = m a

section Addresses

variable {a b : UInt64} {i n : Nat}

theorem offset_succ (a : UInt64) (i : Nat) : a + .ofNat (i + 1) = a + 1 + .ofNat i := by
  rw [UInt64.ofNat_add, UInt64.add_comm (.ofNat i), ← UInt64.add_assoc]
  rfl

theorem offset_pred (a : UInt64) (i : Nat) : a + .ofNat (i + 1) - 1 = a + .ofNat i := by
  rw [UInt64.ofNat_add, ← UInt64.add_assoc]
  exact UInt64.add_sub_cancel _ _

theorem toNat_offset (ha : a.toNat + n ≤ 2 ^ 64) (hi : i < n) : (a + .ofNat i).toNat = a.toNat + i := by
  rw [UInt64.toNat_add, UInt64.toNat_ofNat']
  omega

theorem toNat_succ (ha : a.toNat + (n + 1) ≤ 2 ^ 64) :
    (a + 1).toNat = a.toNat + 1 ∨ (a + 1).toNat = 0 ∧ n = 0 := by
  have hadd : (a + 1).toNat = (a.toNat + 1) % 2 ^ 64 := UInt64.toNat_add a 1
  omega

end Addresses

variable {m m' : Memory} {d s dst src : UInt64} {n : Nat}

theorem Moved.unique {m₁ m₂ : Memory} (h₁ : Moved m dst src n m₁) (h₂ : Moved m dst src n m₂) :
    m₁ = m₂ := by
  funext a
  by_cases hout : a.toNat < dst.toNat ∨ dst.toNat + n ≤ a.toNat
  · rw [h₁.other a hout, h₂.other a hout]
  · have ha : a = dst + .ofNat (a.toNat - dst.toNat) := by
      refine UInt64.toNat_inj.1 ?_
      have hlt := a.toNat_lt
      rw [UInt64.toNat_add, UInt64.toNat_ofNat']
      omega
    have hi : a.toNat - dst.toNat < n := by omega
    rw [ha, h₁.copied _ hi, h₂.copied _ hi]

/-- Going up, the bytes still to be read are those after the ones written. -/
theorem copyUp_moved (hd : d.toNat + n ≤ 2 ^ 64)
    (hunread : ∀ i j, j < i → i < n → s + .ofNat i ≠ d + .ofNat j) :
    Moved m d s n (copyUp m d s n) := by
  induction n generalizing m d s with
  | zero => exact ⟨fun i hi => absurd hi (Nat.not_lt_zero i), fun _ _ => rfl⟩
  | succ n ih =>
    have hnext := toNat_succ hd
    have hrest : Moved (Function.update m d (m s)) (d + 1) (s + 1) n (copyUp m d s (n + 1)) := by
      refine ih (by omega) fun i j hji hi => ?_
      rw [← offset_succ, ← offset_succ]
      exact hunread _ _ (Nat.succ_lt_succ hji) (Nat.succ_lt_succ hi)
    constructor
    · rintro (_ | i) hi
      · -- the byte written first is not written again
        have hfirst := hrest.other d (by omega)
        rw [Function.update_self] at hfirst
        simpa using hfirst
      · have hne : s + .ofNat (i + 1) ≠ d := by
          simpa using hunread (i + 1) 0 (Nat.succ_pos i) hi
        rw [offset_succ, hrest.copied i (Nat.lt_of_succ_lt_succ hi), ← offset_succ,
          Function.update_of_ne hne]
    · intro a ha
      have hne : a ≠ d := by
        rintro rfl
        omega
      rw [hrest.other a (by omega), Function.update_of_ne hne]

/-- Going down, they are those before. -/
theorem copyDown_moved (hd : d.toNat + n ≤ 2 ^ 64)
    (hunread : ∀ i j, i < j → j < n → s + .ofNat i ≠ d + .ofNat j) :
    Moved m d s n (copyDown m (d + .ofNat n) (s + .ofNat n) n) := by
  induction n generalizing m with
  | zero => exact ⟨fun i hi => absurd hi (Nat.not_lt_zero i), fun _ _ => rfl⟩
  | succ n ih =>
    have hlast := toNat_offset hd (Nat.lt_succ_self n)
    have hrest := ih (m := Function.update m (d + .ofNat n) (m (s + .ofNat n))) (by omega)
      fun i j hij hj => hunread i j hij (Nat.lt_succ_of_lt hj)
    rw [copyDown, offset_pred, offset_pred]
    constructor
    · intro i hi
      rcases Nat.lt_succ_iff_lt_or_eq.1 hi with hlt | rfl
      · rw [hrest.copied i hlt, Function.update_of_ne (hunread i n hlt (Nat.lt_succ_self n))]
      · rw [hrest.other _ (by omega), Function.update_self]
    · intro a ha
      have hne : a ≠ d + .ofNat n := by
        rintro rfl
        omega
      rw [hrest.other a (by omega), Function.update_of_ne hne]

theorem offset_ne {i j : Nat} (hs : s.toNat + n ≤ 2 ^ 64) (hd : d.toNat + n ≤ 2 ^ 64) (hi : i < n)
    (hj : j < n) (h : s.toNat + i ≠ d.toNat + j) : s + .ofNat i ≠ d + .ofNat j := by
  intro heq
  rw [← UInt64.toNat_inj, toNat_offset hs hi, toNat_offset hd hj] at heq
  exact h heq

section Ranges

variable (hsrc : src.toNat + n ≤ 2 ^ 64) (hdst : dst.toNat + n ≤ 2 ^ 64)
include hsrc hdst

theorem memmove_kernel {k : UInt32} (hk : k.toNat = n) :
    Moved m dst src n (memmove m dst src k).2 := by
  have hof : k.toUInt64 = .ofNat n := by
    refine UInt64.toNat_inj.1 ?_
    rw [UInt32.toNat_toUInt64, UInt64.toNat_ofNat', hk, Nat.mod_eq_of_lt]
    have hlt := k.toNat_lt
    omega
  rw [memmove]
  split
  next hzero =>
    subst hzero hk
    exact ⟨fun i hi => absurd hi (Nat.not_lt_zero i), fun _ _ => rfl⟩
  next hne =>
    split
    next hdown =>
      rw [hof, hk]
      refine copyDown_moved hdst fun i j hij hj => offset_ne hsrc hdst (by omega) hj ?_
      have hlt := UInt64.lt_iff_toNat_lt.1 hdown.1
      omega
    next hup =>
      rw [hk]
      refine copyUp_moved hdst fun i j hji hi => offset_ne hsrc hdst hi (by omega) ?_
      intro heq
      -- the destination starts after the source and before its end
      refine hup ⟨UInt64.lt_iff_toNat_lt.2 (by omega), UInt64.lt_iff_toNat_lt.2 ?_⟩
      rw [hof, UInt64.toNat_add, UInt64.toNat_ofNat']
      omega

theorem memmove_user {k : Int32} (hk : k.toInt = n) :
    Moved m dst src n (User.memmove m dst src k).2 := by
  have hof : k.toInt64.toUInt64 = .ofNat n := by
    have hlt := k.toInt_lt
    have hwide : k.toInt64 = .ofNat n := by
      rw [← Int64.toInt_inj, Int32.toInt_toInt64, hk, Int64.toInt_ofNat_of_lt (by omega)]
    rw [hwide, Int64.toUInt64_ofNat']
  rw [User.memmove, hk, Int.toNat_natCast]
  split
  next hup =>
    have hlt := UInt64.lt_iff_toNat_lt.1 hup
    exact copyUp_moved hdst fun i j hji hi => offset_ne hsrc hdst hi (by omega) (by omega)
  next hdown =>
    have hle := mt UInt64.lt_iff_toNat_lt.2 hdown
    rw [hof]
    exact copyDown_moved hdst fun i j hij hj => offset_ne hsrc hdst (by omega) hj (by omega)

/-- Both functions copy as if through a temporary buffer, so they agree. -/
theorem memmove_moved (m : Memory) :
    (∀ k : UInt32, k.toNat = n → Moved m dst src n (memmove m dst src k).2) ∧
      (∀ k : Int32, k.toInt = n → Moved m dst src n (User.memmove m dst src k).2) ∧
      ∀ (k : UInt32) (k' : Int32), k.toNat = n → k'.toInt = n →
        memmove m dst src k = User.memmove m dst src k' := by
  refine ⟨fun k => memmove_kernel hsrc hdst, fun k => memmove_user hsrc hdst, fun k k' hk hk' => ?_⟩
  have hmem := (memmove_kernel hsrc hdst hk).unique (memmove_user (m := m) hsrc hdst hk')
  refine Prod.ext ?_ hmem
  have hkernel : (memmove m dst src k).1 = dst := by
    rw [memmove]
    split
    · rfl
    · split <;> rfl
  have huser : (User.memmove m dst src k').1 = dst := by
    rw [User.memmove]
    split <;> rfl
  rw [hkernel, huser]

end Ranges

/-- Three bytes moved up by one: the ranges overlap. -/
theorem memmove_moved_overlap : Moved UInt64.toUInt8 5 4 3 (memmove UInt64.toUInt8 5 4 3).2 ∧
      Moved UInt64.toUInt8 5 4 3 (User.memmove UInt64.toUInt8 5 4 3).2 ∧
      memmove UInt64.toUInt8 5 4 3 = User.memmove UInt64.toUInt8 5 4 3 := by
  have h := @memmove_moved 5 4 3 (by decide) (by decide) UInt64.toUInt8
  exact ⟨h.1 3 rfl, h.2.1 3 rfl, h.2.2 3 3 rfl rfl⟩

end Xv6Schedulers.Text
