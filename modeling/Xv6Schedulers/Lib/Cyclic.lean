import Mathlib.Order.Nat

/-!
# Cyclic — positions on a ring

A cursor moves forward over the positions `0, …, N - 1` and wraps around.  `gap N x y` is the number
of positions it has to advance from `x` to come to `y`.
-/

namespace Xv6Schedulers.Lib

/-- How far `y` lies ahead of `x` on a ring of `N` positions. -/
def gap (N x y : ℕ) : ℕ := if x ≤ y then y - x else N + y - x

section

variable {N x y p q i : ℕ}

theorem gap_lt (hy : y < N) : gap N x y < N := by
  unfold gap
  split <;> omega

theorem mod_cases (hx : x < N) (hi : i < N) :
    (x + i) % N = if x + i < N then x + i else x + i - N := by
  split
  · rename_i hlt
    exact Nat.mod_eq_of_lt hlt
  · rw [Nat.mod_eq_sub_mod (by omega)]
    exact Nat.mod_eq_of_lt (by omega)

theorem succ_mod_cases (hx : x < N) : (x + 1) % N = if x + 1 < N then x + 1 else 0 := by
  split
  · rename_i hlt
    exact Nat.mod_eq_of_lt hlt
  · have heq : x + 1 = N := by omega
    rw [heq, Nat.mod_self]

theorem eq_gap (hx : x < N) (hi : i < N) : i = gap N x ((x + i) % N) := by
  rw [mod_cases hx hi]
  unfold gap
  split <;> split <;> omega

theorem add_gap (hx : x < N) (hy : y < N) : (x + gap N x y) % N = y := by
  rw [mod_cases hx (gap_lt hy)]
  unfold gap
  split <;> split <;> omega

theorem gap_succ_lt (hp : p < N) (hq : q < N) (hpq : p ≠ q) :
    gap N ((q + 1) % N) p < gap N ((q + 1) % N) q := by
  rw [succ_mod_cases hq]
  unfold gap
  (repeat' split) <;> omega

/-- A cursor that stops short of `p`, and goes on from the next position, still meets `p` before
`q`. -/
theorem gap_advance (hx : x < N) (hp : p < N) (hq : q < N) (hi : i < gap N x p)
    (hpq : gap N x p < gap N x q) :
    gap N (((x + i) % N + 1) % N) p < gap N (((x + i) % N + 1) % N) q := by
  have hiN : i < N := Nat.lt_trans hi (gap_lt hp)
  rw [succ_mod_cases (Nat.mod_lt _ (by omega)), mod_cases hx hiN]
  unfold gap at hi hpq ⊢
  (repeat' split at hi) <;> (repeat' split at hpq) <;> (repeat' split) <;> omega

end

end Xv6Schedulers.Lib
