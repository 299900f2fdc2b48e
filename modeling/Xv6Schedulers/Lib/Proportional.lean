import Mathlib.Algebra.Order.Ring.Int
import Mathlib.Tactic.Linarith

/-!
# Proportional — weighted service by least total

Items with weights `w i` are served one at a time; the total of an item is its weight times the
number of times it has been served.

* `Balanced w S n`: no item of `S` is ahead of another by more than its own weight.
* `Balanced.serve`: serving an item of least total keeps the balance.
* `served_le`: how often an item can be served while another one with total `x` waits.
-/

namespace Xv6Schedulers.Lib

universe u

variable {ι : Type u}

/-- No item of `S` is ahead of another by more than its own weight. -/
def Balanced (w : ι → ℤ) (S : Set ι) (n : ι → ℕ) : Prop :=
  ∀ i ∈ S, ∀ j ∈ S, w i * n i ≤ w j * n j + w i

section

variable {w : ι → ℤ} {S : Set ι} {n m : ι → ℕ} {b : ι}

theorem Balanced.zero (hw : ∀ i ∈ S, 0 ≤ w i) (hn : ∀ i ∈ S, n i = 0) : Balanced w S n := by
  intro i hi j hj
  rw [hn i hi, hn j hj]
  simpa using hw i hi

theorem Balanced.congr (h : Balanced w S n) (hm : ∀ i ∈ S, m i = n i) : Balanced w S m := by
  intro i hi j hj
  rw [hm i hi, hm j hj]
  exact h i hi j hj

/-- Serving an item of least total keeps the balance. -/
theorem Balanced.serve (h : Balanced w S n) (hw : ∀ i ∈ S, 0 ≤ w i)
    (hmin : ∀ j ∈ S, w b * n b ≤ w j * n j) (hb : m b = n b + 1)
    (hother : ∀ i, i ≠ b → m i = n i) : Balanced w S m := by
  intro i hi j hj
  by_cases hib : i = b
  · subst hib
    by_cases hji : j = i
    · subst hji
      have hpos := hw j hj
      linarith
    · -- the item just served was not ahead before
      rw [hb, hother j hji]
      have hle := hmin j hj
      push_cast
      linarith
  · rw [hother i hib]
    by_cases hjb : j = b
    · subst hjb
      have hle := h i hi j hj
      have hpos := hw j hj
      rw [hb]
      push_cast
      linarith
    · rw [hother j hjb]
      exact h i hi j hj

end

/-- An item of positive weight that is never served above a total of `x` is served at most
`(x - start) / weight + 1` times. -/
theorem served_le {weight start x : ℤ} {k : ℕ} (hweight : 0 < weight) (hstart : start ≤ x)
    (h : 2 ≤ k → start + weight * ((k : ℤ) - 1) ≤ x) : (k : ℤ) ≤ (x - start) / weight + 1 := by
  by_cases hk : 2 ≤ k
  · have hle : ((k : ℤ) - 1) * weight ≤ x - start := by
      have hbound := h hk
      linarith
    have hdiv := (Int.le_ediv_iff_mul_le hweight).2 hle
    linarith
  · have hnonneg : 0 ≤ (x - start) / weight := Int.ediv_nonneg (by linarith) hweight.le
    omega

end Xv6Schedulers.Lib
