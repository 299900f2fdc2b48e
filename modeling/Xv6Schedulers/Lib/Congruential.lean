import Mathlib.Data.ZMod.Basic
import Mathlib.Dynamics.PeriodicPts.Lemmas
import Mathlib.Tactic.LinearCombination
import Mathlib.Tactic.Ring

/-!
# Congruential — linear congruential generators modulo a power of two

The generator `x ↦ a * x + c` modulo `2 ^ (m + 1)` with `a % 4 = 1` and `c` odd runs through all
residues before it returns to its start.

* `iterate_two_pow` gives the shape of the map of `2 ^ k` steps.
* `minimalPeriod_next` is the period, over any commutative ring with `2 ^ (m + 1) = 0 ≠ 2 ^ m`.
* `card_filter_iterate` counts: over one period, a property of the residue holds as often as it
  holds of the numbers below the modulus.
-/

namespace Xv6Schedulers.Lib
namespace Congruential

open Function Finset

section Ring

universe u

variable {R : Type u} [CommRing R] {a c t s : R}

def next (a c x : R) : R := a * x + c

/-- `2 ^ k` steps: the multiplier is 1 up to a multiple of `2 ^ (k + 2)`, and the increment is an odd
multiple of `2 ^ k`. -/
theorem iterate_two_pow (ha : a = 1 + 4 * t) (hc : c = 1 + 2 * s) (k : Nat) :
    ∃ p q : R, ∀ x, (next a c)^[2 ^ k] x = (1 + 2 ^ (k + 2) * p) * x + 2 ^ k * (1 + 2 * q) := by
  induction k with
  | zero =>
    refine ⟨t, s, fun x => ?_⟩
    rw [Nat.pow_zero, iterate_one, next, ha, hc]
    ring
  | succ k ih =>
    rcases ih with ⟨p, q, hmap⟩
    refine ⟨p + 2 ^ (k + 1) * p ^ 2, q + 2 ^ k * p * (1 + 2 * q), fun x => ?_⟩
    have htwice : 2 ^ (k + 1) = 2 ^ k + 2 ^ k := by ring
    calc (next a c)^[2 ^ (k + 1)] x
        = (next a c)^[2 ^ k] ((next a c)^[2 ^ k] x) := by rw [htwice, iterate_add_apply]
      _ = (1 + 2 ^ (k + 2) * p) * ((1 + 2 ^ (k + 2) * p) * x + 2 ^ k * (1 + 2 * q)) +
            2 ^ k * (1 + 2 * q) := by rw [hmap x, hmap]
      _ = _ := by ring

variable {m : Nat}

/-- Half a period adds `2 ^ m`, so the generator is not back yet; a whole one brings it back. -/
theorem minimalPeriod_next (ha : a = 1 + 4 * t) (hc : c = 1 + 2 * s)
    (hzero : (2 : R) ^ (m + 1) = 0) (hne : (2 : R) ^ m ≠ 0) (x : R) :
    minimalPeriod (next a c) x = 2 ^ (m + 1) := by
  have hprime : Fact (Nat.Prime 2) := ⟨Nat.prime_two⟩
  apply minimalPeriod_eq_prime_pow
  · intro hback
    rcases iterate_two_pow ha hc m with ⟨p, q, hmap⟩
    apply hne
    have hhalf : (1 + 2 ^ (m + 2) * p) * x + 2 ^ m * (1 + 2 * q) = x := (hmap x).symm.trans hback
    linear_combination hhalf - (2 * p * x + q) * hzero
  · rcases iterate_two_pow ha hc (m + 1) with ⟨p, q, hmap⟩
    refine (hmap x).trans ?_
    linear_combination (4 * p * x + (1 + 2 * q)) * hzero

end Ring

/-! ## Counting over a period -/

section Count

variable {m a c : Nat}

theorem two_pow_ne_zero (m : Nat) : (2 : ZMod (2 ^ (m + 1))) ^ m ≠ 0 := by
  intro hzero
  have hcast : ((2 ^ m : Nat) : ZMod (2 ^ (m + 1))) = 0 := by exact_mod_cast hzero
  have hdvd : 2 ^ (m + 1) ∣ 2 ^ m := (ZMod.natCast_eq_zero_iff _ _).1 hcast
  have hle := (Nat.pow_dvd_pow_iff_le_right (by decide)).1 hdvd
  omega

theorem two_pow_succ_eq_zero (m : Nat) : (2 : ZMod (2 ^ (m + 1))) ^ (m + 1) = 0 := by
  have hcast : ((2 ^ (m + 1) : Nat) : ZMod (2 ^ (m + 1))) = 0 := ZMod.natCast_self _
  exact_mod_cast hcast

/-- The period of the generator is the modulus. -/
theorem minimalPeriod_zmod (ha : a % 4 = 1) (hc : c % 2 = 1) (x : ZMod (2 ^ (m + 1))) :
    minimalPeriod (next (a : ZMod (2 ^ (m + 1))) c) x = 2 ^ (m + 1) := by
  have ha' : a = 1 + 4 * (a / 4) := by omega
  have hc' : c = 1 + 2 * (c / 2) := by omega
  refine minimalPeriod_next (t := ((a / 4 : Nat) : ZMod _)) (s := ((c / 2 : Nat) : ZMod _)) ?_ ?_
    (two_pow_succ_eq_zero m) (two_pow_ne_zero m) x
  · exact_mod_cast congrArg (Nat.cast : Nat → ZMod (2 ^ (m + 1))) ha'
  · exact_mod_cast congrArg (Nat.cast : Nat → ZMod (2 ^ (m + 1))) hc'

theorem card_filter_iterate (ha : a % 4 = 1) (hc : c % 2 = 1) (x : ZMod (2 ^ (m + 1)))
    (P : Nat → Prop) [DecidablePred P] :
    ((range (2 ^ (m + 1))).filter fun k =>
      P ((next (a : ZMod (2 ^ (m + 1))) c)^[k] x).val).card =
      ((range (2 ^ (m + 1))).filter P).card := by
  have hinj : Set.InjOn (fun k => ((next (a : ZMod (2 ^ (m + 1))) c)^[k] x).val)
      (range (2 ^ (m + 1))) := by
    intro i hi j hj heq
    have hperiod := minimalPeriod_zmod (m := m) ha hc x
    apply iterate_injOn_Iio_minimalPeriod (f := next (a : ZMod (2 ^ (m + 1))) c) (x := x)
    · rw [hperiod]
      exact mem_range.1 hi
    · rw [hperiod]
      exact mem_range.1 hj
    · exact ZMod.val_injective _ heq
  -- an injective map of the numbers below the modulus into themselves is onto
  have himage : (range (2 ^ (m + 1))).image
      (fun k => ((next (a : ZMod (2 ^ (m + 1))) c)^[k] x).val) = range (2 ^ (m + 1)) := by
    apply eq_of_subset_of_card_le
    · intro y hy
      rcases mem_image.1 hy with ⟨k, -, rfl⟩
      exact mem_range.2 (ZMod.val_lt _)
    · rw [card_image_of_injOn hinj]
  rw [← card_image_of_injOn (hinj.mono fun k hk => (mem_filter.1 hk).1)]
  refine congrArg card ?_
  conv_rhs => rw [← himage]
  rw [filter_image]

end Count

end Congruential
end Xv6Schedulers.Lib
