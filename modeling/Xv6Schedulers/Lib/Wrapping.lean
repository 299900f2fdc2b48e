import Mathlib.Tactic.Ring
import Mathlib.Order.Nat

/-!
# Wrapping — 32-bit accumulators

A C `int` that only grows by additions holds the image under `Int32.ofInt` of the exact sum.  It
shows the sum itself exactly while the sum fits, and comparing two such counters compares the sums
as long as both fit.
-/

namespace Xv6Schedulers.Lib

/-- The values of a C `int`. -/
def Fits (x : Int) : Prop := -2 ^ 31 ≤ x ∧ x < 2 ^ 31

instance (x : Int) : Decidable (Fits x) := inferInstanceAs (Decidable (_ ∧ _))

theorem fits_toInt (a : Int32) : Fits a.toInt := ⟨a.le_toInt, a.toInt_lt⟩

theorem toInt_ofInt_iff (x : Int) : (Int32.ofInt x).toInt = x ↔ Fits x := by
  constructor
  · intro h
    rw [← h]
    exact fits_toInt _
  · rintro ⟨hlo, hhi⟩
    exact Int32.toInt_ofInt_of_le hlo hhi

theorem ofInt_add_int32 (x : Int) (d : Int32) : Int32.ofInt x + d = Int32.ofInt (x + d.toInt) := by
  rw [Int32.ofInt_add, Int32.ofInt_toInt]

theorem ofInt_charge (p : Int) (d : Int32) (k : Nat) :
    Int32.ofInt (p + d.toInt * k) + d = Int32.ofInt (p + d.toInt * (k + 1 : Nat)) := by
  rw [ofInt_add_int32]
  congr 1
  push_cast
  ring

theorem ofInt_lt_iff {x y : Int} (hx : Fits x) (hy : Fits y) :
    Int32.ofInt x < Int32.ofInt y ↔ x < y := by
  rw [Int32.lt_iff_toInt_lt, (toInt_ofInt_iff x).2 hx, (toInt_ofInt_iff y).2 hy]

theorem ofInt_eq_iff {x y : Int} (hx : Fits x) (hy : Fits y) :
    Int32.ofInt x = Int32.ofInt y ↔ x = y := by
  rw [← Int32.toInt_inj, (toInt_ofInt_iff x).2 hx, (toInt_ofInt_iff y).2 hy]

theorem toInt_add_iff {x : Int} (hx : Fits x) (d : Int32) :
    (Int32.ofInt x + d).toInt = (Int32.ofInt x).toInt + d.toInt ↔ Fits (x + d.toInt) := by
  rw [ofInt_add_int32, (toInt_ofInt_iff x).2 hx]
  exact toInt_ofInt_iff _

theorem toInt_add_of_fits {a d : Int32} (h : Fits (a.toInt + d.toInt)) :
    (a + d).toInt = a.toInt + d.toInt := by
  have hadd := (toInt_add_iff (fits_toInt a) d).2 h
  rwa [Int32.ofInt_toInt] at hadd

theorem toInt_charge {p d : Int32} {x : Int} {k : Nat} (hp : p.toInt = x + d.toInt * k)
    (hd : 0 ≤ d.toInt) (h : p.toInt + d.toInt < 2 ^ 31) :
    (p + d).toInt = x + d.toInt * (k + 1 : Nat) := by
  have hlow := (fits_toInt p).1
  calc
    (p + d).toInt = p.toInt + d.toInt := toInt_add_of_fits ⟨by omega, h⟩
    _ = x + d.toInt * k + d.toInt := by rw [hp]
    _ = x + d.toInt * (k + 1 : Nat) := by
      push_cast
      ring

end Xv6Schedulers.Lib
