import Mathlib.Data.List.Basic
import Mathlib.Logic.Function.Basic

/-!
# Writes — a device that takes one write after another

A device is a map from addresses to contents.  `apply ws d` is the device after the writes `ws`, in
order; `trail ws d` lists the device after each of them, so that a power failure leaves one of
`d :: trail ws d`.

* `apply_of_notMem`, `apply_map`: what an address holds after a list of writes;
* `getElem?_trail`: the device after the first `j` writes.
-/

namespace Xv6Schedulers.Lib
namespace Writes

open Function

universe u v

variable {ι : Type u} {β : Type v} [DecidableEq ι] {ws vs : List (ι × β)} {d e : ι → β} {x : ι}

/-- The device after the writes, in order. -/
@[simp] def apply : List (ι × β) → (ι → β) → ι → β
  | [], d => d
  | w :: ws, d => apply ws (update d w.1 w.2)

/-- The device after each of the writes. -/
@[simp] def trail : List (ι × β) → (ι → β) → List (ι → β)
  | [], _ => []
  | w :: ws, d => update d w.1 w.2 :: trail ws (update d w.1 w.2)

theorem apply_append (ws vs : List (ι × β)) (d : ι → β) :
    apply (ws ++ vs) d = apply vs (apply ws d) := by
  induction ws generalizing d with
  | nil => rfl
  | cons w ws ih => exact ih _

theorem trail_append (ws vs : List (ι × β)) (d : ι → β) :
    trail (ws ++ vs) d = trail ws d ++ trail vs (apply ws d) := by
  induction ws generalizing d with
  | nil => rfl
  | cons w ws ih => exact congrArg (_ :: ·) (ih _)

theorem apply_of_notMem (d : ι → β) (h : x ∉ ws.map Prod.fst) : apply ws d x = d x := by
  induction ws generalizing d with
  | nil => rfl
  | cons w ws ih =>
    rw [List.map_cons, List.mem_cons, not_or] at h
    rw [apply, ih _ h.2, update_of_ne h.1]

theorem apply_map (l : List ι) (f : ι → β) (d : ι → β) (x : ι) :
    apply (l.map fun b => (b, f b)) d x = if x ∈ l then f x else d x := by
  induction l generalizing d with
  | nil => rfl
  | cons b l ih =>
    rw [List.map_cons, apply, ih]
    by_cases hx : x ∈ l
    · simp [hx]
    · by_cases hxb : x = b
      · simp [hxb]
      · simp [hx, hxb]

theorem apply_congr (h : d x = e x) : apply ws d x = apply ws e x := by
  induction ws generalizing d e with
  | nil => exact h
  | cons w ws ih =>
    refine ih ?_
    by_cases hx : x = w.1
    · rw [hx, update_self, update_self]
    · rw [update_of_ne hx, update_of_ne hx, h]

theorem getElem?_trail (ws : List (ι × β)) (d e : ι → β) (j : Nat) :
    (d :: trail ws d)[j]? = some e ↔ j ≤ ws.length ∧ e = apply (ws.take j) d := by
  induction ws generalizing d j with
  | nil => cases j <;> simp [eq_comm]
  | cons w ws ih =>
    cases j with
    | zero => simp [eq_comm]
    | succ j => simpa using ih (update d w.1 w.2) j

end Writes

end Xv6Schedulers.Lib
