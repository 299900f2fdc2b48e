import Mathlib.Tactic.Common

/-!
# Spin — who holds a spinlock

A lock variable names its holder; the code of a thread tells whether it is between taking and giving
up the lock.  `Held` says that the two agree, and `Held.step` that they still agree when one thread
has moved.
-/

namespace Xv6Schedulers.Lib

universe u

variable {ι : Type u}

/-- The holder of the lock is the thread that the code says holds it. -/
def Held (owner : Option ι) (holds : ι → Prop) : Prop := ∀ p, owner = some p ↔ holds p

namespace Held

variable {owner owner' : Option ι} {holds holds' : ι → Prop} {p q : ι}

theorem unique (h : Held owner holds) (hp : holds p) (hq : holds q) : p = q := by
  have howner := (h p).2 hp
  rw [(h q).2 hq] at howner
  exact (Option.some.inj howner).symm

theorem free (h : Held owner holds) (hnone : owner = none) (p : ι) : ¬ holds p := by
  intro hp
  rw [(h p).2 hp] at hnone
  cases hnone

/-- Thread `p` leaves the lock alone, takes it when it is free, or gives it up. -/
theorem step (h : Held owner holds) (hother : ∀ q, q ≠ p → (holds' q ↔ holds q))
    (hp : (owner' = owner ∧ (holds' p ↔ holds p)) ∨ (owner = none ∧ owner' = some p ∧ holds' p) ∨
      (holds p ∧ owner' = none ∧ ¬ holds' p)) : Held owner' holds' := by
  intro q
  by_cases hq : q = p
  · subst hq
    rcases hp with ⟨howner, hkeep⟩ | ⟨-, hnew, hin⟩ | ⟨-, hnew, hout⟩
    · rw [howner, hkeep]
      exact h q
    · exact iff_of_true hnew hin
    · exact iff_of_false (by rw [hnew]; exact nofun) hout
  · rw [hother q hq]
    rcases hp with ⟨howner, -⟩ | ⟨hnone, hnew, -⟩ | ⟨hin, hnew, -⟩
    · rw [howner]
      exact h q
    · refine iff_of_false ?_ (h.free hnone q)
      rw [hnew]
      exact fun heq => hq (Option.some.inj heq).symm
    · refine iff_of_false (by rw [hnew]; exact nofun) fun hheld => hq (h.unique hheld hin)

end Held

end Xv6Schedulers.Lib
