import Xv6Schedulers.Locking.Reachable
import Xv6Schedulers.Lib.WaitFor

/-!
# Deadlock — no cycle of spinning harts

In every reachable state a hart that spins on a lock holds only locks below it in the order of
`Discipline.lean`: the stride scan takes the process locks in slot order, `wait_lock` and a
condition lock are taken before any process lock, and `pid_lock` is taken last.  The general
argument is `Lib.WaitFor.acyclic`.
-/

namespace Xv6Schedulers.Locking

open Kernel Lib

variable {n : Nat} {s : State n} {c : Fin n}

/-- The lock that hart `c` spins on. -/
def spinsOn (s : State n) (c : Fin n) : Option Lock :=
  match s.stack (s.thread c) with
  | .spin l :: _ => some l
  | _ => none

theorem spinsOn_eq (s : State n) (c : Fin n) : spinsOn s c = spinning (s.stack (s.thread c)) := by
  unfold spinsOn
  cases s.stack (s.thread c) with
  | nil => rfl
  | cons f r => cases f <;> rfl

/-- Hart `c` spins on a lock that hart `d` holds. -/
def WaitsFor (s : State n) : Fin n → Fin n → Prop := WaitFor (spinsOn s) s.locked

instance (s : State n) (c d : Fin n) : Decidable (WaitsFor s c d) :=
  match h : spinsOn s c with
  | none => isFalse (by rintro ⟨l, hl, -⟩; simp [h] at hl)
  | some l =>
      decidable_of_iff (s.locked l = some d)
        ⟨fun hd => ⟨l, h, hd⟩, fun ⟨k, hk, hd⟩ => by
          have hkl : l = k := by simpa [h] using hk
          rwa [hkl]⟩

theorem Inv.ranked (h : Inv s) : WaitFor.Ranked (spinsOn s) s.locked rank := by
  intro c l k hspin hheld
  rw [spinsOn_eq] at hspin
  cases hst : s.stack (s.thread c) with
  | nil => simp [hst] at hspin
  | cons f r =>
    have hf : f = .spin l := by
      rw [hst] at hspin
      cases f <;> simp at hspin
      rw [hspin]
    subst hf
    have hbelow := (h.wf_stack hst).1.2.2
    exact hbelow k ((h.holder_stack hst k).1 hheld)

/-- No reachable state contains a cycle of harts each spinning on a lock held by the next. -/
theorem no_deadlock {mode : Fin n → SchedMode} (h : Reachable mode s) (c : Fin n) :
    ¬ Relation.TransGen (WaitsFor s) c c :=
  WaitFor.acyclic (reachable_inv h).ranked c

/-- Two harts enter the lottery scan; the second spins on the lock of slot 0 held by the first. -/
def contention : Option (State 2) :=
  (machine 2).exec (boot fun _ => .loteria)
    [(0, .draw .class0), (0, .go), (0, .go), (0, .go), (1, .draw .class0), (1, .go), (1, .go)]

theorem no_deadlock_contention : ∃ s : State 2, Reachable (fun _ => .loteria) s ∧
    WaitsFor s 1 0 ∧ ¬ Relation.TransGen (WaitsFor s) 1 1 := by
  have hsome : contention.isSome = true := by decide
  rcases Option.isSome_iff_exists.1 hsome with ⟨s, hs⟩
  have hreach : Reachable (fun _ => .loteria) s := Machine.reaches_of_exec hs
  have hwaits : (contention.map fun s => decide (WaitsFor s 1 0)) = some true := by decide
  rw [hs] at hwaits
  exact ⟨s, hreach, by simpa using hwaits, no_deadlock hreach 1⟩

end Xv6Schedulers.Locking
