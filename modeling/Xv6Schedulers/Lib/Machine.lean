import Mathlib.Algebra.Ring.Nat
import Mathlib.Logic.Relation

/-!
# Machine — labelled transition systems with executable steps

A machine is a partial step function on states; the label of a step holds everything the step
function does not determine.  Runs are reflexive-transitive closures of a step relation, so the
closure lemmas are those of `Relation.ReflTransGen`.

* `Machine.Path G s t` is a run from `s` to `t` whose every step `(s, a, s')` meets the guard `G`;
  a guard may speak about the state before, the label, and the state after.
* `Machine.Reaches s t` is a run without a guard.
* `Path.invariant` is the induction rule: what holds at the start and survives every guarded step
  holds at the end.
* `Machine.exec` runs a list of labels, `Machine.execBy` one whose steps pass a test.
-/

namespace Xv6Schedulers.Lib

universe u v

-- The machines of a few processes or harts name them by literals.
instance neZero_one : NeZero 1 := ⟨by decide⟩
instance neZero_two : NeZero 2 := ⟨by decide⟩
instance neZero_three : NeZero 3 := ⟨by decide⟩

/-- A labelled transition system with a step function. -/
structure Machine (σ : Type u) (α : Type v) where
  step : σ → α → Option σ

namespace Machine

variable {σ : Type u} {α : Type v} (M : Machine σ α)

/-- A guard on steps: state before, label, state after. -/
abbrev Guard (σ : Type u) (α : Type v) := σ → α → σ → Prop

/-- One step that meets the guard. -/
def StepBy (G : Guard σ α) (s t : σ) : Prop := ∃ a, M.step s a = some t ∧ G s a t

/-- A run whose steps all meet the guard. -/
def Path (G : Guard σ α) : σ → σ → Prop := Relation.ReflTransGen (M.StepBy G)

def Reaches : σ → σ → Prop := M.Path fun _ _ _ => True

variable {M} {G : Guard σ α} {s t u : σ}

theorem Path.refl (s : σ) : M.Path G s s := Relation.ReflTransGen.refl

theorem Path.trans (h₁ : M.Path G s t) (h₂ : M.Path G t u) : M.Path G s u :=
  Relation.ReflTransGen.trans h₁ h₂

theorem Path.head {a : α} (hstep : M.step s a = some t) (hG : G s a t) (h : M.Path G t u) :
    M.Path G s u :=
  Relation.ReflTransGen.head ⟨a, hstep, hG⟩ h

/-- The invariant rule for guarded runs. -/
theorem Path.invariant {I : σ → Prop} (h : M.Path G s t) (h₀ : I s)
    (hstep : ∀ t a u, I t → M.step t a = some u → G t a u → I u) : I t := by
  induction h with
  | refl => exact h₀
  | tail _ hlast ih =>
    rcases hlast with ⟨a, hs, hG⟩
    exact hstep _ a _ ih hs hG

/-- The invariant rule for runs. -/
theorem Reaches.invariant {I : σ → Prop} (h : M.Reaches s t) (h₀ : I s)
    (hstep : ∀ t a u, I t → M.step t a = some u → I u) : I t :=
  Path.invariant h h₀ fun t a u hI hs _ => hstep t a u hI hs

variable (M)

def exec (s : σ) : List α → Option σ
  | [] => some s
  | a :: as =>
      match M.step s a with
      | none => none
      | some t => exec t as

variable {M}

theorem reaches_of_exec : ∀ {as : List α} {s t : σ}, M.exec s as = some t → M.Reaches s t
  | [], s, t, h => by
      have : s = t := by simpa [exec] using h
      subst this
      exact Path.refl s
  | a :: as, s, t, h => by
      cases hs : M.step s a with
      | none =>
        simp [exec, hs] at h
      | some u =>
        have htail : M.exec u as = some t := by simpa [exec, hs] using h
        exact Path.head hs trivial (reaches_of_exec htail)

theorem reaches_of_any {P : σ → Prop} {_ : DecidablePred P} {as : List α}
    (h : (M.exec s as).any (fun t => decide (P t)) = true) : ∃ t, M.Reaches s t ∧ P t := by
  rcases (Option.any_eq_true _ _).1 h with ⟨t, ht, htest⟩
  exact ⟨t, reaches_of_exec ht, of_decide_eq_true htest⟩

variable (M)

/-- Run a list of labels through steps that pass the test. -/
def execBy (ok : σ → α → σ → Bool) (s : σ) : List α → Option σ
  | [] => some s
  | a :: as =>
      match M.step s a with
      | none => none
      | some t => if ok s a t then execBy ok t as else none

variable {M}

theorem path_of_execBy {ok : σ → α → σ → Bool} (hG : ∀ s a t, ok s a t = true → G s a t)
    {as : List α} (h : M.execBy ok s as = some t) : M.Path G s t := by
  induction as generalizing s with
  | nil =>
    cases h
    exact Path.refl t
  | cons a as ih =>
    unfold execBy at h
    split at h
    · cases h
    · rename_i u hs
      split at h
      · rename_i hok
        exact Path.head hs (hG s a u hok) (ih h)
      · cases h

end Machine

end Xv6Schedulers.Lib
