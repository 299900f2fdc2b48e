import Mathlib.Tactic.Common

/-!
# Exec — sequential code over a state

Code runs from a state and either returns a value and a state or stops with an error.

* `Exec.read`, `Exec.within`: a view of the state, and code for a part of the state run on the whole.
* `Exec.each`: a counting loop.
* `Exec.Stops P x`: the code `x` stops only with errors in `P`.
* `Exec.Ends E x Q s`: from `s` the code `x` returns in `Q`, or it stops and `E` holds.
* `Exec.Blind φ x`: the code `x` does not see what `φ` does to the state and does not undo it, so
  that `φ` may be applied before or after.
-/

namespace Xv6Schedulers.Lib

/-- Code over the state `σ` that may stop with an `ε`. -/
abbrev Exec (ε σ α : Type) := StateT σ (Except ε) α

namespace Exec

variable {ε σ τ α β : Type} {x : Exec ε σ α} {f : α → Exec ε σ β} {s t : σ} {a : α} {e : ε}

def read (f : σ → α) : Exec ε σ α := fun s => .ok (f s, s)

/-- Run `x` on the part of the state that `get` reads and `put` replaces. -/
def within (get : σ → τ) (put : τ → σ → σ) (x : Exec ε τ α) : Exec ε σ α := fun s =>
  match x (get s) with
  | .ok (a, t) => .ok (a, put t s)
  | .error e => .error e

/-- Run `f` at `i`, `i + 1`, … for `n` rounds. -/
def each (f : Nat → Exec ε σ Unit) : Nat → Nat → Exec ε σ Unit
  | 0, _ => pure ()
  | n + 1, i => do
      f i
      each f n (i + 1)

@[simp] theorem pure_apply (a : α) (s : σ) : (pure a : Exec ε σ α) s = .ok (a, s) := rfl

@[simp] theorem throw_apply (e : ε) (s : σ) : (throw e : Exec ε σ α) s = .error e := rfl

@[simp] theorem read_apply (f : σ → α) (s : σ) : (read f : Exec ε σ α) s = .ok (f s, s) := rfl

@[simp] theorem modify_apply (f : σ → σ) (s : σ) :
    (modify f : Exec ε σ PUnit) s = .ok ((), f s) := rfl

theorem bind_apply (x : Exec ε σ α) (f : α → Exec ε σ β) (s : σ) : (x >>= f) s = match x s with
      | .ok (a, t) => f a t
      | .error e => .error e := by
  show Except.bind (x s) _ = _
  cases x s <;> rfl

theorem bind_ok (h : x s = .ok (a, t)) : (x >>= f) s = f a t := by
  rw [bind_apply, h]

theorem bind_error (h : x s = .error e) : (x >>= f) s = .error e := by
  rw [bind_apply, h]

theorem bind_eq_ok {r : β × σ} : (x >>= f) s = .ok r ↔ ∃ a t, x s = .ok (a, t) ∧ f a t = .ok r := by
  rw [bind_apply]
  cases x s with
  | error e => simp
  | ok q =>
    rcases q with ⟨a, t⟩
    constructor
    · exact fun h => ⟨a, t, rfl, h⟩
    · rintro ⟨a', t', heq, h⟩
      cases heq
      exact h

/-! ## How code may stop -/

def Stops (P : ε → Prop) (x : Exec ε σ α) : Prop := ∀ s e, x s = .error e → P e

namespace Stops

variable {P : ε → Prop}

theorem ret (a : α) : Stops P (pure a : Exec ε σ α) := nofun

theorem reads (f : σ → α) : Stops P (read f : Exec ε σ α) := nofun

theorem modifies (f : σ → σ) : Stops P (modify f : Exec ε σ PUnit) := nofun

theorem throws (he : P e) : Stops P (throw e : Exec ε σ α) := by
  intro s e' h
  cases h
  exact he

theorem seq (hx : Stops P x) (hf : ∀ a, Stops P (f a)) : Stops P (x >>= f) := by
  intro s e h
  rw [bind_apply] at h
  cases hr : x s with
  | error e' =>
    rw [hr] at h
    cases h
    exact hx s e hr
  | ok r =>
    rw [hr] at h
    exact hf r.1 r.2 e h

theorem each {f : Nat → Exec ε σ Unit} (hf : ∀ i, Stops P (f i)) (n i : Nat) :
    Stops P (Exec.each f n i) := by
  induction n generalizing i with
  | zero => exact ret ()
  | succ n ih => exact seq (hf i) fun _ => ih (i + 1)

theorem within {get : σ → τ} {put : τ → σ → σ} {x : Exec ε τ α} (hx : Stops P x) :
    Stops P (Exec.within get put x) := by
  intro s e h
  unfold Exec.within at h
  split at h
  · cases h
  · rename_i hr
    cases h
    exact hx _ _ hr

end Stops

/-! ## What code returns -/

/-- What a result has to meet: a value and a state in `Q`, or an error that `E` allows. -/
def Meets (E : Prop) (Q : α → σ → Prop) : Except ε (α × σ) → Prop
  | .ok (a, t) => Q a t
  | .error _ => E

/-- From `s`, `x` returns a value and a state in `Q`, or it stops and `E` holds. -/
structure Ends (E : Prop) (x : Exec ε σ α) (Q : α → σ → Prop) (s : σ) : Prop where
  meets : Meets E Q (x s)

namespace Ends

variable {E : Prop} {x : Exec ε σ α} {f : α → Exec ε σ β} {Q Q' : α → σ → Prop}
  {R : β → σ → Prop} {s : σ}

theorem of_eq (hx : x s = .ok (a, t)) (h : Q a t) : Ends E x Q s := by
  refine ⟨?_⟩
  rw [hx]
  exact h

theorem of_stop (hx : x s = .error e) (h : E) : Ends E x Q s := by
  refine ⟨?_⟩
  rw [hx]
  exact h

theorem of_ok (h : Ends E x Q s) (hx : x s = .ok (a, t)) : Q a t := by
  have hmeets := h.meets
  rw [hx] at hmeets
  exact hmeets

theorem of_error (h : Ends E x Q s) (hx : x s = .error e) : E := by
  have hmeets := h.meets
  rw [hx] at hmeets
  exact hmeets

theorem ret (h : Q a s) : Ends E (pure a : Exec ε σ α) Q s := ⟨h⟩

theorem throws (h : E) : Ends E (throw e : Exec ε σ α) Q s := ⟨h⟩

theorem modifies {g : σ → σ} {Q : PUnit → σ → Prop} (h : Q () (g s)) :
    Ends E (modify g : Exec ε σ PUnit) Q s := ⟨h⟩

theorem seq (h : Ends E x Q s) (hf : ∀ a t, Q a t → Ends E (f a) R t) : Ends E (x >>= f) R s := by
  refine ⟨?_⟩
  cases hx : x s with
  | ok r =>
    rw [bind_ok hx]
    exact (hf r.1 r.2 (h.of_ok hx)).meets
  | error e =>
    rw [bind_error hx]
    exact h.of_error hx

theorem mono (h : Ends E x Q s) (hQ : ∀ a t, Q a t → Q' a t) : Ends E x Q' s := by
  refine ⟨?_⟩
  cases hx : x s with
  | ok r => exact hQ r.1 r.2 (h.of_ok hx)
  | error e => exact h.of_error hx

/-- The first part of the code returns. -/
theorem step (hx : x s = .ok (a, t)) (h : Ends E (f a) R t) : Ends E (x >>= f) R s := by
  refine ⟨?_⟩
  rw [bind_ok hx]
  exact h.meets

theorem stop (hx : x s = .error e) (h : E) : Ends E (x >>= f) R s := by
  refine ⟨?_⟩
  rw [bind_error hx]
  exact h

theorem returns (h : Ends False x Q s) : ∃ a t, x s = .ok (a, t) ∧ Q a t := by
  cases hx : x s with
  | ok r => exact ⟨r.1, r.2, rfl, h.of_ok hx⟩
  | error e => exact (h.of_error hx).elim

theorem within {get : σ → τ} {put : τ → σ → σ} {x : Exec ε τ α} {Q : α → τ → Prop}
    (h : Ends E x Q (get s)) :
    Ends E (Exec.within get put x) (fun a s' => ∃ t, s' = put t s ∧ Q a t) s := by
  refine ⟨?_⟩
  unfold Exec.within
  cases hx : x (get s) with
  | ok r => exact ⟨r.2, rfl, h.of_ok hx⟩
  | error e => exact h.of_error hx

theorem each {g : Nat → Exec ε σ Unit} {Q : Unit → σ → Prop} (L : Nat → σ → Prop) {n i : Nat}
    (h : L i s)
    (hround : ∀ j s, i ≤ j → j < i + n → L j s → Ends E (g j) (fun _ s => L (j + 1) s) s)
    (hend : ∀ s, L (i + n) s → Q () s) : Ends E (Exec.each g n i) Q s := by
  induction n generalizing i s with
  | zero => exact ret (hend s h)
  | succ n ih =>
    refine (hround i s (Nat.le_refl i) (by omega) h).seq ?_
    intro _ s hgo
    refine ih hgo (fun j s hle hlt => hround j s (by omega) (by omega)) ?_
    intro s hs
    exact hend s (by rwa [Nat.add_comm n 1, ← Nat.add_assoc])

theorem loop {g : Nat → Exec ε σ Unit} (L : Nat → σ → Prop) {n i : Nat} (h : L i s)
    (hround : ∀ j s, i ≤ j → j < i + n → L j s → Ends E (g j) (fun _ s => L (j + 1) s) s) :
    Ends E (Exec.each g n i) (fun _ s => L (i + n) s) s :=
  each L h hround fun _ hs => hs

end Ends

/-! ## Changes that code does not see -/

/-- The result of code with `φ` applied to the state. -/
def after (φ : σ → σ) : Except ε (α × σ) → Except ε (α × σ)
  | .ok (a, s) => .ok (a, φ s)
  | .error e => .error e

/-- `φ` may be applied before or after `x`. -/
def Blind (φ : σ → σ) (x : Exec ε σ α) : Prop := ∀ s, x (φ s) = after φ (x s)

namespace Blind

variable {φ : σ → σ}

theorem modifies {f : σ → σ} (h : ∀ s, f (φ s) = φ (f s)) :
    Blind φ (modify f : Exec ε σ PUnit) := by
  intro s
  simp only [modify_apply, after, h]

theorem seq (hx : Blind φ x) (hf : ∀ a, Blind φ (f a)) : Blind φ (x >>= f) := by
  intro s
  rw [bind_apply, bind_apply, hx s]
  cases x s with
  | error e => rfl
  | ok r => exact hf r.1 r.2

end Blind

end Exec

end Xv6Schedulers.Lib
