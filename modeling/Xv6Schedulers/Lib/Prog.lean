import Mathlib.Tactic.Common

/-!
# Prog — sequential programs over an interface of operations

A program is a tree: it returns, halts, or performs an operation and goes on with the answer.  The
operations are only named here; a handler gives them a meaning over some state, and one program can
be run over several handlers.

* `wp H J E x Q s`: run from `s`, the program `x` meets `J` after every operation, halts only as `E`
  allows, and returns a value and a state in `Q`.
* `run H x s`: the value and the state that `x` returns.
* `wp_bind`, `wp_mono`, `wp.seq` are the rules for composing specifications; `wp_untilSome` is the
  invariant rule of the loop.
-/

namespace Xv6Schedulers.Lib

/-- The operations of a store, each with the type of its answers. -/
structure Interface where
  Op : Type
  Ans : Op → Type

inductive Prog (I : Interface) (ε α : Type) : Type
  | ret (a : α)
  | halt (e : ε)
  | op (o : I.Op) (k : I.Ans o → Prog I ε α)

namespace Prog

variable {I : Interface} {ε α β σ : Type}

def bind : Prog I ε α → (α → Prog I ε β) → Prog I ε β
  | .ret a, f => f a
  | .halt e, _ => .halt e
  | .op o k, f => .op o fun r => (k r).bind f

instance : Monad (Prog I ε) where
  pure := .ret
  bind := Prog.bind

@[simp] theorem pure_eq (a : α) : (pure a : Prog I ε α) = .ret a := rfl

@[simp] theorem ret_bind (a : α) (f : α → Prog I ε β) : (Prog.ret a >>= f) = f a := rfl

@[simp] theorem halt_bind (e : ε) (f : α → Prog I ε β) : (Prog.halt e >>= f) = .halt e := rfl

@[simp] theorem op_bind (o : I.Op) (k : I.Ans o → Prog I ε α) (f : α → Prog I ε β) :
    (Prog.op o k >>= f) = .op o fun r => k r >>= f := rfl

/-! ## Loops -/

/-- Run `f` at `i`, `i + 1`, … for `n` rounds, until one gives a result. -/
def untilSome (f : Nat → Prog I ε (Option α)) : Nat → Nat → Prog I ε (Option α)
  | 0, _ => .ret none
  | n + 1, i => do
      match ← f i with
      | some a => .ret (some a)
      | none => untilSome f n (i + 1)

/-! ## Weakest preconditions -/

/-- What the operations do to a state. -/
abbrev Handler (I : Interface) (σ : Type) := (o : I.Op) → σ → I.Ans o × σ

def run (H : Handler I σ) : Prog I ε α → σ → Except ε (α × σ)
  | .ret a, s => .ok (a, s)
  | .halt e, _ => .error e
  | .op o k, s => run H (k (H o s).1) (H o s).2

section Wp

variable (H : Handler I σ) (J : σ → Prop) (E : ε → Prop)

/-- `x` keeps `J` at every operation, halts only as `E` allows, and returns in `Q`. -/
def wp : Prog I ε α → (α → σ → Prop) → σ → Prop
  | .ret a, Q, s => Q a s
  | .halt e, _, _ => E e
  | .op o k, Q, s => J (H o s).2 ∧ wp (k (H o s).1) Q (H o s).2

variable {H J E} {x : Prog I ε α} {f : α → Prog I ε β} {Q Q' : α → σ → Prop}
  {R : β → σ → Prop} {s : σ}

@[simp] theorem wp_ret {a : α} : wp H J E (.ret a) Q s ↔ Q a s := Iff.rfl

@[simp] theorem wp_halt {e : ε} : wp H J E (.halt e : Prog I ε α) Q s ↔ E e := Iff.rfl

theorem wp_op {o : I.Op} {k : I.Ans o → Prog I ε α} :
    wp H J E (.op o k) Q s ↔ J (H o s).2 ∧ wp H J E (k (H o s).1) Q (H o s).2 := Iff.rfl

theorem wp_bind : wp H J E (x >>= f) R s ↔ wp H J E x (fun a s => wp H J E (f a) R s) s := by
  induction x generalizing s with
  | ret a => rfl
  | halt e => rfl
  | op o k ih =>
    rw [op_bind, wp_op, wp_op]
    exact and_congr Iff.rfl (ih _)

theorem wp_mono (h : wp H J E x Q s) (hQ : ∀ a s, Q a s → Q' a s) : wp H J E x Q' s := by
  induction x generalizing s with
  | ret a => exact hQ a s h
  | halt e => exact h
  | op o k ih => exact ⟨h.1, ih _ h.2⟩

/-- What a run returns is in `Q`. -/
theorem wp.of_run {a : α} {t : σ} (h : wp H J E x Q s) (hrun : run H x s = .ok (a, t)) : Q a t := by
  induction x generalizing s with
  | ret b =>
    cases hrun
    exact h
  | halt e => cases hrun
  | op o k ih => exact ih _ h.2 hrun

/-- Specifications in sequence. -/
theorem wp.seq (h : wp H J E x Q s) (hf : ∀ a s, Q a s → wp H J E (f a) R s) :
    wp H J E (x >>= f) R s :=
  wp_bind.2 (wp_mono h hf)

/-- The invariant rule for `untilSome`: `L i` holds before round `i`. -/
theorem wp_untilSome {f : Nat → Prog I ε (Option α)} {Q : Option α → σ → Prop}
    (L : Nat → σ → Prop) {n i : Nat} (h : L i s)
    (hround : ∀ j s, i ≤ j → j < i + n → L j s →
      wp H J E (f j) (fun r s => (∀ a, r = some a → Q (some a) s) ∧ (r = none → L (j + 1) s)) s)
    (hend : ∀ s, L (i + n) s → Q none s) : wp H J E (untilSome f n i) Q s := by
  induction n generalizing i s with
  | zero => exact hend s h
  | succ n ih =>
    refine (hround i s (Nat.le_refl i) (by omega) h).seq ?_
    rintro (_ | a) s ⟨hfound, hgo⟩
    · refine ih (hgo rfl) (fun j s hle hlt => hround j s (by omega) (by omega)) ?_
      intro s hs
      exact hend s (by rwa [Nat.add_comm n 1, ← Nat.add_assoc])
    · exact hfound a rfl

end Wp

end Prog

end Xv6Schedulers.Lib
