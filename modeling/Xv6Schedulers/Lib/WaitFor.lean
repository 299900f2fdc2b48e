import Mathlib.Logic.Relation
import Mathlib.Order.Nat

/-!
# WaitFor — ranked locks exclude cyclic waiting

Agents wait for locks and locks are held by agents.  If the locks are ranked, and an agent only
waits for a lock above every lock it holds, then along the wait-for relation the rank of the lock
waited for strictly increases:

* `WaitFor.rank_lt` — one edge followed by another climbs;
* `WaitFor.acyclic` — no agent waits, through any number of others, for itself.
-/

namespace Xv6Schedulers.Lib

universe u v w

/-- `a` waits for a lock that `b` holds. -/
def WaitFor {α : Type u} {κ : Type v} (waits : α → Option κ) (holder : κ → Option α) (a b : α) :
    Prop :=
  ∃ l, waits a = some l ∧ holder l = some b

namespace WaitFor

variable {α : Type u} {κ : Type v} {ρ : Type w} [Preorder ρ]
  {waits : α → Option κ} {holder : κ → Option α} {rank : κ → ρ}

/-- An agent waits only for a lock above all locks it holds. -/
def Ranked (waits : α → Option κ) (holder : κ → Option α) (rank : κ → ρ) : Prop :=
  ∀ a l k, waits a = some l → holder k = some a → rank k < rank l

theorem rank_lt {a b : α} {l k : κ} :
    Ranked waits holder rank → waits a = some l → holder l = some b → waits b = some k →
      rank l < rank k := by
  intro hr _ hl hb
  exact hr b k l hb hl

/-- Along a chain of waiting agents the rank of the lock waited for increases. -/
theorem rank_lt_of_transGen {a b : α} (hr : Ranked waits holder rank)
    (h : Relation.TransGen (WaitFor waits holder) a b) :
    ∀ l k, waits a = some l → waits b = some k → rank l < rank k := by
  induction h with
  | single hab =>
    intro l k ha hb
    rcases hab with ⟨l', ha', hl'⟩
    have hll : l' = l := Option.some.inj (ha'.symm.trans ha)
    subst hll
    exact rank_lt hr ha hl' hb
  | tail _ hbc ih =>
    intro l k ha hc
    rcases hbc with ⟨m, hb, hm⟩
    calc
      rank l < rank m := ih l m ha hb
      _ < rank k := rank_lt hr hb hm hc

/-- Ranked waiting has no cycle. -/
theorem acyclic (hr : Ranked waits holder rank) (a : α) :
    ¬ Relation.TransGen (WaitFor waits holder) a a := by
  intro h
  have hwaits : ∃ l, waits a = some l := by
    rcases Relation.TransGen.head'_iff.1 h with ⟨b, ⟨l, hl, -⟩, -⟩
    exact ⟨l, hl⟩
  rcases hwaits with ⟨l, hl⟩
  exact lt_irrefl _ (rank_lt_of_transGen hr h l l hl hl)

end WaitFor

end Xv6Schedulers.Lib
