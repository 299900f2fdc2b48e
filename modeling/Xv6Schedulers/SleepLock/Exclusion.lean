import Xv6Schedulers.Lib.Spin
import Xv6Schedulers.SleepLock.Model

/-!
# Exclusion — who holds a sleep-lock and who waits for it

* `State.Owns`: from the assignment `lk->locked = 1` to the assignment `lk->locked = 0` a process owns
  the lock, and `lk->pid` is its pid.
* A process sleeps, or is about to, only while the lock is owned or a `wakeup` has it still before it;
  `wakeup` holds `lk->lk`, so with that free nobody is stranded.
* `Inv` collects this, `Inv.step` is its step lemma.
-/

namespace Xv6Schedulers.SleepLock

open Lib Function
open Kernel (ProcState)

/-! ## What the place of a process says -/

/-- The process holds `lk->lk`. -/
def Pc.holdsLk : Pc → Bool
  | .test | .took | .lockSelf | .unlock | .clear | .wakeup _ | .wake _ | .released | .look
  | .answer _ => true
  | _ => false

/-- The process holds its own `p->lock`, taken in `sleep` or by the scheduler. -/
def Pc.holdsOwn : Pc → Bool
  | .unlock | .fall | .switch | .back | .unlockSelf => true
  | _ => false

/-- The process whose lock `wakeup` or `kill` holds. -/
def Pc.visits : Pc → Option Nat
  | .wake j | .killing _ j => some j
  | _ => none

/-- The lock is taken and not yet returned, or is to be given up. -/
def Pc.owns : Pc → Bool
  | .took | .release | .clear => true
  | _ => false

/-- The next process that a `wakeup` looks at. -/
def Pc.pending : Pc → Option Nat
  | .wakeup j | .wake j => some j
  | _ => none

/-- Process `p` at `v` holds the lock of process `q`. -/
def Pc.grips {n : Nat} (v : Pc) (p q : Fin n) : Prop :=
  (q = p ∧ v.holdsOwn = true) ∨ v.visits = some q.val

variable {n : Nat} {pids : Fin n → Int32} {s t : State n} {p q : Fin n}

def State.Owns (s : State n) (p : Fin n) : Prop := s.inside p = true ∨ (s.pc p).owns = true

/-! ## What one step does to each part of the state -/

section Rouse

variable (s : State n) (q : Fin n) (b : Bool)

theorem rouse_frame {β : Type} (get : State n → β) (h : ∀ v, get (s.setState q v) = get s) :
    get (s.rouse q b) = get s := by
  unfold State.rouse
  split
  · exact h _
  · rfl

@[simp] theorem rouse_lk : (s.rouse q b).lk = s.lk := rouse_frame s q b State.lk fun _ => rfl

@[simp] theorem rouse_plock : (s.rouse q b).plock = s.plock :=
  rouse_frame s q b State.plock fun _ => rfl

@[simp] theorem rouse_locked : (s.rouse q b).locked = s.locked :=
  rouse_frame s q b State.locked fun _ => rfl

@[simp] theorem rouse_owner : (s.rouse q b).owner = s.owner :=
  rouse_frame s q b State.owner fun _ => rfl

@[simp] theorem rouse_pc : (s.rouse q b).pc = s.pc := rouse_frame s q b State.pc fun _ => rfl

@[simp] theorem rouse_inside : (s.rouse q b).inside = s.inside :=
  rouse_frame s q b State.inside fun _ => rfl

@[simp] theorem rouse_chan : (s.rouse q b).chan = s.chan :=
  rouse_frame s q b State.chan fun _ => rfl

theorem rouse_sleeping {s : State n} {q : Fin n} {b : Bool} {r : Fin n}
    (h : (s.rouse q b).state r = .sleeping) :
    s.state r = .sleeping ∧ (r = q → b = false) := by
  unfold State.rouse at h
  split at h
  · by_cases hr : r = q
    · subst hr
      simp at h
    · rw [State.setState_state, update_of_ne hr] at h
      exact ⟨h, fun heq => absurd heq hr⟩
  · rename_i hcond
    refine ⟨h, fun heq => ?_⟩
    subst heq
    cases b with
    | false => rfl
    | true => exact absurd ⟨h, rfl⟩ hcond

end Rouse

attribute [local simp] Pc.grips Pc.visits Pc.holdsOwn Pc.pending

namespace Step

variable (h : Step pids s p t)
include h

theorem pc_other (hq : q ≠ p) : t.pc q = s.pc q := by
  cases h <;> simp [hq]

theorem inside_other (hq : q ≠ p) : t.inside q = s.inside q := by
  cases h <;> simp [hq]

theorem chan_other (hq : q ≠ p) : t.chan q = s.chan q := by
  cases h <;> simp [hq, State.setKilled]

theorem owns_other (hq : q ≠ p) : t.Owns q ↔ s.Owns q := by
  rw [State.Owns, State.Owns, h.pc_other hq, h.inside_other hq]

theorem lk : (t.lk = s.lk ∧ ((t.pc p).holdsLk = true ↔ (s.pc p).holdsLk = true)) ∨
      (s.lk = none ∧ t.lk = some p ∧ (t.pc p).holdsLk = true) ∨
      ((s.pc p).holdsLk = true ∧ t.lk = none ∧ ¬ (t.pc p).holdsLk = true) := by
  cases h with
  | call hpc hv => rcases hv with rfl | rfl | ⟨pid, rfl⟩ <;> simp [hpc, Pc.holdsLk]
  | enter hpc hlk hw =>
    rcases hw with ⟨rfl, rfl⟩ | ⟨rfl, rfl⟩ | ⟨rfl, rfl⟩ <;> simp [hlk, Pc.holdsLk]
  | leave hpc => rcases hpc with hpc | ⟨r, hpc⟩ <;> simp [hpc, Pc.holdsLk]
  | _ => simp_all [Pc.holdsLk]

theorem plock (q : Fin n) : (t.plock q = s.plock q ∧ ((t.pc p).grips p q ↔ (s.pc p).grips p q)) ∨
      (s.plock q = none ∧ t.plock q = some p ∧ (t.pc p).grips p q) ∨
      ((s.pc p).grips p q ∧ t.plock q = none ∧ ¬ (t.pc p).grips p q) := by
  have hne : ∀ {r : Fin n}, q ≠ r → ¬ r.val = q.val := fun hq heq => hq (Fin.ext heq.symm)
  cases h with
  | call hpc hv =>
    rcases hv with rfl | rfl | ⟨pid, rfl⟩ <;> simp [hpc]
  | enter hpc hlk hw =>
    rcases hw with ⟨rfl, rfl⟩ | ⟨rfl, rfl⟩ | ⟨rfl, rfl⟩ <;> simp [hpc]
  | leave hpc =>
    rcases hpc with hpc | ⟨r, hpc⟩ <;> simp [hpc]
  | lockSelf hpc hfree | resume hpc hfree =>
    by_cases hq : q = p
    · subst hq
      exact Or.inr (Or.inl ⟨hfree, by simp, by simp⟩)
    · exact Or.inl ⟨by simp [hq], by simp [hpc, hq]⟩
  | switch hpc | unlockSelf hpc =>
    by_cases hq : q = p
    · subst hq
      exact Or.inr (Or.inr ⟨by simp [hpc], by simp, by simp⟩)
    · exact Or.inl ⟨by simp [hq], by simp [hpc, hq]⟩
  | @visit r hpc hrp hfree | @killVisit pid r hpc hfree =>
    by_cases hq : q = r
    · subst hq
      exact Or.inr (Or.inl ⟨hfree, by simp, by simp⟩)
    · exact Or.inl ⟨by simp [hq], by simp [hpc, hne hq]⟩
  | @wake r hpc | @killHit r hpc | @killMiss pid r hpc =>
    by_cases hq : q = r
    · subst hq
      exact Or.inr (Or.inr ⟨by simp [hpc], by simp, by simp⟩)
    · exact Or.inl ⟨by simp [hq], by simp [hpc, hne hq]⟩
  | _ => simp_all

theorem locked : (t.locked = s.locked ∧ t.owner = s.owner ∧ (t.Owns p ↔ s.Owns p)) ∨
      (s.pc p = .test ∧ s.locked = false ∧ t.locked = true ∧ t.owner = pids p ∧ t.Owns p) ∨
      (s.pc p = .clear ∧ t.locked = false ∧ t.pc p = .wakeup 0 ∧ t.inside p = s.inside p) := by
  cases h with
  | call hpc hv =>
    rcases hv with rfl | rfl | ⟨pid, rfl⟩ <;> simp [hpc, State.Owns, Pc.owns]
  | enter hpc hlk hw =>
    rcases hw with ⟨rfl, rfl⟩ | ⟨rfl, rfl⟩ | ⟨rfl, rfl⟩ <;> simp [hpc, State.Owns, Pc.owns]
  | leave hpc =>
    rcases hpc with hpc | ⟨r, hpc⟩ <;> simp [hpc, State.Owns, Pc.owns]
  | take hpc hlocked => exact Or.inr (Or.inl ⟨hpc, hlocked, rfl, rfl, by simp [State.Owns, Pc.owns]⟩)
  | clear hpc => exact Or.inr (Or.inr ⟨hpc, rfl, by simp, rfl⟩)
  | _ => simp_all [State.Owns, Pc.owns]

/-- Who has fallen asleep, or is about to, was so before, or has just given up `lk->lk`. -/
theorem dozing (hq : t.pc q = .fall ∨ t.state q = .sleeping) :
    s.pc q = .fall ∨ s.state q = .sleeping ∨ (q = p ∧ s.pc p = .unlock) := by
  by_cases hqp : q = p
  · subst hqp
    cases h with
    | call hpc hv => rcases hv with rfl | rfl | ⟨pid, rfl⟩ <;> simp_all
    | enter hpc hlk hw => rcases hw with ⟨rfl, rfl⟩ | ⟨rfl, rfl⟩ | ⟨rfl, rfl⟩ <;> simp_all
    | wake hpc | killHit hpc =>
      rcases hq with hq | hq
      · simp at hq
      · exact Or.inr (Or.inl (rouse_sleeping hq).1)
    | _ => simp_all
  · rw [h.pc_other hqp] at hq
    rcases hq with hq | hq
    · exact Or.inl hq
    · cases h with
      | wake hpc | killHit hpc => exact Or.inr (Or.inl (rouse_sleeping hq).1)
      | _ => simp_all

/-- How far a `wakeup` has come: it passes its own process, or the one that it has woken up. -/
theorem pending {j : Nat} (hj : (s.pc p).pending = some j) : (t.pc p).pending = some j ∨ n ≤ j ∨
      ((t.pc p).pending = some (j + 1) ∧ (j = p.val ∨
        s.pc p = .wake j ∧ ∀ r : Fin n, r.val = j → t.state r = .sleeping → s.chan r = false)) := by
  cases h with
  | call hpc hv => simp [hpc] at hj
  | enter hpc hlk hw =>
    rcases hw with ⟨rfl, rfl⟩ | ⟨rfl, rfl⟩ | ⟨rfl, rfl⟩ <;> simp [hpc] at hj
  | leave hpc => rcases hpc with hpc | ⟨r, hpc⟩ <;> simp [hpc] at hj
  | visit hpc hne hfree =>
    rw [hpc] at hj
    cases hj
    exact Or.inl (by simp)
  | skip hpc =>
    rw [hpc] at hj
    cases hj
    exact Or.inr (Or.inr ⟨by simp, Or.inl rfl⟩)
  | @wake r hpc =>
    rw [hpc] at hj
    cases hj
    refine Or.inr (Or.inr ⟨by simp, Or.inr ⟨hpc, fun r' hr hsleep => ?_⟩⟩)
    have heq : r' = r := Fin.ext hr
    subst heq
    exact (rouse_sleeping hsleep).2 rfl
  | woken hpc hn =>
    rw [hpc] at hj
    cases hj
    exact Or.inr (Or.inl hn)
  | _ => simp_all

end Step

/-! ## The invariant -/

/-- The lock is owned, or a `wakeup` has process `p` before it. -/
def Guarded (s : State n) (p : Fin n) : Prop :=
  s.locked = true ∨ ∃ q j, (s.pc q).pending = some j ∧ j ≤ p.val

structure Inv (pids : Fin n → Int32) (s : State n) : Prop where
  lk : Held s.lk fun p => (s.pc p).holdsLk = true
  plock : ∀ q, Held (s.plock q) fun p => (s.pc p).grips p q
  owner : ∀ p, s.Owns p → s.locked = true ∧ s.owner = pids p
  owned : s.locked = true → ∃ p, s.Owns p
  /-- who has called `releasesleep` is outside -/
  left : ∀ p, s.pc p = .release ∨ s.pc p = .clear → s.inside p = false
  fallen : ∀ p, s.pc p = .lockSelf ∨ s.pc p = .unlock → s.locked = true
  sleeping : ∀ p, s.state p = .sleeping → (s.pc p = .switch ∨ s.pc p = .away) ∧ s.chan p = true
  dozing : ∀ p, s.pc p = .fall ∨ s.state p = .sleeping → Guarded s p
  answer : ∀ p r, s.pc p = .answer r → r = s.inside p

namespace Inv

theorem boot (pids : Fin n → Int32) : Inv pids (.boot n) where
  lk _ := iff_of_false nofun nofun
  plock _ _ := iff_of_false nofun (by simp [State.boot])
  owner _ h := by simp [State.Owns, State.boot, Pc.owns] at h
  owned := nofun
  left _ h := by simp [State.boot] at h
  fallen _ h := by simp [State.boot] at h
  sleeping _ h := by simp [State.boot] at h
  dozing _ h := by simp [State.boot] at h
  answer _ _ h := by simp [State.boot] at h

theorem owner_unique (h : Inv pids s) (hinj : Injective pids) (hp : s.Owns p)
    (hq : s.Owns q) : p = q :=
  hinj ((h.owner p hp).2.symm.trans (h.owner q hq).2)

variable (h : Inv pids s) (hstep : Step pids s p t)
include h hstep

theorem owner_step (hinj : Injective pids)
    (hq : t.Owns q) : t.locked = true ∧ t.owner = pids q := by
  by_cases hqp : q = p
  · subst hqp
    rcases hstep.locked with ⟨hl, ho, howns⟩ | ⟨-, -, hl, ho, -⟩ | ⟨hpc, -, hnew, hin⟩
    · rw [hl, ho]
      exact h.owner q (howns.1 hq)
    · exact ⟨hl, ho⟩
    · -- after `lk->locked = 0` the process owns nothing
      rcases hq with hq | hq
      · rw [hin, h.left q (Or.inr hpc)] at hq
        cases hq
      · rw [hnew] at hq
        cases hq
  · have hold := (hstep.owns_other hqp).1 hq
    rcases hstep.locked with ⟨hl, ho, -⟩ | ⟨-, hfree, -⟩ | ⟨hpc, -⟩
    · rw [hl, ho]
      exact h.owner q hold
    · rw [(h.owner q hold).1] at hfree
      cases hfree
    · have hp : s.Owns p := Or.inr (by rw [hpc]; rfl)
      exact absurd (h.owner_unique hinj hold hp) hqp

theorem owned_step (hl : t.locked = true) : ∃ q, t.Owns q := by
  rcases hstep.locked with ⟨hsame, -, howns⟩ | ⟨-, -, -, -, howns⟩ | ⟨-, hfree, -⟩
  · rcases h.owned (hsame ▸ hl) with ⟨q, hq⟩
    by_cases hqp : q = p
    · subst hqp
      exact ⟨q, howns.2 hq⟩
    · exact ⟨q, (hstep.owns_other hqp).2 hq⟩
  · exact ⟨p, howns⟩
  · rw [hl] at hfree
    cases hfree

theorem left_step (hq : t.pc q = .release ∨ t.pc q = .clear) : t.inside q = false:= by
  by_cases hqp : q = p
  · subst hqp
    have hleft := h.left q
    cases hstep with
    | call hpc hv => rcases hv with rfl | rfl | ⟨pid, rfl⟩ <;> simp_all
    | enter hpc hlk hw => rcases hw with ⟨rfl, rfl⟩ | ⟨rfl, rfl⟩ | ⟨rfl, rfl⟩ <;> simp_all
    | _ => simp_all
  · rw [hstep.pc_other hqp] at hq
    rw [hstep.inside_other hqp]
    exact h.left q hq

theorem fallen_step (hq : t.pc q = .lockSelf ∨ t.pc q = .unlock) : t.locked = true:= by
  by_cases hqp : q = p
  · subst hqp
    have hfallen := h.fallen q
    cases hstep with
    | call hpc hv => rcases hv with rfl | rfl | ⟨pid, rfl⟩ <;> simp_all
    | enter hpc hlk hw => rcases hw with ⟨rfl, rfl⟩ | ⟨rfl, rfl⟩ | ⟨rfl, rfl⟩ <;> simp_all
    | _ => simp_all
  · rw [hstep.pc_other hqp] at hq
    have hholds : (s.pc q).holdsLk = true := by
      rcases hq with hq | hq
      · rw [hq]
        rfl
      · rw [hq]
        rfl
    rcases hstep.locked with ⟨hl, -⟩ | ⟨-, -, hl, -⟩ | ⟨hpc, -⟩
    · rw [hl]
      exact h.fallen q hq
    · exact hl
    · exact absurd (h.lk.unique hholds (by rw [hpc]; rfl)) hqp

theorem sleeping_step (hq : t.state q = .sleeping) :
    (t.pc q = .switch ∨ t.pc q = .away) ∧ t.chan q = true := by
  by_cases hqp : q = p
  · subst hqp
    have hsleep := h.sleeping q
    cases hstep with
    | call hpc hv => rcases hv with rfl | rfl | ⟨pid, rfl⟩ <;> simp_all
    | enter hpc hlk hw => rcases hw with ⟨rfl, rfl⟩ | ⟨rfl, rfl⟩ | ⟨rfl, rfl⟩ <;> simp_all
    | leave hpc => rcases hpc with hpc | ⟨r, hpc⟩ <;> simp_all
    | wake hpc | killHit hpc =>
      have hpcs := (hsleep (rouse_sleeping hq).1).1
      simp [hpc] at hpcs
    | _ => simp_all
  · rw [hstep.pc_other hqp, hstep.chan_other hqp]
    apply h.sleeping q
    cases hstep with
    | wake hpc | killHit hpc => exact (rouse_sleeping hq).1
    | _ => simp_all

theorem pending_step {j : Nat}
    (hq : t.pc q = .fall ∨ t.state q = .sleeping) (hj : (s.pc p).pending = some j)
    (hle : j ≤ q.val) : ∃ j', (t.pc p).pending = some j' ∧ j' ≤ q.val := by
  have hqp : ∀ {i}, (t.pc p).pending = some i → q ≠ p := by
    rintro i hi rfl
    rcases hq with hq | hq
    · simp [hq] at hi
    · rcases (h.sleeping_step hstep hq).1 with hpc | hpc <;> simp [hpc] at hi
  rcases hstep.pending hj with hsame | hend | ⟨hnext, hpast⟩
  · exact ⟨j, hsame, hle⟩
  · exact absurd (Nat.lt_of_lt_of_le q.isLt hend) (Nat.not_lt.2 hle)
  · refine ⟨j + 1, hnext, Nat.lt_of_le_of_ne hle fun heq => ?_⟩
    have hne := hqp hnext
    rcases hpast with hself | ⟨hpc, hwoken⟩
    · exact hne (Fin.ext (heq.symm.trans hself))
    · rcases hq with hq | hq
      · -- the lock of a process that is about to sleep is its own
        rw [hstep.pc_other hne] at hq
        have hown : (s.pc q).grips q q := Or.inl ⟨rfl, by rw [hq]; rfl⟩
        have hvisit : (s.pc p).grips p q := Or.inr (by rw [hpc, heq]; rfl)
        exact hne ((h.plock q).unique hown hvisit)
      · have hchan := (h.sleeping_step hstep hq).2
        rw [hstep.chan_other hne, hwoken q heq.symm hq] at hchan
        cases hchan

theorem dozing_step (hq : t.pc q = .fall ∨ t.state q = .sleeping) : Guarded t q:= by
  have hguard : s.locked = true ∨ ∃ r j, (s.pc r).pending = some j ∧ j ≤ q.val := by
    rcases hstep.dozing hq with hold | hold | ⟨rfl, hpc⟩
    · exact h.dozing q (Or.inl hold)
    · exact h.dozing q (Or.inr hold)
    · exact Or.inl (h.fallen q (Or.inr hpc))
  rcases hguard with hl | ⟨r, j, hj, hle⟩
  · rcases hstep.locked with ⟨hsame, -⟩ | ⟨-, -, hnew, -⟩ | ⟨-, -, hpc, -⟩
    · exact Or.inl (hsame.trans hl)
    · exact Or.inl hnew
    · exact Or.inr ⟨p, 0, by rw [hpc]; rfl, Nat.zero_le _⟩
  · by_cases hrp : r = p
    · subst hrp
      exact Or.inr ⟨r, h.pending_step hstep hq hj hle⟩
    · exact Or.inr ⟨r, j, by rw [hstep.pc_other hrp]; exact hj, hle⟩

theorem answer_step (hinj : Injective pids)
    {r : Bool} (hq : t.pc q = .answer r) : r = t.inside q := by
  by_cases hqp : q = p
  · subst hqp
    cases hstep with
    | call hpc hv => rcases hv with rfl | rfl | ⟨pid, rfl⟩ <;> simp at hq
    | enter hpc hlk hw => rcases hw with ⟨rfl, rfl⟩ | ⟨rfl, rfl⟩ | ⟨rfl, rfl⟩ <;> simp at hq
    | look hpc =>
      rw [State.goto_pc, update_self] at hq
      cases hq
      show (s.locked && s.owner == pids q) = s.inside q
      cases hin : s.inside q with
      | true =>
        rcases h.owner q (Or.inl hin) with ⟨hl, ho⟩
        simp [hl, ho]
      | false =>
        -- the owner is another process, and it has another pid
        rw [Bool.eq_false_iff]
        intro hr
        rw [Bool.and_eq_true, beq_iff_eq] at hr
        rcases h.owned hr.1 with ⟨o, ho⟩
        have heq : o = q := hinj ((h.owner o ho).2.symm.trans hr.2)
        subst heq
        rcases ho with ho | ho
        · rw [hin] at ho
          cases ho
        · rw [hpc] at ho
          cases ho
    | _ => simp at hq
  · rw [hstep.pc_other hqp] at hq
    rw [hstep.inside_other hqp]
    exact h.answer q r hq

/-- Every step keeps the invariant. -/
theorem step (hinj : Injective pids) : Inv pids t where
  lk := h.lk.step (fun q hq => by rw [hstep.pc_other hq]) hstep.lk
  plock q := (h.plock q).step (fun r hr => by rw [hstep.pc_other hr]) (hstep.plock q)
  owner _ := h.owner_step hstep hinj
  owned := h.owned_step hstep
  left _ := h.left_step hstep
  fallen _ := h.fallen_step hstep
  sleeping _ := h.sleeping_step hstep
  dozing _ := h.dozing_step hstep
  answer _ _ := h.answer_step hstep hinj

end Inv

/-! ## Every run -/

/-- In every run of processes with different pids at most one is between returning from
`acquiresleep` and calling `releasesleep`, `holdingsleep` answers `true` to this one only, and with
`lk->lk` free nobody sleeps on a lock that is not taken. -/
theorem sleeplock_exclusion (hinj : Injective pids)
    (h : (machine pids).Reaches (.boot n) s) :
    (∀ p q, s.inside p = true → s.inside q = true → p = q) ∧
      (∀ p r, s.pc p = .answer r → (r = true ↔ s.inside p = true)) ∧
      (s.lk = none → ∀ p, s.state p = .sleeping → s.chan p = true → s.locked = true) := by
  have hinv : Inv pids s :=
    h.invariant (Inv.boot pids) fun t a u hI hs => hI.step (step_cases hs) hinj
  refine ⟨fun p q hp hq => hinv.owner_unique hinj (Or.inl hp) (Or.inl hq), ?_, ?_⟩
  · intro p r hr
    rw [hinv.answer p r hr]
  · intro hfree p hsleep _
    rcases hinv.dozing p (Or.inr hsleep) with hl | ⟨q, j, hj, -⟩
    · exact hl
    · refine absurd ?_ (hinv.lk.free hfree q)
      cases hpc : s.pc q <;> simp_all [Pc.holdsLk]

/-- Process 0 takes the lock, and process 1 goes to sleep on it. -/
def waiting : List (Fin 2 × Act) :=
  [(0, .acquiresleep), (0, .run), (0, .run), (0, .run), (1, .acquiresleep), (1, .run), (1, .run),
    (1, .run), (1, .run), (1, .run), (1, .run)]

theorem sleeplock_exclusion_waiting :
    ∃ s : State 2, (machine fun p => if p = 0 then 1 else 2).Reaches (.boot 2) s ∧ s.lk = none ∧
      s.state 1 = .sleeping ∧ s.locked = true ∧ s.inside 0 = true ∧
      ∀ q, s.inside q = true → q = 0 := by
  have hrun : ((machine fun p => if p = 0 then 1 else 2).exec (.boot 2) waiting).any
      (fun s => decide (s.lk = none ∧ s.state 1 = .sleeping ∧ s.chan 1 = true ∧ s.inside 0 = true))
      = true := by
    decide +kernel
  have hinj : Injective fun p : Fin 2 => if p = 0 then (1 : Int32) else 2 := by
    intro p q
    revert p q
    decide +kernel
  rcases (Option.any_eq_true _ _).1 hrun with ⟨s, hs, htest⟩
  rcases of_decide_eq_true htest with ⟨hlk, hsleep, hchan, hin⟩
  have hreach := Machine.reaches_of_exec hs
  rcases sleeplock_exclusion hinj hreach with ⟨hone, -, hlocked⟩
  exact ⟨s, hreach, hlk, hsleep, hlocked hlk 1 hsleep hchan, hin, fun q hq => hone q 0 hq hin⟩

end Xv6Schedulers.SleepLock
