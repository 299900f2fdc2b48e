import Mathlib.Data.Finset.Card
import Mathlib.Data.Finset.Option
import Xv6Schedulers.Kernel.Move

/-!
# Selection — one scan of `scheduler_stride` on a table that stays

The loop over `proc[]` keeps the lock of its candidate and takes one lock more for each slot it looks
at.  Here it runs on hart `c` while the other harts may move but leave the table alone.

* `Champion tab k best`: among the slots below `k`, `best` has the smallest `pass` and, among equal
  ones, the largest `pid`.
* `ScanRun c s ops t`: the loop has come from `s` to `t`, and `ops` are its lock operations; `replay`
  runs them over a set of locks and fails when a lock is taken twice or given up while not held.
* `Phase` lists the control points of the loop with the locks held there.
-/

namespace Xv6Schedulers.Sched

open Kernel Function

/-! ## The order of the candidates -/

theorem better_trans {p q r : Proc} (h₁ : Better p q) (h₂ : Better q r) : Better p r := by
  simp only [Better, gt_iff_lt, Int32.lt_iff_toInt_lt, ← Int32.toInt_inj] at *
  omega

theorem better_of_not_better {p q : Proc} (hpid : p.pid ≠ q.pid) (h : ¬ Better p q) :
    Better q p := by
  simp only [Better, gt_iff_lt, Int32.lt_iff_toInt_lt, ne_eq, ← Int32.toInt_inj] at *
  omega

/-- `best` is the first of the `RUNNABLE` processes in the slots that `P` names. -/
def Chosen (tab : Slot → Proc) (P : Slot → Prop) : Option Slot → Prop
  | none => ∀ i, P i → (tab i).state ≠ .runnable
  | some b => P b ∧ (tab b).state = .runnable ∧
      ∀ i, P i → (tab i).state = .runnable → i ≠ b → Better (tab b) (tab i)

/-- The first among the slots below `k`. -/
def Champion (tab : Slot → Proc) (k : Nat) (best : Option Slot) : Prop :=
  Chosen tab (fun i => i.val < k) best

/-- The pids of the `RUNNABLE` processes differ. -/
def DistinctPids (tab : Slot → Proc) : Prop :=
  ∀ i j, (tab i).state = .runnable → (tab j).state = .runnable → (tab i).pid = (tab j).pid → i = j

namespace Champion

variable {tab : Slot → Proc} {k b : Slot} {best : Option Slot}

theorem lt_succ {i : Slot} (hi : i.val < k.val + 1) (hne : i ≠ k) : i.val < k.val := by
  have hval : i.val ≠ k.val := fun heq => hne (Fin.ext heq)
  omega

theorem zero (tab : Slot → Proc) : Champion tab 0 none := fun _ hi => absurd hi (Nat.not_lt_zero _)

theorem skip (h : Champion tab k.val best) (hstate : (tab k).state ≠ .runnable) :
    Champion tab (k.val + 1) best := by
  cases best with
  | none =>
    intro i hi
    by_cases hik : i = k
    · rw [hik]
      exact hstate
    · exact h i (lt_succ hi hik)
  | some b =>
    rcases h with ⟨hb, hrun, hall⟩
    refine ⟨Nat.lt_succ_of_lt hb, hrun, fun i hi hi' hne => hall i ?_ hi' hne⟩
    apply lt_succ hi
    rintro rfl
    exact hstate hi'

theorem first (h : Champion tab k.val none) (hstate : (tab k).state = .runnable) :
    Champion tab (k.val + 1) (some k) := by
  refine ⟨Nat.lt_succ_self _, hstate, fun i hi hi' hne => ?_⟩
  exact absurd hi' (h i (lt_succ hi hne))

theorem better (h : Champion tab k.val (some b)) (hstate : (tab k).state = .runnable)
    (hb : Better (tab k) (tab b)) : Champion tab (k.val + 1) (some k) := by
  rcases h with ⟨-, -, hall⟩
  refine ⟨Nat.lt_succ_self _, hstate, fun i hi hi' hne => ?_⟩
  by_cases hib : i = b
  · rw [hib]
    exact hb
  · exact better_trans hb (hall i (lt_succ hi hne) hi' hib)

theorem worse (h : Champion tab k.val (some b)) (hpids : DistinctPids tab)
    (hstate : (tab k).state = .runnable) (hb : ¬ Better (tab k) (tab b)) :
    Champion tab (k.val + 1) (some b) := by
  rcases h with ⟨hlt, hrun, hall⟩
  refine ⟨Nat.lt_succ_of_lt hlt, hrun, fun i hi hi' hne => ?_⟩
  by_cases hik : i = k
  · subst hik
    exact better_of_not_better (fun heq => hne (hpids i b hi' hrun heq)) hb
  · exact hall i (lt_succ hi hik) hi' hne

end Champion

/-! ## Lock operations -/

inductive LockOp
  | take (i : Slot)
  | give (i : Slot)
  deriving DecidableEq, Repr

/-- The locks held after some operations, if none of them takes a lock that is held or gives up one
that is not. -/
def replay : List LockOp → Finset Slot → Option (Finset Slot)
  | [], H => some H
  | .take i :: ops, H => if i ∈ H then none else replay ops (insert i H)
  | .give i :: ops, H => if i ∈ H then replay ops (H.erase i) else none

/-- The locks taken, in order. -/
def taken : List LockOp → List Slot
  | [] => []
  | .take i :: ops => i :: taken ops
  | .give _ :: ops => taken ops

theorem replay_append (ops ops' : List LockOp) (H : Finset Slot) :
    replay (ops ++ ops') H = (replay ops H).bind (replay ops') := by
  induction ops generalizing H with
  | nil => rfl
  | cons op ops ih =>
    cases op with
    | take i =>
      simp only [List.cons_append, replay]
      split
      · rfl
      · exact ih _
    | give i =>
      simp only [List.cons_append, replay]
      split
      · exact ih _
      · rfl

theorem taken_append (ops ops' : List LockOp) : taken (ops ++ ops') = taken ops ++ taken ops' := by
  induction ops with
  | nil => rfl
  | cons op ops ih =>
    cases op with
    | take i => exact congrArg (i :: ·) ih
    | give i => exact ih

/-! ## Runs of the loop -/

section Runs

variable {n : Nat} (c : Fin n)

/-- The lock operation that the next step of the scheduler of hart `c` completes. -/
def lockOp (t : State n) : List LockOp :=
  match t.stack (.hart c) with
  | .spin (.proc i) :: _ => [.take i]
  | .release (.proc i) :: _ => [.give i]
  | _ => []

/-- The loop over `proc[]` is over. -/
def ScanDone (t : State n) (best : Option Slot) : Prop :=
  ∃ k, t.stack (.hart c) = [.stride (.next k best)] ∧ NPROC ≤ k

/-- What the loop on hart `c` can see is the same in `u` as in `t`. -/
structure Undisturbed (t u : State n) : Prop where
  proc : u.proc = t.proc
  cpu : u.cpu c = t.cpu c
  cur : u.cur c = t.cur c
  stack : u.stack (.hart c) = t.stack (.hart c)
  holds : ∀ l, u.Holding c l ↔ t.Holding c l

/-- The loop on hart `c`, with steps of other harts that leave the table alone, and with interrupts
of hart `c` that are handled and leave things as they found them. -/
inductive ScanRun (s : State n) : List LockOp → State n → Prop
  | start : ScanRun s [] s
  | own {ops : List LockOp} {t u : State n} (hrun : ScanRun s ops t)
      (hloop : ∀ best, ¬ ScanDone c t best) (hstep : step t c .go = some u) :
      ScanRun s (ops ++ lockOp c t) u
  | other {ops : List LockOp} {t u : State n} {d : Fin n} {ch : Choice} (hrun : ScanRun s ops t)
      (hd : d ≠ c) (hstep : step t d ch = some u) (htable : u.proc = t.proc) : ScanRun s ops u
  | interrupt {ops : List LockOp} {t u : State n} (hrun : ScanRun s ops t)
      (hintr : (t.cpu c).intr = true) (hsame : Undisturbed c t u) : ScanRun s ops u

/-- The scheduler of hart `c` is about to scan, and it holds no lock of a process. -/
structure ScanStart (s : State n) : Prop where
  running : (s.cpu c).panicked = none
  cur : s.cur c = none
  stack : s.stack (.hart c) = [.stride (.next 0 none)]
  unlocked : ∀ i, ¬ s.Holding c (.proc i)

end Runs

/-! ## The invariant of the loop -/

/-- The control points of the loop: the locks `H` held there, the next slot `k` to be locked, and
whether `push_off` is ahead of the locks. -/
inductive Phase (tab : Slot → Proc) : Stack → Finset Slot → Nat → Nat → Prop
  | next {k : Nat} {best : Option Slot} (hb : Champion tab k best) :
      Phase tab [.stride (.next k best)] best.toFinset k 0
  | acquire {k : Slot} {best : Option Slot} (hb : Champion tab k.val best) :
      Phase tab [.acquire (.proc k), .stride (.scan k best)] best.toFinset k.val 0
  | spin {k : Slot} {best : Option Slot} (hb : Champion tab k.val best) :
      Phase tab [.spin (.proc k), .stride (.scan k best)] best.toFinset k.val 1
  | scan {k : Slot} {best : Option Slot} (hb : Champion tab k.val best) :
      Phase tab [.stride (.scan k best)] (insert k best.toFinset) (k.val + 1) 0
  | release {k : Nat} {i : Slot} {best : Option Slot} (hb : Champion tab k best)
      (hi : i ∉ best.toFinset) (hk : k ≤ NPROC) :
      Phase tab [.release (.proc i), .stride (.next k best)] (insert i best.toFinset) k 0

theorem Champion.lt_of_mem {tab : Slot → Proc} {k : Nat} {best : Option Slot} {i : Slot}
    (h : Champion tab k best) (hi : i ∈ best.toFinset) : i.val < k := by
  rw [Option.mem_toFinset] at hi
  rw [Option.mem_def.1 hi] at h
  exact h.1

theorem Phase.card_le {tab : Slot → Proc} {st : Stack} {H : Finset Slot} {k pend : Nat}
    (h : Phase tab st H k pend) : H.card ≤ 2 := by
  have hone : ∀ best : Option Slot, best.toFinset.card ≤ 1 := by
    intro best
    cases best with
    | none => exact Nat.zero_le 1
    | some b => exact Nat.le_refl 1
  cases h with
  | next => exact Nat.le_succ_of_le (hone _)
  | acquire => exact Nat.le_succ_of_le (hone _)
  | spin => exact Nat.le_succ_of_le (hone _)
  | scan => exact (Finset.card_insert_le _ _).trans (Nat.succ_le_succ (hone _))
  | release => exact (Finset.card_insert_le _ _).trans (Nat.succ_le_succ (hone _))

/-- What the loop has done so far. -/
structure ScanInv {n : Nat} (c : Fin n) (tab : Slot → Proc) (ops : List LockOp) (H : Finset Slot)
    (k pend : Nat) (t : State n) : Prop where
  running : (t.cpu c).panicked = none
  cur : t.cur c = none
  proc : t.proc = tab
  phase : Phase tab (t.stack (.hart c)) H k pend
  holds : ∀ i, t.Holding c (.proc i) ↔ i ∈ H
  noff : H.card + pend ≤ (t.cpu c).noff
  intr : 0 < H.card + pend → (t.cpu c).intr = false
  replays : replay ops ∅ = some H
  sorted : (taken ops).Pairwise (· < ·)
  below : ∀ i ∈ taken ops, i.val < k

/-- How far the loop is from its end. -/
def scanRank : Stack → Nat
  | [.stride (.next k _)] => 5 * (NPROC - k) + 4
  | [.acquire _, .stride (.scan k _)] => 5 * (NPROC - k.val) + 3
  | [.spin _, .stride (.scan k _)] => 5 * (NPROC - k.val) + 2
  | [.stride (.scan k _)] => 5 * (NPROC - k.val) + 1
  | [.release _, .stride (.next k _)] => 5 * (NPROC + 1 - k)
  | _ => 0

section Steps

variable {n : Nat} {c : Fin n} {tab : Slot → Proc} {ops : List LockOp} {H : Finset Slot}
  {k pend : Nat} {t u : State n} {i : Slot} {best : Option Slot}

theorem step_hart {f : Frame} {rest : Stack} (hrun : (t.cpu c).panicked = none)
    (hcur : t.cur c = none) (hst : t.stack (.hart c) = f :: rest) :
    step t c .go = frameStep t c f rest .go := by
  have hthread : t.thread c = .hart c := State.thread_of_cur_none hcur
  simp only [step, hrun, ne_eq, not_true_eq_false, if_false, hthread, hst]

theorem step_stride {pc : StridePc} {fs : Stack} (hrun : (t.cpu c).panicked = none)
    (hcur : t.cur c = none) (hst : t.stack (.hart c) = [.stride pc])
    (hcode : strideCode t pc .go = some (.jump fs)) :
    step t c .go = some (t.setStack (.hart c) fs) := by
  have hthread : t.thread c = .hart c := State.thread_of_cur_none hcur
  rw [step_hart hrun hcur hst]
  simp only [frameStep, codeStep, code, hcode, hthread, List.append_nil]
  rfl

theorem ScanInv.move (h : ScanInv c tab ops H k pend t) {st : Stack} {k' : Nat}
    (hphase : Phase tab st H k' pend) (hk : k ≤ k') :
    ScanInv c tab ops H k' pend (t.setStack (.hart c) st) where
  running := h.running
  cur := h.cur
  proc := h.proc
  phase := by
    rw [State.setStack_stack, update_self]
    exact hphase
  holds := h.holds
  noff := h.noff
  intr := h.intr
  replays := h.replays
  sorted := h.sorted
  below i hi := Nat.lt_of_lt_of_le (h.below i hi) hk

/-- What a step of the loop achieves. -/
def Advances (c : Fin n) (tab : Slot → Proc) (ops : List LockOp) (t u : State n) : Prop :=
  (∃ H k pend, ScanInv c tab (ops ++ lockOp c t) H k pend u) ∧
    scanRank (u.stack (.hart c)) < scanRank (t.stack (.hart c)) ∧
    ∀ i, u.locked (.proc i) = t.locked (.proc i) ∨ u.locked (.proc i) = none ∨
      u.locked (.proc i) = some c

theorem ScanInv.advances (h : ScanInv c tab ops H k pend t) {st : Stack} {k' : Nat}
    (hop : lockOp c t = []) (hphase : Phase tab st H k' pend) (hk : k ≤ k')
    (hrank : scanRank st < scanRank (t.stack (.hart c))) :
    Advances c tab ops t (t.setStack (.hart c) st) := by
  refine ⟨⟨H, k', pend, ?_⟩, ?_, fun i => Or.inl rfl⟩
  · rw [hop, List.append_nil]
    exact h.move hphase hk
  · rw [State.setStack_stack, update_self]
    exact hrank

theorem advance_next (h : ScanInv c tab ops best.toFinset k 0 t)
    (hst : t.stack (.hart c) = [.stride (.next k best)]) (hb : Champion tab k best)
    (hk : k < NPROC) : ∃ u, step t c .go = some u ∧ Advances c tab ops t u := by
  have hcode : strideCode t (.next k best) .go =
      some (.jump [.acquire (.proc ⟨k, hk⟩), .stride (.scan ⟨k, hk⟩ best)]) := by
    simp only [strideCode, hk, dif_pos]
  refine ⟨_, step_stride h.running h.cur hst hcode, h.advances ?_ (.acquire (k := ⟨k, hk⟩) hb)
    (Nat.le_refl k) ?_⟩
  · simp only [lockOp, hst]
  · rw [hst]
    simp only [scanRank]
    omega

theorem advance_acquire (h : ScanInv c tab ops best.toFinset i.val 0 t)
    (hst : t.stack (.hart c) = [.acquire (.proc i), .stride (.scan i best)])
    (hb : Champion tab i.val best) : ∃ u, step t c .go = some u ∧ Advances c tab ops t u := by
  have hthread : t.thread c = .hart c := State.thread_of_cur_none h.cur
  have hfree : ¬ t.Holding c (.proc i) := by
    rw [h.holds]
    exact fun hi => Nat.lt_irrefl _ (hb.lt_of_mem hi)
  have hstep : step t c .go = some ((t.setCpu c (t.cpu c).pushOff).setStack (.hart c)
      [.spin (.proc i), .stride (.scan i best)]) := by
    rw [step_hart h.running h.cur hst]
    simp only [frameStep, acquireStep, State.setCpu_thread, hthread]
    exact congrArg some (if_neg hfree)
  refine ⟨_, hstep, ⟨best.toFinset, i.val, 1, ?_⟩, ?_, fun _ => Or.inl rfl⟩
  · have hop : lockOp c t = [] := by simp only [lockOp, hst]
    rw [hop, List.append_nil]
    have hnoff := h.noff
    refine ⟨?_, h.cur, h.proc, ?_, h.holds, ?_, fun _ => ?_, h.replays, h.sorted, h.below⟩
    · simpa [Cpu.pushOff] using h.running
    · rw [State.setStack_stack, update_self]
      exact .spin hb
    · simp only [State.setStack_cpu, State.setCpu_cpu, update_self, Cpu.pushOff]
      omega
    · simp only [State.setStack_cpu, State.setCpu_cpu, update_self, Cpu.pushOff]
  · rw [hst, State.setStack_stack, update_self]
    exact Nat.lt_succ_self _

theorem advance_spin (h : ScanInv c tab ops best.toFinset i.val 1 t)
    (hst : t.stack (.hart c) = [.spin (.proc i), .stride (.scan i best)])
    (hb : Champion tab i.val best) (hfree : t.locked (.proc i) = none) :
    ∃ u, step t c .go = some u ∧ Advances c tab ops t u := by
  have hthread : t.thread c = .hart c := State.thread_of_cur_none h.cur
  have hout : i ∉ best.toFinset := fun hi => Nat.lt_irrefl _ (hb.lt_of_mem hi)
  have hstep : step t c .go = some ((t.setLocked (.proc i) (some c)).setStack (.hart c)
      [.stride (.scan i best)]) := by
    rw [step_hart h.running h.cur hst]
    simp only [frameStep, spinStep, hfree, if_true, hthread]
  refine ⟨_, hstep, ⟨insert i best.toFinset, i.val + 1, 0, ?_⟩, ?_, fun j => ?_⟩
  · have hop : lockOp c t = [.take i] := by simp only [lockOp, hst]
    have hcard := Finset.card_insert_of_notMem hout
    have hnoff := h.noff
    rw [hop]
    refine ⟨h.running, h.cur, h.proc, ?_, fun j => ?_, ?_, fun _ => h.intr (by omega), ?_, ?_, ?_⟩
    · rw [State.setStack_stack, update_self]
      exact .scan hb
    · rw [Finset.mem_insert, ← h.holds j]
      by_cases hj : j = i
      · subst hj
        simp [State.Holding]
      · have hne : (Lock.proc j) ≠ .proc i := fun heq => hj (Lock.proc.inj heq)
        simp [State.Holding, hj, hne]
    · show _ ≤ (t.cpu c).noff
      omega
    · rw [replay_append, h.replays]
      simp only [Option.bind_some, replay, if_neg hout]
    · rw [taken_append, List.pairwise_append]
      refine ⟨h.sorted, List.pairwise_singleton _ _, fun j hj x hx => ?_⟩
      rw [List.mem_singleton.1 hx]
      exact h.below j hj
    · intro j hj
      rw [taken_append, List.mem_append] at hj
      rcases hj with hj | hj
      · exact Nat.lt_succ_of_lt (h.below j hj)
      · rw [List.mem_singleton.1 hj]
        exact Nat.lt_succ_self _
  · rw [hst, State.setStack_stack, update_self]
    exact Nat.lt_succ_self _
  · by_cases hj : j = i
    · subst hj
      exact Or.inr (Or.inr (by simp))
    · have hne : (Lock.proc j) ≠ .proc i := fun heq => hj (Lock.proc.inj heq)
      exact Or.inl (by simp [hne])

theorem advance_scan (hpids : DistinctPids tab)
    (h : ScanInv c tab ops (insert i best.toFinset) (i.val + 1) 0 t)
    (hst : t.stack (.hart c) = [.stride (.scan i best)]) (hb : Champion tab i.val best) :
    ∃ u, step t c .go = some u ∧ Advances c tab ops t u := by
  have hop : lockOp c t = [] := by simp only [lockOp, hst]
  have hout : i ∉ best.toFinset := fun hi => Nat.lt_irrefl _ (hb.lt_of_mem hi)
  have hlt := i.isLt
  have hproc := h.proc
  -- each branch of the body leads to a control point with the same locks
  have hgo : ∀ fs, strideCode t (.scan i best) .go = some (.jump fs) →
      Phase tab fs (insert i best.toFinset) (i.val + 1) 0 →
      scanRank fs < 5 * (NPROC - i.val) + 1 →
      ∃ u, step t c .go = some u ∧ Advances c tab ops t u := by
    intro fs hcode hphase hrank
    refine ⟨_, step_stride h.running h.cur hst hcode, h.advances hop hphase (Nat.le_refl _) ?_⟩
    rw [hst]
    exact hrank
  by_cases hstate : (tab i).state = .runnable
  · cases best with
    | none =>
      refine hgo [.stride (.next (i.val + 1) (some i))] ?_ ?_ ?_
      · simp only [strideCode, hproc, hstate, if_true]
      · exact .next (hb.first hstate)
      · simp only [scanRank]
        omega
    | some b =>
      by_cases hbetter : Better (tab i) (tab b)
      · refine hgo [.release (.proc b), .stride (.next (i.val + 1) (some i))] ?_ ?_ ?_
        · simp only [strideCode, hproc, hstate, if_true, hbetter]
        · have hpair : insert i (some b).toFinset = insert b (some i).toFinset :=
            Finset.pair_comm i b
          rw [hpair]
          refine .release (hb.better hstate hbetter) (fun hmem => hout ?_) hlt
          rw [Option.mem_toFinset, Option.mem_def, Option.some.injEq] at hmem ⊢
          exact hmem.symm
        · simp only [scanRank]
          omega
      · refine hgo [.release (.proc i), .stride (.next (i.val + 1) (some b))] ?_ ?_ ?_
        · simp only [strideCode, hproc, hstate, if_true, hbetter, if_false]
        · exact .release (hb.worse hpids hstate hbetter) hout hlt
        · simp only [scanRank]
          omega
  · refine hgo [.release (.proc i), .stride (.next (i.val + 1) best)] ?_ ?_ ?_
    · simp only [strideCode, hproc, hstate, if_false]
    · exact .release (hb.skip hstate) hout hlt
    · simp only [scanRank]
      omega

theorem advance_release (h : ScanInv c tab ops (insert i best.toFinset) k 0 t)
    (hst : t.stack (.hart c) = [.release (.proc i), .stride (.next k best)])
    (hb : Champion tab k best) (hout : i ∉ best.toFinset) (hle : k ≤ NPROC) :
    ∃ u, step t c .go = some u ∧ Advances c tab ops t u := by
  have hthread : t.thread c = .hart c := State.thread_of_cur_none h.cur
  have hcard := Finset.card_insert_of_notMem hout
  have hnoff := h.noff
  have hintr := h.intr (by omega)
  have hold : t.Holding c (.proc i) := (h.holds i).2 (Finset.mem_insert_self _ _)
  cases hpop : (t.cpu c).popOff with
  | error m =>
    rcases Cpu.popOff_error hpop with hon | hzero
    · rw [hintr] at hon
      cases hon
    · omega
  | ok v =>
    rcases Cpu.popOff_ok hpop with ⟨hv, -, hpan, hoff⟩
    have hstep : step t c .go = some (((t.setLocked (.proc i) none).setCpu c v).setStack (.hart c)
        [.stride (.next k best)]) := by
      rw [step_hart h.running h.cur hst]
      simp only [frameStep, releaseStep, hold, if_true, State.setLocked_cpu, hpop,
        State.setLocked_thread, hthread]
    refine ⟨_, hstep, ⟨best.toFinset, k, 0, ?_⟩, ?_, fun j => ?_⟩
    · have hop : lockOp c t = [.give i] := by simp only [lockOp, hst]
      rw [hop]
      refine ⟨?_, h.cur, h.proc, ?_, fun j => ?_, ?_, fun hpos => ?_, ?_, ?_, ?_⟩
      · simpa [hpan] using h.running
      · rw [State.setStack_stack, update_self]
        exact .next hb
      · by_cases hj : j = i
        · subst hj
          simp [State.Holding, hout]
        · have hne : (Lock.proc j) ≠ .proc i := fun heq => hj (Lock.proc.inj heq)
          have hmem := h.holds j
          rw [Finset.mem_insert, or_iff_right hj] at hmem
          rw [← hmem]
          simp [State.Holding, hne]
      · simp only [State.setStack_cpu, State.setCpu_cpu, update_self]
        omega
      · simp only [State.setStack_cpu, State.setCpu_cpu, update_self]
        exact hoff (by omega)
      · rw [replay_append, h.replays]
        simp only [Option.bind_some, replay, if_pos (Finset.mem_insert_self _ _),
          Finset.erase_insert hout]
      · rw [taken_append]
        simpa [taken] using h.sorted
      · intro j hj
        rw [taken_append] at hj
        exact h.below j (by simpa [taken] using hj)
    · rw [hst, State.setStack_stack, update_self]
      simp only [scanRank]
      omega
    · by_cases hj : j = i
      · subst hj
        exact Or.inr (Or.inl (by simp))
      · have hne : (Lock.proc j) ≠ .proc i := fun heq => hj (Lock.proc.inj heq)
        exact Or.inl (by simp [hne])

/-! ## Steps of the other harts -/

theorem thread_ne {d : Fin n} (hd : d ≠ c) : .hart c ≠ t.thread d := by
  unfold State.thread
  split
  · exact fun heq => hd (Thread.hart.inj heq).symm
  · exact nofun

theorem step_undisturbed {d : Fin n} {ch : Choice} (hd : d ≠ c) (hstep : step t d ch = some u)
    (htable : u.proc = t.proc) : Undisturbed c t u := by
  have hcd : c ≠ d := hd.symm
  have hst : ∀ st : Stack, update t.stack (t.thread d) st (.hart c) = t.stack (.hart c) := by
    intro st
    exact update_of_ne (thread_ne hd) st t.stack
  -- a lock that hart `d` takes was free, one that it gives up was its own
  have htake : ∀ l l', t.locked l = none →
      (update t.locked l (some d) l' = some c ↔ t.locked l' = some c) := by
    intro l l' hfree
    by_cases hl : l' = l
    · subst hl
      simp [hfree, hd]
    · rw [update_of_ne hl]
  have hgive : ∀ l l', t.Holding d l →
      (update t.locked l none l' = some c ↔ t.locked l' = some c) := by
    intro l l' hold
    by_cases hl : l' = l
    · subst hl
      have hown : t.locked l' = some d := hold
      simp [hown, hd]
    · rw [update_of_ne hl]
  have hpanic : ∀ (v : State n) (m : Panic), (v.panic d m).cpu c = v.cpu c :=
    fun v m => update_of_ne hcd _ _
  cases (step_move hstep).2 with
  | acquire => exact ⟨htable, update_of_ne hcd _ _, rfl, hst _, fun _ => Iff.rfl⟩
  | acquireTwice =>
    exact ⟨htable, (hpanic _ _).trans (update_of_ne hcd _ _), rfl, rfl, fun _ => Iff.rfl⟩
  | spin _ hfree => exact ⟨htable, rfl, rfl, hst _, fun l' => htake _ l' hfree⟩
  | release _ hold =>
    exact ⟨htable, update_of_ne hcd _ _, rfl, hst _, fun l' => hgive _ l' hold⟩
  | releaseUnheld => exact ⟨htable, hpanic _ _, rfl, rfl, fun _ => Iff.rfl⟩
  | releasePanic _ hold => exact ⟨htable, hpanic _ _, rfl, rfl, fun l' => hgive _ l' hold⟩
  | swtch => exact ⟨htable, rfl, update_of_ne hcd _ _, hst _, fun _ => Iff.rfl⟩
  | swtchBack => exact ⟨htable, rfl, update_of_ne hcd _ _, hst _, fun _ => Iff.rfl⟩
  | seg =>
    refine ⟨htable, State.writes_cpu_of_ne _ hcd _, ?_, ?_, fun l' => ?_⟩
    · rw [State.writes_cur]
      rfl
    · rw [State.writes_stack_hart]
      exact hst _
    · rw [State.Holding, State.writes_locked]
      rfl
  | panic => exact ⟨htable, hpanic _ _, rfl, rfl, fun _ => Iff.rfl⟩
  | interrupt => exact ⟨htable, update_of_ne hcd _ _, rfl, hst _, fun _ => Iff.rfl⟩

theorem ScanInv.undisturbed (h : ScanInv c tab ops H k pend t) (hu : Undisturbed c t u) :
    ScanInv c tab ops H k pend u where
  running := by
    rw [hu.cpu]
    exact h.running
  cur := hu.cur.trans h.cur
  proc := hu.proc.trans h.proc
  phase := by
    rw [hu.stack]
    exact h.phase
  holds i := (hu.holds _).trans (h.holds i)
  noff := by
    rw [hu.cpu]
    exact h.noff
  intr hpos := by
    rw [hu.cpu]
    exact h.intr hpos
  replays := h.replays
  sorted := h.sorted
  below := h.below

/-! ## The whole loop -/

theorem ScanInv.advance (h : ScanInv c tab ops H k pend t) (hpids : DistinctPids tab)
    (hloop : ∀ best, ¬ ScanDone c t best)
    (hfree : ∀ i rest, t.stack (.hart c) = .spin (.proc i) :: rest → t.locked (.proc i) = none) :
    ∃ u, step t c .go = some u ∧ Advances c tab ops t u := by
  generalize hst : t.stack (.hart c) = st
  have hphase := h.phase
  rw [hst] at hphase
  cases hphase with
  | next hb =>
    apply advance_next h hst hb
    exact Nat.lt_of_not_le fun hle => hloop _ ⟨_, hst, hle⟩
  | acquire hb => exact advance_acquire h hst hb
  | spin hb => exact advance_spin h hst hb (hfree _ _ hst)
  | scan hb => exact advance_scan hpids h hst hb
  | release hb hout hle => exact advance_release h hst hb hout hle

theorem free_of_step (hrun : (t.cpu c).panicked = none) (hcur : t.cur c = none)
    (hstep : step t c .go = some u) {rest : Stack}
    (hst : t.stack (.hart c) = .spin (.proc i) :: rest) : t.locked (.proc i) = none := by
  rw [step_hart hrun hcur hst] at hstep
  by_contra hlocked
  simp only [frameStep, spinStep, if_neg hlocked] at hstep
  cases hstep

end Steps

section Results

variable {n : Nat} {c : Fin n} {s t : State n} {ops : List LockOp}

theorem ScanStart.inv (h : ScanStart c s) : ScanInv c s.proc [] ∅ 0 0 s where
  running := h.running
  cur := h.cur
  proc := rfl
  phase := by
    rw [h.stack]
    exact .next (Champion.zero _)
  holds i := iff_of_false (h.unlocked i) (Finset.notMem_empty i)
  noff := Nat.zero_le _
  intr hpos := absurd hpos (Nat.lt_irrefl 0)
  replays := rfl
  sorted := List.Pairwise.nil
  below := nofun

theorem ScanRun.inv (hstart : ScanStart c s) (hpids : DistinctPids s.proc)
    (hrun : ScanRun c s ops t) : ∃ H k pend, ScanInv c s.proc ops H k pend t := by
  induction hrun with
  | start => exact ⟨∅, 0, 0, hstart.inv⟩
  | own hrun hloop hstep ih =>
    rcases ih with ⟨H, k, pend, h⟩
    rcases h.advance hpids hloop fun i rest => free_of_step h.running h.cur hstep with
      ⟨u, hu, hinv, -⟩
    rw [hstep] at hu
    cases hu
    exact hinv
  | other hrun hd hstep htable ih =>
    rcases ih with ⟨H, k, pend, h⟩
    exact ⟨H, k, pend, h.undisturbed (step_undisturbed hd hstep htable)⟩
  | interrupt hrun hintr hsame ih =>
    rcases ih with ⟨H, k, pend, h⟩
    exact ⟨H, k, pend, h.undisturbed hsame⟩

theorem ScanInv.done {tab : Slot → Proc} {H : Finset Slot} {k pend : Nat}
    (h : ScanInv c tab ops H k pend t) {best : Option Slot} (hdone : ScanDone c t best) :
    Chosen tab (fun _ => True) best ∧ H = best.toFinset := by
  rcases hdone with ⟨j, hst, hle⟩
  have hphase := h.phase
  rw [hst] at hphase
  cases hphase with
  | next hb =>
    have hlt : ∀ i : Slot, i.val < k := fun i => Nat.lt_of_lt_of_le i.isLt hle
    refine ⟨?_, rfl⟩
    cases best with
    | none => exact fun i _ => hb i (hlt i)
    | some b => exact ⟨trivial, hb.2.1, fun i _ => hb.2.2 i (hlt i)⟩

/-- The loop comes to its end, by induction on its rank, when no other hart holds a lock of a
process. -/
theorem ScanRun.finish (hstart : ScanStart c s) (hpids : DistinctPids s.proc) :
    ∀ (r : Nat) (ops : List LockOp) (t : State n), scanRank (t.stack (.hart c)) < r →
      ScanRun c s ops t → (∀ i d, t.locked (.proc i) = some d → d = c) →
      ∃ ops' u best, ScanRun c s (ops ++ ops') u ∧ ScanDone c u best := by
  intro r
  induction r with
  | zero => exact fun _ _ hr => absurd hr (Nat.not_lt_zero _)
  | succ r ih =>
    intro ops t hr hrun hlocks
    by_cases hdone : ∃ best, ScanDone c t best
    · rcases hdone with ⟨best, hdone⟩
      refine ⟨[], t, best, ?_, hdone⟩
      rw [List.append_nil]
      exact hrun
    · have hloop : ∀ best, ¬ ScanDone c t best := fun best hd => hdone ⟨best, hd⟩
      rcases hrun.inv hstart hpids with ⟨H, k, pend, h⟩
      have hfree : ∀ i rest, t.stack (.hart c) = .spin (.proc i) :: rest →
          t.locked (.proc i) = none := by
        intro i rest hst
        cases hl : t.locked (.proc i) with
        | none => rfl
        | some d =>
          -- the loop never waits for a lock of its own
          have hmem : i ∈ H := (h.holds i).1 (by rw [State.Holding, hl, hlocks i d hl])
          have hphase := h.phase
          rw [hst] at hphase
          cases hphase with
          | spin hb => exact absurd (hb.lt_of_mem hmem) (Nat.lt_irrefl _)
      rcases h.advance hpids hloop hfree with ⟨u, hstep, -, hrank, hl⟩
      have hlocks' : ∀ i d, u.locked (.proc i) = some d → d = c := by
        intro i d hd
        rcases hl i with heq | heq | heq
        · exact hlocks i d (heq ▸ hd)
        · rw [heq] at hd
          cases hd
        · rw [heq] at hd
          exact (Option.some.inj hd).symm
      rcases ih _ u (by omega) (.own hrun hloop hstep) hlocks' with ⟨ops', v, best, hv, hend⟩
      refine ⟨lockOp c t ++ ops', v, best, ?_, hend⟩
      rw [← List.append_assoc]
      exact hv

/-- One scan of `scheduler_stride`: at every point the locks taken so far are in the order of the
table, none was taken while held or given up while not, and at most two are held; at the end
`min_pass_proc` is the first `RUNNABLE` process and its lock is the only one held.  The loop ends
unless another hart keeps a lock. -/
theorem stride_scan (hstart : ScanStart c s) (hpids : DistinctPids s.proc) :
    ∀ ops t, ScanRun c s ops t → (t.cpu c).panicked = none ∧ (taken ops).Pairwise (· < ·) ∧
      (∃ H, replay ops ∅ = some H ∧ H.card ≤ 2 ∧ (∀ i, t.Holding c (.proc i) ↔ i ∈ H) ∧
        ∀ best, ScanDone c t best → Chosen s.proc (fun _ => True) best ∧ H = best.toFinset) ∧
      ((∀ i d, t.locked (.proc i) = some d → d = c) →
        ∃ ops' u best, ScanRun c s (ops ++ ops') u ∧ ScanDone c u best) := by
  intro ops t hrun
  rcases hrun.inv hstart hpids with ⟨H, k, pend, h⟩
  refine ⟨h.running, h.sorted, ⟨H, h.replays, h.phase.card_le, h.holds, fun best => h.done⟩, ?_⟩
  exact ScanRun.finish hstart hpids _ ops t (Nat.lt_succ_self _) hrun

/-- Two `RUNNABLE` processes with the same `pass`, when the only hart starts to scan. -/
def twoRunnable : State 1 :=
  { boot fun _ => .stride with
    proc := update (boot (n := 1) fun _ => .stride).proc (slotAt 1)
      { userinitProc with pid := 2 }
    stack := fun _ => [.stride (.next 0 none)] }

theorem stride_scan_two : ∃ ops t, ScanRun 0 twoRunnable ops t ∧ ScanDone 0 t (some (slotAt 1)) := by
  have hstart : ScanStart 0 twoRunnable := ⟨rfl, rfl, rfl, nofun⟩
  have hpids : DistinctPids twoRunnable.proc := by
    unfold DistinctPids
    decide +kernel
  rcases (stride_scan hstart hpids [] _ .start).2.2.2 nofun with ⟨ops, t, best, hrun, hdone⟩
  rcases (stride_scan hstart hpids _ t hrun).2.2.1 with ⟨H, -, -, -, hend⟩
  have hbest := (hend best hdone).1
  have hone : (twoRunnable.proc (slotAt 1)).state = .runnable := by decide +kernel
  cases best with
  | none => exact absurd hone (hbest _ trivial)
  | some b =>
    refine ⟨_, t, hrun, ?_⟩
    have huniq : ∀ b : Slot, (twoRunnable.proc b).state = .runnable →
        (slotAt 1 ≠ b → Better (twoRunnable.proc b) (twoRunnable.proc (slotAt 1))) →
        b = slotAt 1 := by
      decide +kernel
    rw [← huniq b hbest.2.1 fun hne => hbest.2.2 _ trivial hone hne]
    exact hdone

end Results

end Xv6Schedulers.Sched
