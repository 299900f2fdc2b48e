import Xv6Schedulers.Sched.Turn
import Xv6Schedulers.Sched.Stride

/-!
# Scan — the choice of `scheduler_stride` on one hart

The scan of `scheduler_stride` is not atomic: it takes and releases one lock after the other, and
between two slots an interrupt may wake processes up.  What it guarantees is about the slots it has
seen `RUNNABLE`: `Scanned W` says that of the slots in `W` the scan has passed, none has a smaller
`pass` than the candidate.  It holds as long as the processes in `W` are `RUNNABLE` when the scan
comes to them.
-/

namespace Xv6Schedulers.Sched

open Kernel Locking

variable {s t : State 1}

/-! ## The two kinds of steps under `scheduler_stride` -/

theorem stride_turn {n : Nat} {s t : State n} {c : Fin n} (h : StrideInv s) (hm : Move s c t) :
    (∃ pc ws fs, s.cur c = none ∧ s.stack (.hart c) = [.stride pc] ∧ StrideSeg s pc ws fs ∧
      t = after s c ws fs) ∨ Inside s t c := by
  rcases turn_cases h.inv hm with ⟨f, ws, fs, hf, hcur, hst, hseg, ht⟩ | hin
  · cases hseg with
    | stride hseg => exact .inl ⟨_, ws, fs, hcur, hst, hseg, ht⟩
    | @loteria pc =>
      refine (h.only (.hart c) pc ?_).elim
      rw [hst]
      exact List.mem_singleton_self _
    | _ => simp [Frame.isLoop] at hf
  · exact .inr hin

/-- What a step does to the passes and to the counts of dispatches and returns. -/
inductive Round (s t : State 1) : Prop
  | quiet (hview : loopView t = loopView s)
      (hfields : ∀ i, (s.proc i).state ≠ .unused ∨ s.cur 0 = none →
        (t.proc i).pass = (s.proc i).pass ∧ (t.proc i).stride = (s.proc i).stride)
  | dispatch {k : Nat} (b : Slot) (hst : s.stack (.hart 0) = [.stride (.next k (some b))])
      (hk : ¬ k < NPROC) (hrunning : (t.proc b).state = .running)
      (hmy : s.myproc 0 = none) (hmy' : t.myproc 0 = some b)
      (hdispatches : ∀ i, dispatches i t.trace = dispatches i s.trace + if i = b then 1 else 0)
      (hreturns : ∀ i, returns i t.trace = returns i s.trace)
      (hfields : ∀ i, (t.proc i).pass = (s.proc i).pass ∧ (t.proc i).stride = (s.proc i).stride)
  | update (b : Slot) (hst : s.stack (.hart 0) = [.stride (.back b)]) (hcur : s.cur 0 = none)
      (hmy : s.myproc 0 = some b) (hmy' : t.myproc 0 = none)
      (hdispatches : ∀ i, dispatches i t.trace = dispatches i s.trace)
      (hreturns : ∀ i, returns i t.trace = returns i s.trace + if i = b then 1 else 0)
      (hpass : (t.proc b).pass = (s.proc b).pass + (s.proc b).stride)
      (hother : ∀ i, i ≠ b → (t.proc i).pass = (s.proc i).pass)
      (hstride : ∀ i, (t.proc i).stride = (s.proc i).stride)

theorem Round.of_plain {ws : List Write} {fs : Stack} (hws : ws = [] ∨ ws = [.intr true]) :
    Round s (after s 0 ws fs) := by
  have hloop : ∀ w ∈ ws, byLoop w = false := by
    rcases hws with rfl | rfl <;> simp [byLoop]
  refine .quiet (loopView_after hloop) ?_
  intro i _
  rcases hws with rfl | rfl <;> simp

theorem round_of_seg {pc : StridePc} {ws : List Write} {fs : Stack} (h : StrideInv s)
    (hcur : s.cur 0 = none) (hst : s.stack (.hart 0) = [.stride pc])
    (hseg : StrideSeg s pc ws fs) : Round s (after s 0 ws fs) := by
  have hmy : s.myproc 0 = target [.stride pc] := by rw [h.inv.proc.myproc 0, hst]
  cases hseg with
  | @dispatch k b hk =>
    refine .dispatch b hst hk (by simp) hmy (by simp) ?_ ?_ ?_
    · intro i
      by_cases hi : i = b
      · simp [dispatches, hi]
      · simp [dispatches, hi, Ne.symm hi]
    · intro i
      simp [returns]
    · intro i
      by_cases hi : i = b <;> simp [hi]
  | @back b =>
    refine .update b hst hcur hmy (by simp) ?_ ?_ ?_ ?_ ?_
    · intro i
      simp [dispatches]
    · intro i
      by_cases hi : i = b
      · simp [returns, hi]
      · simp [returns, hi, Ne.symm hi]
    · simp
    · intro i hi
      simp [hi]
    · intro i
      by_cases hi : i = b <;> simp [hi]
  | begin => exact .of_plain (.inr rfl)
  | _ => exact .of_plain (.inl rfl)

theorem move_round (h : StrideInv s) (hm : Move s 0 t) : Round s t := by
  rcases stride_turn h hm with ⟨pc, ws, fs, hcur, hst, hseg, rfl⟩ | hin
  · exact round_of_seg h hcur hst hseg
  · refine .quiet hin.view ?_
    intro i hi
    exact ⟨(hin.fields i hi).1, (hin.fields i hi).2.1⟩

/-! ## Counts since a state -/

/-- `1` while the hart has dispatched slot `i`. -/
def onHart (s : State 1) (i : Slot) : Nat := if s.myproc 0 = some i then 1 else 0

/-- The counts grow, and a dispatch is answered by one switch back. -/
structure Counted (s₀ s : State 1) : Prop where
  dispatches_le : ∀ i, dispatches i s₀.trace ≤ dispatches i s.trace
  returns_le : ∀ i, returns i s₀.trace ≤ returns i s.trace
  balance : ∀ i, dispatchesSince s₀ s i + onHart s₀ i = returnsSince s₀ s i + onHart s i

section Counts

variable {s₀ : State 1} {d r : Slot → Nat}

theorem Counted.refl (s : State 1) : Counted s s :=
  ⟨fun _ => Nat.le_refl _, fun _ => Nat.le_refl _, fun i => by simp [dispatchesSince, returnsSince]⟩

theorem Counted.dispatchesSince_eq (h : Counted s₀ s)
    (hd : ∀ i, dispatches i t.trace = dispatches i s.trace + d i) (i : Slot) :
    dispatchesSince s₀ t i = dispatchesSince s₀ s i + d i := by
  have hle := h.dispatches_le i
  simp only [dispatchesSince, hd]
  omega

theorem Counted.returnsSince_eq (h : Counted s₀ s)
    (hr : ∀ i, returns i t.trace = returns i s.trace + r i) (i : Slot) :
    returnsSince s₀ t i = returnsSince s₀ s i + r i := by
  have hle := h.returns_le i
  simp only [returnsSince, hr]
  omega

theorem Counted.add (h : Counted s₀ s)
    (hd : ∀ i, dispatches i t.trace = dispatches i s.trace + d i)
    (hr : ∀ i, returns i t.trace = returns i s.trace + r i)
    (hon : ∀ i, onHart s i + d i = r i + onHart t i) : Counted s₀ t := by
  refine ⟨?_, ?_, ?_⟩
  · intro i
    have hle := h.dispatches_le i
    rw [hd]
    omega
  · intro i
    have hle := h.returns_le i
    rw [hr]
    omega
  · intro i
    have hbalance := h.balance i
    have hi := hon i
    rw [h.dispatchesSince_eq hd, h.returnsSince_eq hr]
    omega

theorem Counted.round (h : Counted s₀ s) (hround : Round s t) : Counted s₀ t := by
  cases hround with
  | quiet hview _ =>
    have hmy : t.myproc 0 = s.myproc 0 := congrFun (congrArg LoopView.myproc hview) 0
    refine h.add (d := fun _ => 0) (r := fun _ => 0)
      (congrFun (congrArg LoopView.dispatches hview))
      (congrFun (congrArg LoopView.returns hview)) ?_
    intro i
    simp [onHart, hmy]
  | dispatch b _ _ _ hmy hmy' hd hr _ =>
    refine h.add (r := fun _ => 0) hd hr ?_
    intro i
    by_cases hib : i = b
    · simp [onHart, hmy, hmy', hib]
    · simp [onHart, hmy, hmy', hib, Ne.symm hib]
  | update b _ _ hmy hmy' hd hr _ _ _ =>
    refine h.add (d := fun _ => 0) hd hr ?_
    intro i
    by_cases hib : i = b
    · simp [onHart, hmy, hmy', hib]
    · simp [onHart, hmy, hmy', hib, Ne.symm hib]

end Counts

/-! ## What the scan has seen -/

/-- How far the scan has come, and its candidate. -/
def StridePc.front : StridePc → Option (Nat × Option Slot)
  | .next i best => some (i, best)
  | .scan i best => some (i.val, best)
  | _ => none

/-- Among the slots of `W` that the scan has passed, none has a smaller `pass` than the
candidate. -/
def Scanned (W : Set Slot) (s : State 1) : Prop :=
  ∀ pc k best, .stride pc ∈ s.stack (.hart 0) → StridePc.front pc = some (k, best) →
    ∀ i ∈ W, i.val < k → ∃ b, best = some b ∧ (s.proc b).pass.toInt ≤ (s.proc i).pass.toInt

theorem cur_of_front {pc : StridePc} {x : Nat × Option Slot} (h : ProcInv s)
    (hpc : .stride pc ∈ s.stack (.hart 0)) (hfront : StridePc.front pc = some x) :
    s.cur 0 = none := by
  cases hcur : s.cur 0 with
  | none => rfl
  | some p =>
    rcases h.resting 0 p hcur with ⟨cl, hst⟩ | hst
    · simp [hst] at hpc
    · have hback : pc = .back p := by simpa [hst] using hpc
      simp [hback, StridePc.front] at hfront

theorem le_of_better {p b : Proc} (h : Better p b) : p.pass.toInt ≤ b.pass.toInt := by
  rcases h with h | ⟨h, -⟩
  · exact Int.le_of_lt (Int32.lt_iff_toInt_lt.1 h)
  · rw [h]

theorem le_of_not_better {p b : Proc} (h : ¬ Better p b) : b.pass.toInt ≤ p.pass.toInt := by
  by_contra hlt
  exact h (.inl (Int32.lt_iff_toInt_lt.2 (by omega)))

theorem lt_of_lt_succ_of_ne {i j : Slot} (h : i.val < j.val + 1) (hne : i ≠ j) : i.val < j.val := by
  have hval := Fin.val_ne_of_ne hne
  omega

section Preservation

variable {W : Set Slot}

theorem Scanned.inside (hs : Scanned W s) (h : StrideInv s) (hin : Inside s t 0) : Scanned W t := by
  intro pc k best hpc hfront i hi hik
  have hpc' : .stride pc ∈ s.stack (.hart 0) := (hin.frames 0 _ rfl).1 hpc
  have hcur := cur_of_front h.inv.proc hpc' hfront
  rcases hs pc k best hpc' hfront i hi hik with ⟨b, rfl, hle⟩
  refine ⟨b, rfl, ?_⟩
  rw [(hin.fields b (.inr hcur)).1, (hin.fields i (.inr hcur)).1]
  exact hle

/-- Segments of the loop keep it, when the slots of `W` are `RUNNABLE` as the scan visits them. -/
theorem Scanned.seg {pc : StridePc} {ws : List Write} {fs : Stack} (hs : Scanned W s)
    (hcur : s.cur 0 = none) (hst : s.stack (.hart 0) = [.stride pc]) (hseg : StrideSeg s pc ws fs)
    (hvisit : ∀ i ∈ W, ∀ best, s.stack (.hart 0) = [.stride (.scan i best)] →
      (s.proc i).state = .runnable) :
    Scanned W (after s 0 ws fs) := by
  intro pc' k best hpc' hfront i hi hik
  rw [after_hart hcur] at hpc'
  -- what the scan knew before this segment
  have hold : ∀ k best, StridePc.front pc = some (k, best) → i.val < k →
      ∃ b, best = some b ∧ (s.proc b).pass.toInt ≤ (s.proc i).pass.toInt := fun k best hf hlt =>
    hs pc k best (by rw [hst]; exact List.mem_singleton_self _) hf i hi hlt
  cases hseg with
  | begin =>
    have hpc : pc' = .next 0 none := by simpa using hpc'
    subst hpc
    simp only [StridePc.front, Option.some.injEq, Prod.mk.injEq] at hfront
    omega
  | @visit j cand =>
    have hpc : pc' = .scan j cand := by simpa using hpc'
    subst hpc
    simpa using hold k best hfront hik
  | @dispatch _ b _ =>
    have hpc : pc' = .back b := by simpa using hpc'
    simp [hpc, StridePc.front] at hfront
  | idle _ =>
    have hpc : pc' = .top := by simpa using hpc'
    simp [hpc, StridePc.front] at hfront
  | @first j _ =>
    have hpc : pc' = .next (j.val + 1) (some j) := by simpa using hpc'
    subst hpc
    simp only [StridePc.front, Option.some.injEq, Prod.mk.injEq] at hfront
    rcases hfront with ⟨rfl, rfl⟩
    refine ⟨j, rfl, ?_⟩
    -- the first `RUNNABLE` slot: the scan has passed no other slot of `W`
    by_cases hij : i = j
    · simp [hij]
    · rcases hold j.val none rfl (lt_of_lt_succ_of_ne hik hij) with ⟨b, hb, -⟩
      cases hb
  | @better j b _ hbetter =>
    have hpc : pc' = .next (j.val + 1) (some j) := by simpa using hpc'
    subst hpc
    simp only [StridePc.front, Option.some.injEq, Prod.mk.injEq] at hfront
    rcases hfront with ⟨rfl, rfl⟩
    refine ⟨j, rfl, ?_⟩
    by_cases hij : i = j
    · simp [hij]
    · rcases hold j.val (some b) rfl (lt_of_lt_succ_of_ne hik hij) with ⟨b', hb', hle⟩
      cases hb'
      have hjb := le_of_better hbetter
      simp only [State.writes_proc, State.setStack_proc, List.foldl_nil]
      omega
  | @worse j b _ hworse =>
    have hpc : pc' = .next (j.val + 1) (some b) := by simpa using hpc'
    subst hpc
    simp only [StridePc.front, Option.some.injEq, Prod.mk.injEq] at hfront
    rcases hfront with ⟨rfl, rfl⟩
    refine ⟨b, rfl, ?_⟩
    simp only [State.writes_proc, State.setStack_proc, List.foldl_nil]
    by_cases hij : i = j
    · rw [hij]
      exact le_of_not_better hworse
    · rcases hold j.val (some b) rfl (lt_of_lt_succ_of_ne hik hij) with ⟨b', hb', hle⟩
      cases hb'
      exact hle
  | @skip j cand hstate =>
    have hpc : pc' = .next (j.val + 1) cand := by simpa using hpc'
    subst hpc
    simp only [StridePc.front, Option.some.injEq, Prod.mk.injEq] at hfront
    rcases hfront with ⟨rfl, rfl⟩
    -- a slot that is passed over is not in `W`
    have hij : i ≠ j := by
      rintro rfl
      exact hstate (hvisit i hi cand hst)
    simpa using hold j.val cand rfl (lt_of_lt_succ_of_ne hik hij)
  | @back b =>
    have hpc : pc' = .top := by simpa using hpc'
    simp [hpc, StridePc.front] at hfront

theorem scanned_move (h : StrideInv s) (hm : Move s 0 t) (hs : Scanned W s)
    (hvisit : ∀ i ∈ W, ∀ best, s.stack (.hart 0) = [.stride (.scan i best)] →
      (s.proc i).state = .runnable) : Scanned W t := by
  rcases stride_turn h hm with ⟨pc, ws, fs, hcur, hst, hseg, rfl⟩ | hin
  · exact hs.seg hcur hst hseg hvisit
  · exact hs.inside h hin

theorem scanned_of_onHart {b : Slot} (h : Inv s) (hmy : s.myproc 0 = some b) : Scanned W s := by
  intro pc k best hpc hfront
  have htarget : target (s.stack (.hart 0)) = some b := by rw [← h.proc.myproc 0, hmy]
  have hwf : Wf none (s.stack (.hart 0)) := h.lock.wf (.hart 0)
  have hback : pc = .back b := by
    cases hst : s.stack (.hart 0) with
    | nil => simp [hst] at hpc
    | cons f r =>
      rw [hst] at hpc htarget hwf
      rcases hwf with ⟨hok, -, -⟩
      cases f with
      | swtch p =>
        have hp : p = b := by simpa using htarget
        subst hp
        rcases hok with ⟨-, ⟨cl, rfl⟩ | rfl⟩
        · simp at hpc
        · simpa using hpc
      | loteria pc' =>
        rcases hok with ⟨-, rfl⟩
        simp at hpc
      | stride pc' =>
        cases pc' <;> simp at htarget
        rcases hok with ⟨-, rfl⟩
        subst htarget
        simpa using hpc
      | _ => simp at htarget
  simp [hback, StridePc.front] at hfront

theorem Scanned.chosen {k : Nat} {b : Slot} (hs : Scanned W s)
    (hst : s.stack (.hart 0) = [.stride (.next k (some b))]) (hk : ¬ k < NPROC) :
    ∀ i ∈ W, (s.proc b).pass.toInt ≤ (s.proc i).pass.toInt := by
  intro i hi
  have hpc : .stride (.next k (some b)) ∈ s.stack (.hart 0) := by simp [hst]
  rcases hs _ k (some b) hpc rfl i hi (by omega) with ⟨b', hb', hle⟩
  cases hb'
  exact hle

end Preservation

end Xv6Schedulers.Sched
