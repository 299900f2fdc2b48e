import Xv6Schedulers.Sched.Scan
import Xv6Schedulers.Sched.Overflow
import Xv6Schedulers.Lib.Proportional

/-!
# Bypass — how often a process is overtaken under `scheduler_stride`

One hart, and processes that are created, sleep, wake up and exit as they like.  While a process `P`
stays `RUNNABLE` and is not dispatched, another process `Q` created by `forkprio` is dispatched

* at most `(pass_P - pass_Q) / stride_Q + 1` times if `pass_Q ≤ pass_P` at the start;
* not at all if `pass_Q > pass_P`, except once: `P` may be woken up by an interrupt in the middle of
  a scan that has already passed its slot, and that scan may choose `Q`.

The exception is real (`overtaken_by_larger_pass`): the scan releases the lock of every slot it
passes and keeps interrupts enabled until it has a candidate.
-/

namespace Xv6Schedulers.Sched

open Kernel Locking Lib

/-- The condition on the states of a stretch: `P` is `RUNNABLE`, so that no step dispatches it, `Q`
exists, and no update of `pass` leaves the range of `int`. -/
def Waiting (P Q : Slot) (s : State 1) (_a : Fin 1 × Choice) (_t : State 1) : Prop :=
  (s.proc P).state = .runnable ∧ Live (s.proc Q).state ∧
  (∀ b, AtUpdate s 0 b → (s.proc b).pass.toInt + (s.proc b).stride.toInt < 2 ^ 31)

/-- No scan is under way that has passed slot `P`. -/
def NotPassed (P : Slot) (s : State 1) : Prop :=
  ∀ pc k best, .stride pc ∈ s.stack (.hart 0) → StridePc.front pc = some (k, best) → k ≤ P.val

variable {P Q : Slot} {s₀ s t : State 1}

/-- What holds along a stretch from `s₀`. -/
structure BypassInv (P Q : Slot) (s₀ s : State 1) : Prop where
  inv : StrideInv s
  counted : Counted s₀ s
  out : s.myproc 0 ≠ some P
  passP : (s.proc P).pass = (s₀.proc P).pass
  strideQ : (s.proc Q).stride = (s₀.proc Q).stride
  passQ : (s.proc Q).pass.toInt =
    (s₀.proc Q).pass.toInt + (s₀.proc Q).stride.toInt * returnsSince s₀ s Q
  /-- the scan under way has seen `P`, or it is the one of the start -/
  seen : Scanned {P} s ∨ dispatchesSince s₀ s Q = 0
  bound : 2 ≤ dispatchesSince s₀ s Q →
    (s₀.proc Q).pass.toInt + (s₀.proc Q).stride.toInt * ((dispatchesSince s₀ s Q : Int) - 1) ≤
      (s₀.proc P).pass.toInt
  fresh : NotPassed P s₀ → Scanned {P} s ∧
    (1 ≤ dispatchesSince s₀ s Q → (s₀.proc Q).pass.toInt ≤ (s₀.proc P).pass.toInt)

theorem scanned_of_notPassed (h : NotPassed P s) : Scanned {P} s := by
  intro pc k best hpc hfront i hi hik
  have hle := h pc k best hpc hfront
  have hiP : i = P := hi
  rw [hiP] at hik
  omega

theorem bypassInv_start (hinv : StrideInv s) (hout : s.myproc 0 ≠ some P) : BypassInv P Q s s := by
  have hzero : dispatchesSince s s Q = 0 := by simp [dispatchesSince]
  refine ⟨hinv, .refl s, hout, rfl, rfl, by simp [returnsSince], .inr hzero, ?_, ?_⟩
  · intro hle
    omega
  · intro hnot
    refine ⟨scanned_of_notPassed hnot, ?_⟩
    intro hle
    omega

section Step

variable (h : BypassInv P Q s₀ s)

include h

theorem BypassInv.chosen {k : Nat} {b : Slot} (hs : Scanned {P} s)
    (hst : s.stack (.hart 0) = [.stride (.next k (some b))]) (hk : ¬ k < NPROC) :
    (s.proc b).pass.toInt ≤ (s₀.proc P).pass.toInt := by
  have hle := hs.chosen hst hk P rfl
  rwa [h.passP] at hle

theorem BypassInv.charged (hw : 0 ≤ (s₀.proc Q).stride.toInt) (hmy : s.myproc 0 = none) :
    (s₀.proc Q).pass.toInt + (s₀.proc Q).stride.toInt * dispatchesSince s₀ s Q ≤
      (s.proc Q).pass.toInt := by
  have hbalance := h.counted.balance Q
  have hon : onHart s Q = 0 := by simp [onHart, hmy]
  have hle : (dispatchesSince s₀ s Q : Int) ≤ returnsSince s₀ s Q := by omega
  have hmul := Int.mul_le_mul_of_nonneg_left hle hw
  rw [h.passQ]
  omega

end Step

theorem bypassInv_move {a : Fin 1 × Choice} (h : BypassInv P Q s₀ s)
    (hone : 1 ≤ (s₀.proc Q).stride.toInt) (hrun : (s.cpu 0).panicked = none) (hm : Move s 0 t)
    (hguard : Waiting P Q s a t) (hP' : (t.proc P).state = .runnable) : BypassInv P Q s₀ t := by
  rcases hguard with ⟨hP, hQ, hfits⟩
  have hround := move_round h.inv hm
  have hinv := strideInv_move h.inv hrun hm
  have hcounted := h.counted.round hround
  have hkeep : Scanned {P} s → Scanned {P} t := by
    intro hs
    refine scanned_move h.inv hm hs ?_
    rintro i rfl best _
    exact hP
  have husedP : (s.proc P).state ≠ .unused := by simp [hP]
  have husedQ : (s.proc Q).state ≠ .unused := by
    rcases hQ with hQ | hQ | hQ | hQ <;> simp [hQ]
  cases hround with
  | quiet hview hfields =>
    have hd : dispatchesSince s₀ t Q = dispatchesSince s₀ s Q := by
      have hsame : dispatches Q t.trace = dispatches Q s.trace :=
        congrFun (congrArg LoopView.dispatches hview) Q
      simp [dispatchesSince, hsame]
    have hr : returnsSince s₀ t Q = returnsSince s₀ s Q := by
      have hsame : returns Q t.trace = returns Q s.trace :=
        congrFun (congrArg LoopView.returns hview) Q
      simp [returnsSince, hsame]
    have hmy : t.myproc 0 = s.myproc 0 := congrFun (congrArg LoopView.myproc hview) 0
    refine ⟨hinv, hcounted, ?_, ?_, ?_, ?_, ?_, ?_, ?_⟩
    · rw [hmy]
      exact h.out
    · rw [(hfields P (.inl husedP)).1, h.passP]
    · rw [(hfields Q (.inl husedQ)).2, h.strideQ]
    · rw [(hfields Q (.inl husedQ)).1, hr, h.passQ]
    · rw [hd]
      exact h.seen.imp_left hkeep
    · rw [hd]
      exact h.bound
    · intro hnot
      rw [hd]
      exact ⟨hkeep (h.fresh hnot).1, (h.fresh hnot).2⟩
  | dispatch b hst hk hrunning hmy hmy' hd hr hfields =>
    have hds := h.counted.dispatchesSince_eq hd Q
    have hrs : returnsSince s₀ t Q = returnsSince s₀ s Q := by simp [returnsSince, hr]
    have hcharged := h.charged (by omega) hmy
    have hscanned : Scanned {P} t := scanned_of_onHart hinv.inv hmy'
    -- a dispatch of `Q` by a scan that has seen `P`
    have hchosen : Q = b → Scanned {P} s →
        (s₀.proc Q).pass.toInt + (s₀.proc Q).stride.toInt * dispatchesSince s₀ s Q ≤
          (s₀.proc P).pass.toInt := by
      rintro rfl hs
      have hle := h.chosen hs hst hk
      omega
    refine ⟨hinv, hcounted, ?_, ?_, ?_, ?_, .inl hscanned, ?_, ?_⟩
    · intro hPb
      rw [hmy'] at hPb
      cases hPb
      simp [hP'] at hrunning
    · rw [(hfields P).1, h.passP]
    · rw [(hfields Q).2, h.strideQ]
    · rw [(hfields Q).1, hrs, h.passQ]
    · rw [hds]
      by_cases hQb : Q = b
      · rw [if_pos hQb]
        intro hle
        rcases h.seen with hs | hzero
        · have hsub : ((dispatchesSince s₀ s Q + 1 : Nat) : Int) - 1 = dispatchesSince s₀ s Q := by
            push_cast
            ring
          rw [hsub]
          exact hchosen hQb hs
        · omega
      · rw [if_neg hQb]
        exact h.bound
    · intro hnot
      rcases h.fresh hnot with ⟨hs, hone'⟩
      refine ⟨hscanned, ?_⟩
      rw [hds]
      by_cases hQb : Q = b
      · intro _
        have hle := hchosen hQb hs
        have hnonneg : 0 ≤ (s₀.proc Q).stride.toInt * (dispatchesSince s₀ s Q : Int) :=
          Int.mul_nonneg (by omega) (Int.natCast_nonneg _)
        omega
      · rw [if_neg hQb]
        exact hone'
  | update b hst hcur hmy hmy' hd hr hpass hother hstride =>
    have hds : dispatchesSince s₀ t Q = dispatchesSince s₀ s Q := by
      simp [dispatchesSince, hd]
    have hrs := h.counted.returnsSince_eq hr Q
    have hat : AtUpdate s 0 b := ⟨[], by rw [State.thread_of_cur_none hcur, hst]⟩
    have hPb : P ≠ b := by
      rintro rfl
      exact h.out hmy
    refine ⟨hinv, hcounted, by simp [hmy'], ?_, ?_, ?_, ?_, ?_, ?_⟩
    · rw [hother P hPb, h.passP]
    · rw [hstride, h.strideQ]
    · by_cases hQb : Q = b
      · subst hQb
        have hpassQ := h.passQ
        rw [← h.strideQ] at hpassQ hone
        rw [hpass, toInt_charge hpassQ (by omega) (hfits Q hat), hrs, if_pos rfl, h.strideQ]
      · rw [hother Q hQb, hrs, if_neg hQb, Nat.add_zero, h.passQ]
    · rw [hds]
      exact h.seen.imp_left hkeep
    · rw [hds]
      exact h.bound
    · intro hnot
      rw [hds]
      exact ⟨hkeep (h.fresh hnot).1, (h.fresh hnot).2⟩

/-- While `P` stays `RUNNABLE` and is not dispatched, a process `Q` created by `forkprio` is
dispatched at most `(pass_P - pass_Q) / stride_Q + 1` times if `pass_Q ≤ pass_P` at the start.  If
`pass_Q > pass_P`, it is dispatched at most once, and not at all if no scan had already passed the
slot of `P` at the start. -/
theorem bounded_bypass (h₀ : Reachable (fun _ => .stride) s₀) (hborn : ForkprioBorn s₀ Q)
    (hlive : Live (s₀.proc Q).state) (hout : s₀.myproc 0 ≠ some P)
    (h : (machine 1).Path (Waiting P Q) s₀ s) (hP : (s.proc P).state = .runnable) :
    ((s₀.proc Q).pass ≤ (s₀.proc P).pass → (dispatchesSince s₀ s Q : Int) ≤
        ((s₀.proc P).pass.toInt - (s₀.proc Q).pass.toInt) / (s₀.proc Q).stride.toInt + 1) ∧
    ((s₀.proc P).pass < (s₀.proc Q).pass → dispatchesSince s₀ s Q ≤ 1 ∧
      (NotPassed P s₀ → dispatchesSince s₀ s Q = 0)) := by
  have hinv := strideInv_reachable h₀
  have hone := (hinv.forkprio_facts (.inl hlive) hborn).2.2
  have hend : BypassInv P Q s₀ s := by
    refine h.invariant (I := fun s => (s.proc P).state = .runnable → BypassInv P Q s₀ s)
      (fun _ => bypassInv_start hinv hout) ?_ hP
    intro t a u ht hstep hguard hu
    rcases a with ⟨c, ch⟩
    have hc : c = 0 := Subsingleton.elim c 0
    subst hc
    rcases step_move hstep with ⟨hrun, hm⟩
    exact bypassInv_move (ht hguard.1) hone hrun hm hguard hu
  constructor
  · intro hle
    exact served_le hone (Int32.le_iff_toInt_le.1 hle) hend.bound
  · intro hlt
    have hlt' := Int32.lt_iff_toInt_lt.1 hlt
    constructor
    · by_contra hmany
      have hbound := hend.bound (by omega)
      have hnonneg : 0 ≤ (s₀.proc Q).stride.toInt * ((dispatchesSince s₀ s Q : Int) - 1) :=
        Int.mul_nonneg (by omega) (by omega)
      omega
    · intro hnot
      by_contra hsome
      have hle := (hend.fresh hnot).2 (by omega)
      omega

def waiting (P Q : Slot) (v : Solo) : Bool :=
  decide ((v.proc P).state = .runnable ∧ Live (v.proc Q).state) &&
    match v.top with
    | .stride (.back b) :: _ => decide ((v.proc b).pass.toInt + (v.proc b).stride.toInt < 2 ^ 31)
    | _ => true

theorem waiting_path {v w : Solo} {chs : List Choice} (h : v.run (waiting P Q) chs = some w) :
    (machine 1).Path (Waiting P Q) v.state w.state := by
  refine Solo.run_path h ?_
  intro v hv s ch t hs
  rw [waiting, Bool.and_eq_true, decide_eq_true_eq] at hv
  rcases hv with ⟨⟨hP, hQ⟩, hfits⟩
  have hproc : s.proc = v.proc := by
    rcases hs with rfl | ⟨hproc, -⟩
    · rfl
    · exact hproc
  refine ⟨by rw [hproc]; exact hP, by rw [hproc]; exact hQ, ?_⟩
  rintro b ⟨rest, hst⟩
  rcases hs with rfl | ⟨-, -, l, rest', hspin⟩
  · rw [Solo.state_top] at hst
    simp only [hst, decide_eq_true_eq] at hfits
    exact hfits
  · simp [hspin] at hst

/-- The first time slice of one of two children, and two time slices of the other. -/
def oneSlice : List Choice := Solo.scanOne ++ Solo.startUser ++ Solo.preempt ++ Solo.go 2

def twoSlices : List Choice := oneSlice ++ Solo.scanOne ++ Solo.go 5 ++ Solo.preempt ++ Solo.go 2

/-- The child with `pass = 200` waits while the one with `pass = 0` and `stride = 100` is dispatched
twice; three times would be the bound. -/
theorem bounded_bypass_pair : ∃ s₀ s : State 1, Reachable (fun _ => .stride) s₀ ∧
      (machine 1).Path (Waiting (slotAt 2) (slotAt 1)) s₀ s ∧
      dispatchesSince s₀ s (slotAt 1) = 2 ∧
      (dispatchesSince s₀ s (slotAt 1) : Int) ≤
        ((s₀.proc (slotAt 2)).pass.toInt - (s₀.proc (slotAt 1)).pass.toInt) /
          (s₀.proc (slotAt 1)).stride.toInt + 1 := by
  have hrun : ((Solo.boot .stride).run (fun _ => true) (Solo.twoChildren ++ oneSlice)).any
      (fun v => v.cpu.proc = none ∧ Live (v.proc (slotAt 1)).state ∧
        birth (slotAt 1) v.trace = some ⟨.forked (.forkprio 0), 100, 100, 0⟩ ∧
        (v.proc (slotAt 1)).pass = 0 ∧ (v.proc (slotAt 2)).pass = 200 ∧
        (v.run (waiting (slotAt 2) (slotAt 1)) twoSlices).any (fun w =>
          dispatchesSince v.state w.state (slotAt 1) = 2 ∧
          (w.proc (slotAt 2)).state = .runnable) = true) = true := by
    decide +kernel
  rcases (Option.any_eq_true _ _).1 hrun with ⟨v, hv, htest⟩
  simp only [decide_eq_true_eq] at htest
  rcases htest with ⟨hmy, hlive, hbirth, hpass₁, hpass₂, hrest⟩
  rcases (Option.any_eq_true _ _).1 hrest with ⟨w, hw, hend⟩
  simp only [decide_eq_true_eq] at hend
  have hreach := Solo.run_reaches hv
  rw [Solo.boot_state] at hreach
  have hpath := waiting_path hw
  refine ⟨v.state, w.state, hreach, hpath, hend.1, ?_⟩
  have hle : (v.state.proc (slotAt 1)).pass ≤ (v.state.proc (slotAt 2)).pass := by
    rw [Solo.state_proc, hpass₁, hpass₂]
    decide
  have hout : v.state.myproc 0 ≠ some (slotAt 2) := by simp [hmy]
  exact (bounded_bypass hreach ⟨_, 0, hbirth, rfl⟩ hlive hout hpath hend.2).1 hle

/-- `init` sleeps, its child has run once, and the next scan has passed the slot of `init` when an
interrupt wakes `init` up. -/
def wokenBehind : List Choice :=
  Solo.scanOne ++ Solo.startUser ++ Solo.forkTo (.forkprio 0) 1 ++ Solo.sleepOn (.obj 0) ++ Solo.go 2 ++
    oneSlice ++ Solo.go 5 ++ [.intr false, .enter 0, .go, .wakeup (.obj 0)] ++ Solo.go 4

/-- The interrupt returns, and the scan ends with the dispatch of the child. -/
def scanEnds : List Choice := Solo.go 253 ++ [.leave, .go, .done] ++ Solo.go 253

/-- A larger `pass` does not exclude a dispatch: `init` is `RUNNABLE` with `pass = 0`, and its child
with `pass = 100` is dispatched. -/
theorem overtaken_by_larger_pass :
    ¬ ∀ (P Q : Slot) (s₀ s : State 1), Reachable (fun _ => .stride) s₀ → ForkprioBorn s₀ Q →
      Live (s₀.proc Q).state → s₀.myproc 0 ≠ some P →
      (machine 1).Path (Waiting P Q) s₀ s → (s.proc P).state = .runnable →
      ((s₀.proc Q).pass ≤ (s₀.proc P).pass → (dispatchesSince s₀ s Q : Int) ≤
          ((s₀.proc P).pass.toInt - (s₀.proc Q).pass.toInt) / (s₀.proc Q).stride.toInt + 1) ∧
      ((s₀.proc P).pass < (s₀.proc Q).pass → dispatchesSince s₀ s Q = 0) := by
  intro hall
  have hrun : ((Solo.boot .stride).run (fun _ => true) wokenBehind).any
      (fun v => v.cpu.proc = none ∧ Live (v.proc (slotAt 1)).state ∧
        birth (slotAt 1) v.trace = some ⟨.forked (.forkprio 0), 100, 100, 0⟩ ∧
        (v.proc initSlot).pass = 0 ∧ (v.proc (slotAt 1)).pass = 100 ∧
        (v.run (waiting initSlot (slotAt 1)) scanEnds).any (fun w =>
          dispatchesSince v.state w.state (slotAt 1) = 1 ∧
          (w.proc initSlot).state = .runnable) = true) = true := by
    decide +kernel
  rcases (Option.any_eq_true _ _).1 hrun with ⟨v, hv, htest⟩
  simp only [decide_eq_true_eq] at htest
  rcases htest with ⟨hmy, hlive, hbirth, hpass₀, hpass₁, hrest⟩
  rcases (Option.any_eq_true _ _).1 hrest with ⟨w, hw, hend⟩
  simp only [decide_eq_true_eq] at hend
  have hreach := Solo.run_reaches hv
  rw [Solo.boot_state] at hreach
  have hlt : (v.state.proc initSlot).pass < (v.state.proc (slotAt 1)).pass := by
    rw [Solo.state_proc, hpass₀, hpass₁]
    decide
  have hout : v.state.myproc 0 ≠ some initSlot := by simp [hmy]
  have hzero := (hall initSlot (slotAt 1) v.state w.state hreach ⟨_, 0, hbirth, rfl⟩ hlive hout
    (waiting_path hw) hend.2).2 hlt
  rw [hend.1] at hzero
  cases hzero

end Xv6Schedulers.Sched
