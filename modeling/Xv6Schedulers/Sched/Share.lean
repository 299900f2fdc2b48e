import Xv6Schedulers.Sched.Scan
import Xv6Schedulers.Sched.Overflow
import Xv6Schedulers.Lib.Proportional

/-!
# Share — proportional share under `scheduler_stride`

One hart, and a set `S` of processes created by `forkprio` that every scan finds `RUNNABLE`, and
nothing else with them.  Then the dispatches are the weighted service of `Lib/Proportional.lean`:
every dispatch serves a process of least `stride * dispatches`, so no process of `S` is ever ahead
of another by more than its own stride.
-/

namespace Xv6Schedulers.Sched

open Kernel Locking Lib

/-- The condition on the steps: a scan finds exactly the processes of `S` to be `RUNNABLE`, and no
update of `pass` leaves the range of `int`. -/
def Saturated (S : Set Slot) (s : State 1) (_a : Fin 1 × Choice) (_t : State 1) : Prop :=
  (∀ i best, s.stack (s.thread 0) = [.stride (.scan i best)] →
    ((s.proc i).state = .runnable ↔ i ∈ S)) ∧
  (∀ b, AtUpdate s 0 b → (s.proc b).pass.toInt + (s.proc b).stride.toInt < 2 ^ 31)

/-- A scan that has yet to come to slot `i`, or process `i` itself on its way out. -/
def StridePc.Before (i : Slot) : StridePc → Prop
  | .top => True
  | .next k _ => k ≤ i.val
  | .scan j _ => j.val ≤ i.val
  | .back b => b = i

variable {S : Set Slot} {s₀ s t : State 1}

/-! ## The processes of the set stay -/

/-- The processes of `S` exist; one that has exited has not been seen by a scan since. -/
structure Kept (S : Set Slot) (s : State 1) : Prop where
  exist : ∀ i ∈ S, (s.proc i).state ≠ .unused ∧ (s.proc i).state ≠ .used
  dead : ∀ i ∈ S, (s.proc i).state = .zombie →
    ∀ pc, .stride pc ∈ s.stack (.hart 0) → StridePc.Before i pc

theorem hart_of_cur (h : StrideInv s) {p : Slot} (hcur : s.cur 0 = some p) :
    s.stack (.hart 0) = [.stride (.back p)] := by
  rcases h.inv.proc.resting 0 p hcur with ⟨cl, hst⟩ | hst
  · refine (h.only (.hart 0) (.back cl p) ?_).elim
    rw [hst]
    exact List.mem_singleton_self _
  · exact hst

theorem before_seg {pc pc' : StridePc} {ws : List Write} {fs : Stack} {i : Slot}
    (hseg : StrideSeg s pc ws fs) (hpc : StridePc.Before i pc)
    (hdead : (s.proc i).state = .zombie)
    (hvisit : ∀ best, pc = .scan i best → (s.proc i).state = .runnable)
    (hpc' : .stride pc' ∈ fs) : StridePc.Before i pc' := by
  -- the slot under the scan is not the zombie
  have hne : ∀ j best, pc = .scan j best → j.val + 1 ≤ i.val := by
    rintro j best rfl
    have hij : j ≠ i := by
      rintro rfl
      simp [hvisit best rfl] at hdead
    have hle : j.val ≤ i.val := hpc
    have hval := Fin.val_ne_of_ne hij
    omega
  cases hseg with
  | begin =>
    have h : pc' = .next 0 none := by simpa using hpc'
    simp [h, StridePc.Before]
  | @visit j best =>
    have h : pc' = .scan j best := by simpa using hpc'
    rw [h]
    exact hpc
  | @dispatch k b hk =>
    have hle : k ≤ i.val := hpc
    omega
  | idle _ =>
    have h : pc' = .top := by simpa using hpc'
    simp [h, StridePc.Before]
  | @first j _ =>
    have h : pc' = .next (j.val + 1) (some j) := by simpa using hpc'
    rw [h]
    exact hne j none rfl
  | @better j b _ _ =>
    have h : pc' = .next (j.val + 1) (some j) := by simpa using hpc'
    rw [h]
    exact hne j (some b) rfl
  | @worse j b _ _ =>
    have h : pc' = .next (j.val + 1) (some b) := by simpa using hpc'
    rw [h]
    exact hne j (some b) rfl
  | @skip j best _ =>
    have h : pc' = .next (j.val + 1) best := by simpa using hpc'
    rw [h]
    exact hne j best rfl
  | back =>
    have h : pc' = .top := by simpa using hpc'
    simp [h, StridePc.Before]

theorem kept_move {a : Fin 1 × Choice} (h : StrideInv s) (hm : Move s 0 t) (hk : Kept S s)
    (hguard : Saturated S s a t) : Kept S t := by
  constructor
  · intro i hi
    rcases hk.exist i hi with ⟨hunused, hused⟩
    have hlife := move_life h.inv hm i
    constructor
    · intro ht
      rcases hlife.unused ht with hs | ⟨hs, p, hp, hne⟩
      · exact hunused hs
      · -- a zombie of `S` is reaped by a process that a scan must have chosen after it
        have hbefore := hk.dead i hi hs (.back p) (by simp [hart_of_cur h hp])
        exact hne hbefore
    · intro ht
      rcases hlife.used ht with hs | hs
      · exact hused hs
      · exact hunused hs
  · intro i hi ht pc' hpc'
    rcases stride_turn h hm with ⟨pc, ws, fs, hcur, hst, hseg, rfl⟩ | hin
    · rw [after_hart hcur] at hpc'
      have hs : (s.proc i).state = .zombie := by
        rcases (move_life h.inv hm i).zombie ht with hs | hs
        · exact hs
        · simp [hcur] at hs
      refine before_seg hseg (hk.dead i hi hs pc (by simp [hst])) hs ?_ hpc'
      rintro best rfl
      exact (hguard.1 i best (by rw [State.thread_of_cur_none hcur, hst])).2 hi
    · rw [hin.frames 0 _ rfl] at hpc'
      rcases (move_life h.inv hm i).zombie ht with hs | hs
      · exact hk.dead i hi hs pc' hpc'
      · rw [hart_of_cur h hs] at hpc'
        have hback : pc' = .back i := by simpa using hpc'
        simp [hback, StridePc.Before]

/-! ## The invariant -/

/-- What holds in every state of a saturated run from `s₀`. -/
structure ShareInv (S : Set Slot) (s₀ s : State 1) : Prop where
  inv : StrideInv s
  kept : Kept S s
  scanned : Scanned S s
  counted : Counted s₀ s
  stride : ∀ i ∈ S, (s.proc i).stride = (s₀.proc i).stride
  pass : ∀ i ∈ S, (s.proc i).pass.toInt = (s₀.proc i).stride.toInt * returnsSince s₀ s i
  balanced : Balanced (fun i => (s₀.proc i).stride.toInt) S (dispatchesSince s₀ s)

section Step

variable (h : ShareInv S s₀ s)

include h

theorem ShareInv.pass_of_idle (h₀ : s₀.myproc 0 = none) (hmy : s.myproc 0 = none) {i : Slot}
    (hi : i ∈ S) :
    (s.proc i).pass.toInt = (s₀.proc i).stride.toInt * dispatchesSince s₀ s i := by
  have hbalance := h.counted.balance i
  simp only [onHart, h₀, hmy, reduceCtorEq, if_false, Nat.add_zero] at hbalance
  rw [h.pass i hi, hbalance]

/-- A dispatch serves a process of least total. -/
theorem ShareInv.balanced_dispatch {b : Slot} (h₀ : s₀.myproc 0 = none) (hmy : s.myproc 0 = none)
    (hw : ∀ i ∈ S, 0 ≤ (s₀.proc i).stride.toInt)
    (hmin : ∀ i ∈ S, (s.proc b).pass.toInt ≤ (s.proc i).pass.toInt)
    (hd : ∀ i, dispatchesSince s₀ t i = dispatchesSince s₀ s i + if i = b then 1 else 0) :
    Balanced (fun i => (s₀.proc i).stride.toInt) S (dispatchesSince s₀ t) := by
  by_cases hb : b ∈ S
  · refine h.balanced.serve (b := b) hw ?_ (by simp [hd]) (fun i hi => by simp [hd, hi])
    intro j hj
    have hle := hmin j hj
    rwa [h.pass_of_idle h₀ hmy hb, h.pass_of_idle h₀ hmy hj] at hle
  · refine h.balanced.congr ?_
    intro i hi
    have hib : i ≠ b := by
      rintro rfl
      exact hb hi
    simp [hd, hib]

end Step

theorem shareInv_move {a : Fin 1 × Choice} (h : ShareInv S s₀ s) (h₀ : s₀.myproc 0 = none)
    (hw : ∀ i ∈ S, 0 ≤ (s₀.proc i).stride.toInt) (hrun : (s.cpu 0).panicked = none)
    (hm : Move s 0 t) (hguard : Saturated S s a t) : ShareInv S s₀ t := by
  have hround := move_round h.inv hm
  have hscanned : Scanned S t := by
    refine scanned_move h.inv hm h.scanned ?_
    intro i hi best hst
    have hmem : .stride (.scan i best) ∈ s.stack (.hart 0) := by simp [hst]
    have hcur : s.cur 0 = none := cur_of_front h.inv.inv.proc hmem rfl
    exact (hguard.1 i best (by rw [State.thread_of_cur_none hcur, hst])).2 hi
  have hkept := kept_move h.inv hm h.kept hguard
  have hcounted := h.counted.round hround
  have hinv := strideInv_move h.inv hrun hm
  cases hround with
  | quiet hview hfields =>
    have hd : ∀ i, dispatches i t.trace = dispatches i s.trace :=
      congrFun (congrArg LoopView.dispatches hview)
    have hr : ∀ i, returns i t.trace = returns i s.trace :=
      congrFun (congrArg LoopView.returns hview)
    have hsame : ∀ i ∈ S, (t.proc i).pass = (s.proc i).pass ∧
        (t.proc i).stride = (s.proc i).stride := fun i hi =>
      hfields i (.inl (h.kept.exist i hi).1)
    refine ⟨hinv, hkept, hscanned, hcounted, ?_, ?_, h.balanced.congr fun i _ => by
      simp [dispatchesSince, hd]⟩
    · intro i hi
      rw [(hsame i hi).2, h.stride i hi]
    · intro i hi
      rw [(hsame i hi).1, h.pass i hi]
      simp [returnsSince, hr]
  | dispatch b hst hk _ hmy hmy' hd hr hfields =>
    refine ⟨hinv, hkept, hscanned, hcounted, ?_, ?_, ?_⟩
    · intro i hi
      rw [(hfields i).2, h.stride i hi]
    · intro i hi
      rw [(hfields i).1, h.pass i hi]
      simp [returnsSince, hr]
    · exact h.balanced_dispatch h₀ hmy hw (h.scanned.chosen hst hk)
        (h.counted.dispatchesSince_eq hd)
  | update b hst hcur hmy hmy' hd hr hpass hother hstride =>
    have hrs := h.counted.returnsSince_eq hr
    have hat : AtUpdate s 0 b := ⟨[], by rw [State.thread_of_cur_none hcur, hst]⟩
    refine ⟨hinv, hkept, hscanned, hcounted, ?_, ?_, h.balanced.congr fun i _ => by
      simp [dispatchesSince, hd]⟩
    · intro i hi
      rw [hstride, h.stride i hi]
    · intro i hi
      by_cases hib : i = b
      · subst hib
        have hexact : (s.proc i).pass.toInt =
            0 + (s.proc i).stride.toInt * returnsSince s₀ s i := by
          rw [h.pass i hi, h.stride i hi, Int.zero_add]
        have hpos : 0 ≤ (s.proc i).stride.toInt := by
          rw [h.stride i hi]
          exact hw i hi
        rw [hpass, toInt_charge hexact hpos (hguard.2 i hat), h.stride i hi, hrs, if_pos rfl,
          Int.zero_add]
      · rw [hother i hib, h.pass i hi, hrs, if_neg hib, Nat.add_zero]

/-! ## Proportional share -/

/-- From a state where the scheduler is at the head of its loop and the processes of `S`, all
created by `forkprio`, have `pass = 0`: however long every scan finds exactly `S` to be `RUNNABLE`
and no update overflows, no process of `S` is ahead of another by more than its own stride. -/
theorem proportional_share (h₀ : Reachable (fun _ => .stride) s₀)
    (htop : s₀.stack (.hart 0) = [.stride .top])
    (hS : ∀ i ∈ S, Live (s₀.proc i).state ∧ ForkprioBorn s₀ i ∧ (s₀.proc i).pass = 0)
    (h : (machine 1).Path (Saturated S) s₀ s) :
    ∀ i ∈ S, ∀ j ∈ S, (dispatchesSince s₀ s i : Int) * (s₀.proc i).stride.toInt ≤
        dispatchesSince s₀ s j * (s₀.proc j).stride.toInt + (s₀.proc i).stride.toInt := by
  have hinv := strideInv_reachable h₀
  have hmy : s₀.myproc 0 = none := by
    rw [hinv.inv.proc.myproc 0, htop]
    rfl
  have hw : ∀ i ∈ S, 0 ≤ (s₀.proc i).stride.toInt := by
    intro i hi
    rcases hS i hi with ⟨hlive, hborn, -⟩
    have hone := (hinv.forkprio_facts (.inl hlive) hborn).2.2
    omega
  have hstart : ShareInv S s₀ s₀ := by
    refine ⟨hinv, ⟨?_, ?_⟩, ?_, .refl s₀, fun _ _ => rfl, ?_, .zero hw ?_⟩
    · intro i hi
      rcases (hS i hi).1 with hl | hl | hl | hl <;> simp [hl]
    · intro i _ _ pc hpc
      have hpc' : pc = .top := by simpa [htop] using hpc
      simp [hpc', StridePc.Before]
    · intro pc k best hpc hfront
      have hpc' : pc = .top := by simpa [htop] using hpc
      simp [hpc', StridePc.front] at hfront
    · intro i hi
      simp [(hS i hi).2.2, returnsSince]
    · intro i _
      simp [dispatchesSince]
  have hend : ShareInv S s₀ s := by
    refine h.invariant hstart ?_
    intro t a u ht hstep hguard
    rcases a with ⟨c, ch⟩
    have hc : c = 0 := Subsingleton.elim c 0
    subst hc
    rcases step_move hstep with ⟨hrun, hm⟩
    exact shareInv_move ht hmy hw hrun hm hguard
  intro i hi j hj
  have hle := hend.balanced i hi j hj
  linarith

def saturated (S : List Slot) (v : Solo) : Bool :=
  match v.top with
  | .stride (.scan i _) :: _ => decide ((v.proc i).state = .runnable ↔ i ∈ S)
  | .stride (.back b) :: _ => decide ((v.proc b).pass.toInt + (v.proc b).stride.toInt < 2 ^ 31)
  | _ => true

theorem saturated_path {S : List Slot} {v w : Solo} {chs : List Choice}
    (h : v.run (saturated S) chs = some w) :
    (machine 1).Path (Saturated { i | i ∈ S }) v.state w.state := by
  refine Solo.run_path h ?_
  rintro v hv s ch t (rfl | ⟨-, -, l, rest, hspin⟩)
  · constructor
    · intro i best hst
      rw [Solo.state_top] at hst
      simpa [saturated, hst] using hv
    · rintro b ⟨rest, hst⟩
      rw [Solo.state_top] at hst
      simp only [saturated, hst, decide_eq_true_eq] at hv
      exact hv
  · constructor
    · intro i best hst
      simp [hspin] at hst
    · rintro b ⟨rest', hst⟩
      simp [hspin] at hst

/-- Two time slices, and a third dispatch. -/
def threeDispatches : List Choice :=
  Solo.scanOne ++ Solo.startUser ++ Solo.preempt ++ Solo.go 2 ++ Solo.scanOne ++ Solo.startUser ++
    Solo.preempt ++ Solo.go 2 ++ Solo.scanOne ++ Solo.go 2

/-- Strides 100 and 200, two dispatches and one. -/
theorem proportional_share_pair : ∃ s₀ s : State 1, Reachable (fun _ => .stride) s₀ ∧
      (machine 1).Path (Saturated { i | i ∈ [slotAt 1, slotAt 2] }) s₀ s ∧
      dispatchesSince s₀ s (slotAt 1) = 2 ∧ dispatchesSince s₀ s (slotAt 2) = 1 ∧
      (dispatchesSince s₀ s (slotAt 1) : Int) * (s₀.proc (slotAt 1)).stride.toInt ≤
        dispatchesSince s₀ s (slotAt 2) * (s₀.proc (slotAt 2)).stride.toInt +
          (s₀.proc (slotAt 1)).stride.toInt := by
  have hrun : ((Solo.boot .stride).run (fun _ => true) Solo.twoChildren).any (fun v =>
      v.hart = [.stride .top] ∧
      (v.proc (slotAt 1)).state = .runnable ∧ (v.proc (slotAt 2)).state = .runnable ∧
      (v.proc (slotAt 1)).pass = 0 ∧ (v.proc (slotAt 2)).pass = 0 ∧
      birth (slotAt 1) v.trace = some ⟨.forked (.forkprio 0), 100, 100, 0⟩ ∧
      birth (slotAt 2) v.trace = some ⟨.forked (.forkprio 1), 50, 200, 0⟩ ∧
      (v.run (saturated [slotAt 1, slotAt 2]) threeDispatches).any (fun w =>
        dispatchesSince v.state w.state (slotAt 1) = 2 ∧
        dispatchesSince v.state w.state (slotAt 2) = 1) = true) = true := by
    decide +kernel
  rcases (Option.any_eq_true _ _).1 hrun with ⟨v, hv, htest⟩
  simp only [decide_eq_true_eq] at htest
  rcases htest with ⟨htop, hrun₁, hrun₂, hpass₁, hpass₂, hbirth₁, hbirth₂, hrest⟩
  rcases (Option.any_eq_true _ _).1 hrest with ⟨w, hw, hcounts⟩
  simp only [decide_eq_true_eq] at hcounts
  have hreach := Solo.run_reaches hv
  rw [Solo.boot_state] at hreach
  have hpath := saturated_path hw
  refine ⟨v.state, w.state, hreach, hpath, hcounts.1, hcounts.2, ?_⟩
  refine proportional_share hreach htop ?_ hpath (slotAt 1) (by simp) (slotAt 2) (by simp)
  intro i hi
  simp only [List.mem_cons, List.not_mem_nil, or_false, Set.mem_ofPred_eq] at hi
  rcases hi with rfl | rfl
  · exact ⟨.inl hrun₁, ⟨_, 0, hbirth₁, rfl⟩, hpass₁⟩
  · exact ⟨.inl hrun₂, ⟨_, 1, hbirth₂, rfl⟩, hpass₂⟩

end Xv6Schedulers.Sched
