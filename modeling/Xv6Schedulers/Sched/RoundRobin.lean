import Xv6Schedulers.Sched.Turn
import Xv6Schedulers.Kernel.Solo
import Xv6Schedulers.Lib.Cyclic

/-!
# RoundRobin — the cursors of `scheduler_loteria` on one hart

Each class has a cursor `last_index`; a round scans the table from the cursor of the drawn class and
dispatches the first `RUNNABLE` process of that class.  The cursor moves behind the dispatched
process only when that process has given the hart back, so the invariant speaks about the cursor the
class will have then (`LoteriaPc.cursor`).

* The cursors stay in the table.
* While a process `P` of the class waits, every cursor position meets `P` before a process `Q` that
  has been dispatched since (`Waits.ahead`), so `Q` is not dispatched again before `P`.
-/

namespace Xv6Schedulers.Sched

open Kernel Locking Lib

variable {s t : State 1}

/-! ## The loop -/

/-- The cursor of class `c` once the process on the hart has been given back. -/
def LoteriaPc.cursor (last : Classe → Nat) (c : Classe) : LoteriaPc → Nat
  | .back cl idx | .done cl idx => if cl = c then (idx.val + 1) % NPROC else last c
  | _ => last c

/-- The class of the round, its start, and how many slots it has passed. -/
def LoteriaPc.progress : LoteriaPc → Option (Classe × Nat × Nat)
  | .next cl start i | .scan cl start i => some (cl, start, i)
  | _ => none

/-- What holds in every state of a run of `scheduler_loteria`. -/
structure LoteriaInv (s : State 1) : Prop where
  inv : Inv s
  only : ∀ pc, .stride pc ∉ s.stack (.hart 0)
  range : ∀ cl, s.lastIndex cl < NPROC
  start : ∀ pc cl start i, .loteria pc ∈ s.stack (.hart 0) →
    LoteriaPc.progress pc = some (cl, start, i) → start = s.lastIndex cl

theorem loteria_turn (h : LoteriaInv s) (hm : Move s 0 t) :
    (∃ pc ws fs, s.cur 0 = none ∧ s.stack (.hart 0) = [.loteria pc] ∧ LoteriaSeg s pc ws fs ∧
      t = after s 0 ws fs) ∨ Inside s t 0 := by
  rcases turn_cases h.inv hm with ⟨f, ws, fs, hf, hcur, hst, hseg, ht⟩ | hin
  · cases hseg with
    | loteria hseg => exact .inl ⟨_, ws, fs, hcur, hst, hseg, ht⟩
    | @stride pc => exact (h.only pc (by simp [hst])).elim
    | _ => simp [Frame.isLoop] at hf
  · exact .inr hin

attribute [local simp] LoteriaPc.progress LoteriaPc.cursor

theorem loteriaInv_move (h : LoteriaInv s) (hrun : (s.cpu 0).panicked = none) (hm : Move s 0 t) :
    LoteriaInv t := by
  have hinv := move_inv h.inv hrun hm
  rcases loteria_turn h hm with ⟨pc, ws, fs, hcur, hst, hseg, rfl⟩ | hin
  · have hstart := fun cl start i => h.start pc cl start i (by simp [hst])
    have hlt := fun k => Nat.mod_lt k NPROC_pos
    refine ⟨hinv, ?_, ?_, ?_⟩
    · intro pc' hpc'
      rw [after_hart hcur] at hpc'
      cases hseg <;> simp at hpc'
    · intro cl
      cases hseg with
      | @done cl' idx =>
        by_cases hcl : cl = cl'
        · simpa [hcl] using hlt _
        · simpa [hcl] using h.range cl
      | _ => simpa using h.range cl
    · intro pc' cl start i hpc' hprog
      rw [after_hart hcur] at hpc'
      cases hseg with
      | draw cl' =>
        have hpc : pc' = .next cl' (s.lastIndex cl') 0 := by simpa using hpc'
        simp only [hpc, LoteriaPc.progress, Option.some.injEq, Prod.mk.injEq] at hprog
        rcases hprog with ⟨rfl, rfl, -⟩
        simp
      | @visit cl' start' i' _ =>
        have hpc : pc' = .scan cl' start' i' := by simpa using hpc'
        rw [hpc] at hprog
        simpa using hstart cl start i hprog
      | round _ =>
        have hpc : pc' = .top := by simpa using hpc'
        simp [hpc] at hprog
      | @dispatch cl' start' i' _ _ =>
        have hpc : pc' = .back cl' (slotAt (start' + i')) := by simpa using hpc'
        simp [hpc] at hprog
      | @skip cl' start' i' _ =>
        have hpc : pc' = .next cl' start' (i' + 1) := by simpa using hpc'
        simp only [hpc, LoteriaPc.progress, Option.some.injEq, Prod.mk.injEq] at hprog
        rcases hprog with ⟨rfl, rfl, -⟩
        simpa using hstart cl' start' i' rfl
      | @back cl' idx =>
        have hpc : pc' = .done cl' idx := by simpa using hpc'
        simp [hpc] at hprog
      | done =>
        have hpc : pc' = .top := by simpa using hpc'
        simp [hpc] at hprog
  · refine ⟨hinv, ?_, ?_, ?_⟩
    · intro pc hpc
      exact h.only pc ((hin.frames 0 _ rfl).1 hpc)
    · intro cl
      rw [hin.lastIndex_eq]
      exact h.range cl
    · intro pc cl start i hpc hprog
      rw [hin.lastIndex_eq]
      exact h.start pc cl start i ((hin.frames 0 _ rfl).1 hpc) hprog

theorem loteriaInv_reachable (h : Reachable (fun _ => .loteria) s) : LoteriaInv s := by
  refine h.invariant ⟨boot_inv _, ?_, ?_, ?_⟩ ?_
  · intro pc hpc
    simp [boot, SchedMode.stack] at hpc
  · intro cl
    exact NPROC_pos
  · intro pc cl start i hpc hprog
    have hpc' : pc = .top := by simpa [boot, SchedMode.stack] using hpc
    simp [hpc'] at hprog
  · intro s a t hs hstep
    rcases a with ⟨c, ch⟩
    have hc : c = 0 := Subsingleton.elim c 0
    subst hc
    rcases step_move hstep with ⟨hrun, hm⟩
    exact loteriaInv_move hs hrun hm

/-! ## A process that waits -/

/-- The condition on the states of a stretch: `P` and `Q` are processes of class `c`, and `P` is
`RUNNABLE` whenever it is not the process of the hart. -/
def Stays (c : Classe) (P Q : Slot) (s : State 1) (_a : Fin 1 × Choice) (_t : State 1) : Prop :=
  (s.proc P).classe = c.toInt32 ∧ (s.proc Q).classe = c.toInt32 ∧
    ((s.proc P).state = .runnable ∨ s.myproc 0 = some P)

/-- Neither `P` nor `Q` has been dispatched since `s₀`, and the cursor of the class meets `P` before
`Q`. -/
structure Waits (c : Classe) (P Q : Slot) (s₀ s : State 1) : Prop where
  dispatchesP : dispatches P s.trace = dispatches P s₀.trace
  dispatchesQ : dispatches Q s.trace = dispatches Q s₀.trace
  out : s.myproc 0 ≠ some P
  ahead : ∀ pc, .loteria pc ∈ s.stack (.hart 0) →
    gap NPROC (LoteriaPc.cursor s.lastIndex c pc) P.val <
      gap NPROC (LoteriaPc.cursor s.lastIndex c pc) Q.val
  /-- the round under way has not passed `P` -/
  notPassed : ∀ pc start i, .loteria pc ∈ s.stack (.hart 0) →
    LoteriaPc.progress pc = some (c, start, i) → i ≤ gap NPROC start P.val

variable {c : Classe} {P Q : Slot} {s₀ : State 1}

theorem Waits.inside (h : Waits c P Q s₀ s) (hin : Inside s t 0) : Waits c P Q s₀ t := by
  refine ⟨?_, ?_, ?_, ?_, ?_⟩
  · rw [hin.dispatches_eq, h.dispatchesP]
  · rw [hin.dispatches_eq, h.dispatchesQ]
  · rw [hin.myproc_eq]
    exact h.out
  · intro pc hpc
    rw [hin.lastIndex_eq]
    exact h.ahead pc ((hin.frames 0 _ rfl).1 hpc)
  · intro pc start i hpc
    exact h.notPassed pc start i ((hin.frames 0 _ rfl).1 hpc)

theorem slotAt_inj {k : Nat} {i : Slot} : slotAt k = i ↔ k % NPROC = i.val := by
  constructor
  · rintro rfl
    rfl
  · intro h
    exact Fin.ext h

theorem lt_gap_of_ne {start i : Nat} (hstart : start < NPROC) (hi : i ≤ gap NPROC start P.val)
    (hne : slotAt (start + i) ≠ P) : i < gap NPROC start P.val := by
  refine Nat.lt_of_le_of_ne hi ?_
  intro heq
  apply hne
  rw [slotAt_inj, heq]
  exact add_gap hstart P.isLt

theorem Waits.at_pc (pc : LoteriaPc) (hP : dispatches P s.trace = dispatches P s₀.trace)
    (hQ : dispatches Q s.trace = dispatches Q s₀.trace) (hout : s.myproc 0 ≠ some P)
    (hpc : ∀ q, .loteria q ∈ s.stack (.hart 0) → q = pc)
    (hahead : gap NPROC (LoteriaPc.cursor s.lastIndex c pc) P.val <
      gap NPROC (LoteriaPc.cursor s.lastIndex c pc) Q.val)
    (hnot : ∀ start i, LoteriaPc.progress pc = some (c, start, i) → i ≤ gap NPROC start P.val) :
    Waits c P Q s₀ s := by
  refine ⟨hP, hQ, hout, ?_, ?_⟩
  · intro q hq
    rw [hpc q hq]
    exact hahead
  · intro q start i hq
    rw [hpc q hq]
    exact hnot start i

theorem Classe.toInt32_inj {c d : Classe} (h : c.toInt32 = d.toInt32) : c = d := by
  cases c <;> cases d <;> first | rfl | exact absurd h (by decide)

theorem waits_seg {pc : LoteriaPc} {ws : List Write} {fs : Stack} {a : Fin 1 × Choice}
    (h : Waits c P Q s₀ s) (hl : LoteriaInv s) (hguard : Stays c P Q s a t)
    (hcur : s.cur 0 = none) (hst : s.stack (.hart 0) = [.loteria pc])
    (hseg : LoteriaSeg s pc ws fs) :
    Waits c P Q s₀ (after s 0 ws fs) ∨
      dispatches P (after s 0 ws fs).trace = dispatches P s₀.trace + 1 := by
  have hpc : .loteria pc ∈ s.stack (.hart 0) := by simp [hst]
  have hahead := h.ahead pc hpc
  have hnot := fun start i => h.notPassed pc start i hpc
  rcases hguard with ⟨hclassP, hclassQ, hP⟩
  replace hP : (s.proc P).state = .runnable := hP.resolve_right h.out
  have hstack : (after s 0 ws fs).stack (.hart 0) = fs := after_hart hcur ws fs
  cases hseg with
  | draw cl =>
    refine .inl (.at_pc (.next cl (s.lastIndex cl) 0) ?_ ?_ ?_ ?_ ?_ ?_)
    · simpa using h.dispatchesP
    · simpa using h.dispatchesQ
    · simpa using h.out
    · simp [hstack]
    · simpa using hahead
    · intro start i hprog
      simp only [LoteriaPc.progress, Option.some.injEq, Prod.mk.injEq] at hprog
      omega
  | @visit cl start i _ =>
    refine .inl (.at_pc (.scan cl start i) ?_ ?_ ?_ ?_ ?_ ?_)
    · simpa using h.dispatchesP
    · simpa using h.dispatchesQ
    · simpa using h.out
    · simp [hstack]
    · simpa using hahead
    · exact hnot
  | round _ =>
    refine .inl (.at_pc .top ?_ ?_ ?_ ?_ ?_ ?_)
    · simpa using h.dispatchesP
    · simpa using h.dispatchesQ
    · simpa using h.out
    · simp [hstack]
    · simpa using hahead
    · simp
  | @dispatch cl start i _ hclasse =>
    by_cases hidx : slotAt (start + i) = P
    · right
      rw [← h.dispatchesP]
      simp [dispatches, hidx]
    · left
      -- a round of the class stands before `P`, a round of another class changes no cursor
      have hmeet : slotAt (start + i) ≠ Q ∧
          gap NPROC (LoteriaPc.cursor s.lastIndex c (.back cl (slotAt (start + i)))) P.val <
            gap NPROC (LoteriaPc.cursor s.lastIndex c (.back cl (slotAt (start + i)))) Q.val := by
        by_cases hcl : cl = c
        · subst hcl
          have hstart : start = s.lastIndex cl := hl.start _ cl start i hpc rfl
          have hrange : start < NPROC := hstart ▸ hl.range cl
          have hlt := lt_gap_of_ne hrange (hnot start i rfl) hidx
          have hahead' : gap NPROC start P.val < gap NPROC start Q.val := by
            rw [hstart]
            exact hahead
          constructor
          · intro hQ
            rw [slotAt_inj] at hQ
            have hgap := eq_gap hrange (Nat.lt_trans hlt (gap_lt P.isLt))
            rw [hQ] at hgap
            omega
          · simp only [LoteriaPc.cursor, if_true]
            exact gap_advance hrange P.isLt Q.isLt hlt hahead'
        · constructor
          · rintro hQ
            rw [hQ, hclassQ] at hclasse
            exact hcl (Classe.toInt32_inj hclasse).symm
          · simpa [hcl] using hahead
      refine .at_pc (.back cl (slotAt (start + i))) ?_ ?_ ?_ ?_ ?_ ?_
      · rw [← h.dispatchesP]
        simp [dispatches, hidx]
      · rw [← h.dispatchesQ]
        simp [dispatches, hmeet.1]
      · simpa using hidx
      · simp [hstack]
      · exact hmeet.2
      · simp
  | @skip cl start i hskip =>
    refine .inl (.at_pc (.next cl start (i + 1)) ?_ ?_ ?_ ?_ ?_ ?_)
    · simpa using h.dispatchesP
    · simpa using h.dispatchesQ
    · simpa using h.out
    · simp [hstack]
    · simpa using hahead
    · intro start' i' hprog
      simp only [LoteriaPc.progress, Option.some.injEq, Prod.mk.injEq] at hprog
      rcases hprog with ⟨rfl, rfl, rfl⟩
      have hrange : start < NPROC := (hl.start _ cl start i hpc rfl) ▸ hl.range cl
      refine lt_gap_of_ne hrange (hnot start i rfl) ?_
      -- `P` itself would have been dispatched
      intro hidx
      rw [hidx] at hskip
      exact hskip ⟨hP, hclassP⟩
  | @back cl idx =>
    refine .inl (.at_pc (.done cl idx) ?_ ?_ ?_ ?_ ?_ ?_)
    · rw [← h.dispatchesP]
      simp [dispatches]
    · rw [← h.dispatchesQ]
      simp [dispatches]
    · simp
    · simp [hstack]
    · simpa using hahead
    · simp
  | @done cl idx =>
    refine .inl (.at_pc .top ?_ ?_ ?_ ?_ ?_ ?_)
    · simpa using h.dispatchesP
    · simpa using h.dispatchesQ
    · simpa using h.out
    · simp [hstack]
    · by_cases hcl : cl = c
      · subst hcl
        simpa using hahead
      · simpa [hcl, Ne.symm hcl] using hahead
    · simp

theorem waits_move {a : Fin 1 × Choice} (h : Waits c P Q s₀ s) (hl : LoteriaInv s)
    (hguard : Stays c P Q s a t) (hm : Move s 0 t) :
    Waits c P Q s₀ t ∨ dispatches P t.trace = dispatches P s₀.trace + 1 := by
  rcases loteria_turn hl hm with ⟨pc, ws, fs, hcur, hst, hseg, rfl⟩ | hin
  · exact waits_seg h hl hguard hcur hst hseg
  · exact .inl (h.inside hin)

theorem dispatches_mono (hl : LoteriaInv s) (hm : Move s 0 t) (i : Slot) :
    dispatches i s.trace ≤ dispatches i t.trace := by
  rcases loteria_turn hl hm with ⟨pc, ws, fs, hcur, hst, hseg, rfl⟩ | hin
  · cases hseg with
    | dispatch _ _ =>
      simp only [State.writes_trace, State.setStack_trace, dispatches, List.foldl_cons,
        List.foldl_nil, Write.onTrace]
      exact List.count_le_count_cons
    | _ => simp [dispatches]
  · rw [hin.dispatches_eq]

theorem waits_of_dispatch (hl : LoteriaInv s) (hm : Move s 0 t) (hPQ : P ≠ Q)
    (hclass : (s.proc Q).classe = c.toInt32)
    (hdispatch : dispatches Q t.trace = dispatches Q s.trace + 1) : Waits c P Q t t := by
  rcases loteria_turn hl hm with ⟨pc, ws, fs, hcur, hst, hseg, rfl⟩ | hin
  · cases hseg with
    | @dispatch cl start i _ hclasse =>
      have hQ : slotAt (start + i) = Q := by
        by_contra hne
        simp [dispatches, hne] at hdispatch
      rw [hQ] at hclasse ⊢
      have hcl : cl = c := by
        apply Classe.toInt32_inj
        rw [← hclasse, hclass]
      subst hcl
      refine .at_pc (.back cl Q) rfl rfl ?_ ?_ ?_ ?_
      · simpa using hPQ.symm
      · simp [after_hart hcur]
      · simp only [LoteriaPc.cursor, if_true]
        exact gap_succ_lt P.isLt Q.isLt (Fin.val_ne_of_ne hPQ)
      · simp
    | _ => simp [dispatches] at hdispatch
  · rw [hin.dispatches_eq] at hdispatch
    omega

/-! ## Round robin -/

/-- For every run of `scheduler_loteria` on one hart: the cursors stay in the table, and if two
processes `P` and `Q` have the same class and `P` stays `RUNNABLE` whenever it is not running, then
after a dispatch of `Q` the next dispatch of `Q` comes only after one of `P`. -/
theorem round_robin (h : Reachable (fun _ => .loteria) s) : (∀ cl, s.lastIndex cl < NPROC) ∧
    ∀ c P Q a s₀ t, (machine 1).step s a = some s₀ → P ≠ Q → (s.proc Q).classe = c.toInt32 →
      dispatches Q s₀.trace = dispatches Q s.trace + 1 → (machine 1).Path (Stays c P Q) s₀ t →
      1 ≤ dispatchesSince s₀ t Q → 1 ≤ dispatchesSince s₀ t P := by
  have hl := loteriaInv_reachable h
  refine ⟨hl.range, ?_⟩
  intro c P Q a s₀ t hstep hPQ hclass hdispatch hpath
  have hzero : ∀ a : Fin 1 × Choice, a.1 = 0 := fun a => Subsingleton.elim _ _
  rcases step_move hstep with ⟨hrun, hm⟩
  rw [hzero a] at hrun hm
  -- either `P` has been dispatched, or neither has and the cursor meets `P` first
  have hinv : LoteriaInv t ∧ (Waits c P Q s₀ t ∨ dispatches P s₀.trace < dispatches P t.trace) := by
    refine hpath.invariant
      (I := fun t => LoteriaInv t ∧ (Waits c P Q s₀ t ∨ dispatches P s₀.trace < dispatches P t.trace))
      ⟨loteriaInv_move hl hrun hm, .inl (waits_of_dispatch hl hm hPQ hclass hdispatch)⟩ ?_
    intro t b u ht hstep' hguard
    rcases ht with ⟨hlt, ht⟩
    rcases step_move hstep' with ⟨hrun', hm'⟩
    rw [hzero b] at hrun' hm'
    refine ⟨loteriaInv_move hlt hrun' hm', ?_⟩
    rcases ht with hw | hgt
    · rcases waits_move hw hlt hguard hm' with hw' | heq
      · exact .inl hw'
      · exact .inr (by omega)
    · exact .inr (Nat.lt_of_lt_of_le hgt (dispatches_mono hlt hm' P))
  rcases hinv.2 with hw | hgt
  · intro hone
    simp [dispatchesSince, hw.dispatchesQ] at hone
  · intro _
    simp only [dispatchesSince]
    omega

def stays (c : Classe) (P Q : Slot) (v : Solo) : Bool :=
  decide ((v.proc P).classe = c.toInt32 ∧ (v.proc Q).classe = c.toInt32 ∧
    ((v.proc P).state = .runnable ∨ v.cpu.proc = some P))

theorem stays_path {v w : Solo} {chs : List Choice} (h : v.run (stays c P Q) chs = some w) :
    (machine 1).Path (Stays c P Q) v.state w.state := by
  refine Solo.run_path h ?_
  intro v hv s ch t hs
  simp only [stays, decide_eq_true_eq] at hv
  rcases hs with rfl | ⟨hproc, hmy, -⟩
  · exact hv
  · simpa [Stays, hproc, hmy] using hv

/-- Two children of class 0 while `init` sleeps, up to the scan that chooses the first. -/
def twoOfClass0 : List Choice :=
  Solo.drawInit ++ Solo.forkTo (.fork 0) 1 ++ Solo.forkTo (.fork 0) 2 ++ Solo.sleepOn (.obj 0) ++
    Solo.go 3 ++ [.draw .class0] ++ Solo.go 2

/-- A time slice of the first, one of the second, and again a dispatch of the first. -/
def aroundTheTable : List Choice :=
  Solo.go 3 ++ [.done, .go] ++ Solo.preempt ++ Solo.go 3 ++ [.draw .class0] ++ Solo.go 6 ++
    [.done, .go] ++ Solo.preempt ++ Solo.go 3 ++ [.draw .class0] ++ Solo.go 251

/-- Between two dispatches of the first child the second one is dispatched. -/
theorem round_robin_pair : ∃ s s₀ t : State 1, Reachable (fun _ => .loteria) s ∧
      (machine 1).step s (0, .go) = some s₀ ∧
      dispatches (slotAt 1) s₀.trace = dispatches (slotAt 1) s.trace + 1 ∧
      (machine 1).Path (Stays .class0 (slotAt 2) (slotAt 1)) s₀ t ∧
      1 ≤ dispatchesSince s₀ t (slotAt 1) ∧ 1 ≤ dispatchesSince s₀ t (slotAt 2) := by
  have hrun : ((Solo.boot .loteria).run (fun _ => true) twoOfClass0).any (fun u =>
      u.top = [.loteria (.scan .class0 1 0)] ∧ (u.proc (slotAt 1)).classe = 0 ∧
      (u.next .go).any (fun v =>
        dispatches (slotAt 1) v.trace = dispatches (slotAt 1) u.trace + 1 ∧
        (v.run (stays .class0 (slotAt 2) (slotAt 1)) aroundTheTable).any (fun w =>
          1 ≤ dispatchesSince v.state w.state (slotAt 1)) = true) = true) = true := by
    decide +kernel
  rcases (Option.any_eq_true _ _).1 hrun with ⟨u, hu, htest⟩
  simp only [decide_eq_true_eq] at htest
  rcases htest with ⟨htop, hclass, hnext⟩
  rcases (Option.any_eq_true _ _).1 hnext with ⟨v, hv, htest⟩
  simp only [decide_eq_true_eq] at htest
  rcases htest with ⟨hdispatch, hrest⟩
  rcases (Option.any_eq_true _ _).1 hrest with ⟨w, hw, hone⟩
  simp only [decide_eq_true_eq] at hone
  have hreach := Solo.run_reaches hu
  rw [Solo.boot_state] at hreach
  have hstep : (machine 1).step u.state (0, .go) = some v.state := by
    refine Solo.next_step ?_ hv
    intro _ l rest
    simp [htop]
  have hpath := stays_path hw
  refine ⟨u.state, v.state, w.state, hreach, hstep, hdispatch, hpath, hone, ?_⟩
  exact (round_robin hreach).2 .class0 (slotAt 2) (slotAt 1) _ _ _ hstep (by decide) hclass
    hdispatch hpath hone

end Xv6Schedulers.Sched
